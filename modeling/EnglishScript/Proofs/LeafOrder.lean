import EnglishScript.Proofs.Completion
import EnglishScript.Proofs.LineLexing
import EnglishScript.Proofs.SourceTree

namespace EnglishScript

namespace Kind

/-- A token of the kind stands in front of the name that a statement sets. -/
def announces : Kind → Bool
  | .variable | .set => true
  | _ => false

/-- A token of the kind is a literal, or an identifier that no token announces. -/
def isLeaf (announced : Bool) : Kind → Bool
  | .number | .string => true
  | .identifier => !announced
  | _ => false

/-- A token of the kind is no literal and no identifier, and announces none. -/
def isMark (kind : Kind) : Bool :=
  !kind.isLeaf false && !kind.announces

theorem isMark_operator {kind : Kind} {rank : Grammar.Rank} (h : kind ∈ rank.operators) : kind.isMark = true := by
  cases rank <;> simp only [Grammar.Rank.operators, List.mem_cons, List.not_mem_nil, or_false] at h
  · rcases h with rfl | rfl <;> rfl
  · rcases h with rfl | rfl | rfl | rfl <;> rfl
  · rcases h with rfl | rfl <;> rfl
  · rcases h with rfl | rfl <;> rfl

theorem isLeaf_of_isMark {kind : Kind} (h : kind.isMark = true) (announced : Bool) : kind.isLeaf announced = false := by
  cases kind <;> first | rfl | cases h

end Kind

namespace Token

/-- The literals and references of a token list in order. The flag tells whether the token in front of the list
announces a name. -/
def leavesBehind : Bool → List Token → List Token
  | _, [] => []
  | announced, t :: rest =>
    if t.kind.isLeaf announced then t :: leavesBehind t.kind.announces rest else leavesBehind t.kind.announces rest

/-- The numbers and strings of a token list, and the identifiers not directly behind `variable` or `set`, in order. -/
def leaves (tokens : List Token) : List Token :=
  leavesBehind false tokens

theorem leavesBehind_sublist (announced : Bool) (tokens : List Token) :
    (leavesBehind announced tokens).Sublist tokens := by
  induction tokens generalizing announced with
  | nil => exact .slnil
  | cons t rest ih =>
    unfold leavesBehind
    split
    next => exact (ih t.kind.announces).cons_cons t
    next => exact (ih t.kind.announces).cons t

theorem leavesBehind_mark {t : Token} (h : t.kind.isMark = true) (announced : Bool) (rest : List Token) :
    leavesBehind announced (t :: rest) = leavesBehind false rest := by
  have hannounces : t.kind.announces = false := by
    simpa using ((Bool.and_eq_true _ _).mp h).2
  rw [leavesBehind, Kind.isLeaf_of_isMark h, if_neg Bool.false_ne_true, hannounces]

theorem leavesBehind_leaf {t : Token} (h : t.kind.isLeaf false = true) (rest : List Token) :
    leavesBehind false (t :: rest) = t :: leavesBehind false rest := by
  have hannounces : t.kind.announces = false := by
    cases hk : t.kind <;> rw [hk] at h <;> first | rfl | cases h
  rw [leavesBehind, if_pos h, hannounces]

/-- An announced name is passed over. -/
theorem leavesBehind_name {a name : Token} (ha : a.kind.announces = true) (hn : name.kind = .identifier)
    (rest : List Token) : leavesBehind false (a :: name :: rest) = leavesBehind false rest := by
  have hleaf : a.kind.isLeaf false = false := by
    cases hk : a.kind <;> rw [hk] at ha <;> first | rfl | cases ha
  rw [leavesBehind, hleaf, if_neg Bool.false_ne_true, ha, leavesBehind, hn]
  rfl

end Token

/-- A number, a string or a reference. -/
def Node.isLeaf : Node → Bool
  | .expr (.number _ _) | .expr (.string _ _) | .expr (.var _) => true
  | _ => false

/-- The tokens that the leaves among the nodes go by, in order. -/
def leafTokens (nodes : List Node) : List (Option Token) :=
  (nodes.filter Node.isLeaf).map Node.base?

theorem leafTokens_append (first second : List Node) :
    leafTokens (first ++ second) = leafTokens first ++ leafTokens second := by
  rw [leafTokens, List.filter_append, List.map_append, leafTokens, leafTokens]

theorem leafTokens_inner {n : Node} (h : n.isLeaf = false) (nodes : List Node) :
    leafTokens (n :: nodes) = leafTokens nodes := by
  rw [leafTokens, List.filter_cons_of_neg (by simp [h]), leafTokens]

open Token

/-- The tokens have the leaves that the nodes have, whatever tokens follow, and they announce no name behind them. -/
def SameLeaves (ts : List Token) (nodes : List Node) : Prop :=
  ∀ rest, (leavesBehind false (ts ++ rest)).map some = leafTokens nodes ++ (leavesBehind false rest).map some

namespace SameLeaves

variable {ts us : List Token} {nodes more : List Node}

theorem append (first : SameLeaves ts nodes) (second : SameLeaves us more) :
    SameLeaves (ts ++ us) (nodes ++ more) := by
  intro rest
  rw [List.append_assoc, first, second, leafTokens_append, List.append_assoc]

theorem nil : SameLeaves [] [] := fun _ => rfl

theorem leaf {t : Token} {n : Node} (ht : t.kind.isLeaf false = true) (hn : n.isLeaf = true)
    (hbase : n.base? = some t) : SameLeaves [t] [n] := by
  intro rest
  rw [List.singleton_append, leavesBehind_leaf ht, leafTokens, List.filter_cons_of_pos hn, List.filter_nil,
    List.map_singleton, hbase, List.map_cons, List.singleton_append]

theorem mark {t : Token} (ht : t.kind.isMark = true) (h : SameLeaves ts nodes) : SameLeaves (t :: ts) nodes := by
  intro rest
  rw [List.cons_append, leavesBehind_mark ht, h]

theorem name {a n : Token} (ha : a.kind.announces = true) (hn : n.kind = .identifier) (h : SameLeaves ts nodes) :
    SameLeaves (a :: n :: ts) nodes := by
  intro rest
  rw [List.cons_append, List.cons_append, leavesBehind_name ha hn, h]

/-- The two words that close a block. -/
theorem closing {n w : Token} (hn : n.kind = .end) (hw : w.kind.isMark = true) : SameLeaves [n, w] [] :=
  (nil.mark hw).mark (by rw [hn]; rfl)

theorem node {n : Node} (hn : n.isLeaf = false) (h : SameLeaves ts nodes) : SameLeaves ts (n :: nodes) := by
  intro rest
  rw [h, leafTokens_inner hn]

end SameLeaves

namespace Grammar

theorem Expression.sameLeaves {rank : Rank} {ts : List Token} {e : Expr} (h : Expression rank ts e) :
    SameLeaves ts e.walk := by
  induction h with
  | number kind read => exact .leaf (by rw [kind]; rfl) rfl rfl
  | string kind => exact .leaf (by rw [kind]; rfl) rfl rfl
  | var kind => exact .leaf (by rw [kind]; rfl) rfl rfl
  | group opening inner closing ih =>
    have hclosing := SameLeaves.nil.mark (show (Token.kind _).isMark = true by rw [closing]; rfl)
    have hinner := ih.append hclosing
    rw [List.append_nil] at hinner
    exact hinner.mark (by rw [opening]; rfl)
  | operand inner ih => exact ih
  | operation first operator second ihl ihr =>
    -- the node comes before its operands in the walk and between them in the source, but it is no leaf
    exact (ihl.append (ihr.mark (Kind.isMark_operator operator))).node rfl

mutual

theorem Statement.sameLeaves : ∀ {ts : List Token} {s : Stmt}, Statement ts s → SameLeaves ts s.walk
  | _, _, .create hc hv hn hw hu value => by
    have hvalue := (value.sameLeaves.mark (by rw [hu]; rfl)).mark (by rw [hw]; rfl)
    exact ((hvalue.name (by rw [hv]; rfl) hn).mark (by rw [hc]; rfl)).node rfl
  | _, _, .assign hs hn ht value => by
    have hvalue := value.sameLeaves.mark (by rw [ht]; rfl)
    exact (hvalue.name (by rw [hs]; rfl) hn).node rfl
  | _, _, .print hk value => (value.sameLeaves.mark (by rw [hk]; rfl)).node rfl
  | _, _, .branch hk hc ht hy hn hf => by
    have hyes := (Block.sameLeaves hy).append (.closing hn (by rw [hf]; rfl))
    have hparts := hc.sameLeaves.append (hyes.mark (by rw [ht]; rfl))
    rw [← List.append_assoc (Expr.walk _)] at hparts
    exact (hparts.mark (by rw [hk]; rfl)).node rfl
  | _, _, .branchElse hk hc ht hy he ho hn hf => by
    have hno := (Block.sameLeaves ho).append (.closing hn (by rw [hf]; rfl))
    have hyes := (Block.sameLeaves hy).append (hno.mark (by rw [he]; rfl))
    have hparts := hc.sameLeaves.append (hyes.mark (by rw [ht]; rfl))
    rw [List.append_nil, ← List.append_assoc (Expr.walk _)] at hparts
    exact (hparts.mark (by rw [hk]; rfl)).node rfl
  | _, _, .loop hk hc hd hb hn hw => by
    have hbody := (Block.sameLeaves hb).append (.closing hn (by rw [hw]; rfl))
    have hparts := hc.sameLeaves.append (hbody.mark (by rw [hd]; rfl))
    rw [List.append_nil] at hparts
    exact (hparts.mark (by rw [hk]; rfl)).node rfl

theorem Block.sameLeaves : ∀ {ts : List Token} {ss : List Stmt}, Block ts ss → SameLeaves ts (walkBlock ss)
  | _, _, .nil => .nil
  | _, _, .newline ht rest => (Block.sameLeaves rest).mark (by rw [ht]; rfl)
  | _, _, .statement first rest => (Statement.sameLeaves first).append (Block.sameLeaves rest)

end

end Grammar

/-- The end token is no leaf, and the node of the program is none either. -/
theorem parseProgram_leaves {body : List Token} (hbody : Endless body) {final : Token} (hfinal : final.kind = .eof)
    {p : Program} (h : parseProgram (body ++ [final]) = .ok p) :
    leafTokens (Program.walk p) = (leaves (body ++ [final])).map some := by
  have hderived := parseProgram_derived h
  rw [bodyTokens_endless hbody hfinal] at hderived
  have hleaves := hderived.sameLeaves [final]
  rw [leavesBehind_mark (by rw [hfinal]; rfl)] at hleaves
  rw [leaves, hleaves, leavesBehind, List.map_nil, List.append_nil]
  exact leafTokens_inner rfl _

/-- A walk over the program of a source meets its literals and references as the tokens have them: the numbers, the
strings, and the identifiers not directly behind `variable` or `set`, in order, each once. -/
theorem walk_leaves {source : Text} {p : Program} (h : parseSource source = .ok p) :
    ∃ tokens, lex source = .ok tokens ∧ (leaves tokens).Sublist tokens ∧
      ((Program.walk p).filter Node.isLeaf).map Node.base? = (leaves tokens).map some := by
  obtain ⟨tokens, hlex, hparse⟩ := parseSource_ok h
  obtain ⟨body, final, rfl, hbody⟩ := lex_endless hlex
  exact ⟨_, hlex, leavesBehind_sublist false _, parseProgram_leaves hbody rfl hparse⟩

/-- Both branches, parentheses and two levels of operators; `n` is set in one branch and read in the other. -/
theorem walk_leaves_branches :
    let source := utf8 "if a - (b * 2) is less than \"c\" then set n to d else print n - 3 - e end if"
    ∃ p, parseSource source = .ok p ∧
      (((Program.walk p).filter Node.isLeaf).map Node.base?).map (Option.map Token.lexeme) =
        [utf8 "a", utf8 "b", utf8 "2", utf8 "c", utf8 "d", utf8 "n", utf8 "3", utf8 "e"].map some := by
  intro source
  have haccepted : (parseSource source).toOption.isSome = true := by decide +kernel
  have hleaves : (lex source).toOption.map (fun tokens => (leaves tokens).map Token.lexeme) =
      some [utf8 "a", utf8 "b", utf8 "2", utf8 "c", utf8 "d", utf8 "n", utf8 "3", utf8 "e"] := by
    decide +kernel
  cases hp : parseSource source with
  | error e => rw [hp] at haccepted; cases haccepted
  | ok p =>
    obtain ⟨tokens, hlex, _, hwalk⟩ := walk_leaves hp
    rw [hlex] at hleaves
    refine ⟨p, rfl, ?_⟩
    rw [hwalk, ← Option.some.inj hleaves, List.map_map, List.map_map]
    rfl

end EnglishScript
