import EnglishScript.Pipeline
import EnglishScript.Proofs.Lexeme
import EnglishScript.Proofs.ParserSoundness
import EnglishScript.Proofs.Refusal

namespace EnglishScript

/-- The token has the given kind and a lexeme of it. -/
def Token.Is (t : Token) (kind : Kind) : Prop :=
  t.kind = kind ∧ kind.Spells t.lexeme

/-- The kinds of the operators of a form. -/
def Form.operators : Form → List Kind
  | .arithmetic => [.plus, .minus, .multiply, .divide]
  | .comparison => [.isGreaterThan, .isLessThan, .isEqualTo, .isNotEqualTo]
  | .logic => [.and, .or]

/-- An expression as sources have them. -/
def Expr.Sourced : Expr → Prop
  | .number t value => t.Is .number ∧ readFloat t.lexeme = .ok value
  | .string t value => t.Is .string ∧ value = t.lexeme
  | .var t => t.Is .identifier
  | .operation form left op right =>
    left.Sourced ∧ (∃ kind ∈ form.operators, op.Is kind) ∧ right.Sourced
  | .hole => False

mutual

/-- A statement as sources have them. -/
def Stmt.Sourced : Stmt → Prop
  | .create name value => name.Is .identifier ∧ value.Sourced
  | .assign name value => name.Is .identifier ∧ value.Sourced
  | .print keyword value => keyword.Is .print ∧ value.Sourced
  | .branch keyword cond yes no =>
    keyword.Is .if ∧ cond.Sourced ∧ BlockSourced yes ∧
      match no with
      | none => True
      | some block => BlockSourced block
  | .loop keyword cond body => keyword.Is .while ∧ cond.Sourced ∧ BlockSourced body
  | .hole => False

/-- A block as sources have them. -/
def BlockSourced : List Stmt → Prop
  | [] => True
  | s :: rest => s.Sourced ∧ BlockSourced rest

end

/-- A node as sources have them. -/
def Node.Sourced : Node → Prop
  | .program p => BlockSourced p
  | .stmt s => s.Sourced
  | .expr e => e.Sourced

theorem BlockSourced.stmt {ss : List Stmt} (h : BlockSourced ss) {n : Node} (hn : n ∈ ss.map Node.stmt) : n.Sourced := by
  induction ss with
  | nil => cases hn
  | cons s rest ih =>
    rcases List.mem_cons.mp hn with rfl | hn
    · exact h.1
    · exact ih h.2 hn

theorem Node.Sourced.part {n m : Node} (h : n.Sourced) (hm : m ∈ n.parts) : m.Sourced := by
  cases n with
  | program p => exact BlockSourced.stmt h hm
  | stmt s =>
    cases s with
    | branch keyword cond yes no =>
      simp only [Node.parts, List.mem_cons, List.mem_append] at hm
      cases no with
      | none =>
        obtain ⟨_, hcond, hyes, _⟩ := h
        rcases hm with rfl | hm | hm
        · exact hcond
        · exact hyes.stmt hm
        · cases hm
      | some block =>
        obtain ⟨_, hcond, hyes, hno⟩ := h
        rcases hm with rfl | hm | hm
        · exact hcond
        · exact hyes.stmt hm
        · exact BlockSourced.stmt hno hm
    | loop keyword cond body =>
      obtain ⟨_, hcond, hbody⟩ := h
      rcases List.mem_cons.mp hm with rfl | hm
      · exact hcond
      · exact hbody.stmt hm
    | hole => exact h.elim
    | _ =>
      obtain rfl := List.mem_singleton.mp hm
      exact h.2
  | expr e =>
    cases e with
    | operation form left op right =>
      simp only [Node.parts, List.mem_cons, List.not_mem_nil, or_false] at hm
      rcases hm with rfl | rfl
      · exact h.1
      · exact h.2.2
    | _ => cases hm

theorem Node.Within.sourced {n m : Node} (hm : Node.Within n m) : n.Sourced → m.Sourced := by
  induction hm with
  | self n => exact id
  | part hpart _ ih => exact fun h => ih (h.part hpart)

/-- Every node of a source's program is as sources have them. -/
theorem BlockSourced.node {p : Program} (h : BlockSourced p) {n : Node} (hn : n ∈ Program.walk p) : n.Sourced :=
  (Node.within_of_mem_walk (show n ∈ Node.walk (.program p) from hn)).sourced h

theorem Token.is_of_spelled {t : Token} {kind : Kind} (hs : t.kind.Spells t.lexeme) (hk : t.kind = kind) :
    t.Is kind := by
  subst hk
  exact ⟨rfl, hs⟩

theorem Grammar.Rank.operators_form {rank : Rank} {kind : Kind} (h : kind ∈ rank.operators) :
    kind ∈ rank.form.operators := by
  cases rank <;> simp only [Rank.operators, List.mem_cons, List.not_mem_nil, or_false] at h <;>
    simp only [Rank.form, Form.operators, List.mem_cons, List.not_mem_nil, or_false]
  · exact h
  · exact h
  · exact h.elim Or.inl fun h => Or.inr (Or.inl h)
  · exact Or.inr (Or.inr h)

namespace Grammar

theorem Expression.sourced {rank : Rank} {ts : List Token} {e : Expr} (h : Expression rank ts e) :
    (∀ t ∈ ts, t.kind.Spells t.lexeme) → e.Sourced := by
  induction h with
  | number kind read => exact fun hs => ⟨Token.is_of_spelled (hs _ (by simp)) kind, read⟩
  | string kind => exact fun hs => ⟨Token.is_of_spelled (hs _ (by simp)) kind, rfl⟩
  | var kind => exact fun hs => Token.is_of_spelled (hs _ (by simp)) kind
  | group _ _ _ ih => exact fun hs => ih fun t ht => hs t (by simp [ht])
  | operand _ ih => exact ih
  | @operation rank ts us op left right _ operator _ ihl ihr =>
    intro hs
    have hop := Token.is_of_spelled (hs op (by simp)) rfl
    exact ⟨ihl fun t ht => hs t (by simp [ht]), ⟨op.kind, Rank.operators_form operator, hop⟩,
      ihr fun t ht => hs t (by simp [ht])⟩

mutual

theorem Statement.sourced : ∀ {ts : List Token} {s : Stmt}, Statement ts s →
    (∀ t ∈ ts, t.kind.Spells t.lexeme) → s.Sourced
  | _, _, .create _ _ hn _ _ value, hs =>
    ⟨Token.is_of_spelled (hs _ (by simp)) hn, value.sourced fun t ht => hs t (by simp [ht])⟩
  | _, _, .assign _ hn _ value, hs =>
    ⟨Token.is_of_spelled (hs _ (by simp)) hn, value.sourced fun t ht => hs t (by simp [ht])⟩
  | _, _, .print hk value, hs =>
    ⟨Token.is_of_spelled (hs _ (by simp)) hk, value.sourced fun t ht => hs t (by simp [ht])⟩
  | _, _, .branch hk hc _ hy _ _, hs =>
    ⟨Token.is_of_spelled (hs _ (by simp)) hk, hc.sourced fun t ht => hs t (by simp [ht]),
      Block.sourced hy fun t ht => hs t (by simp [ht]), trivial⟩
  | _, _, .branchElse hk hc _ hy _ ho _ _, hs =>
    ⟨Token.is_of_spelled (hs _ (by simp)) hk, hc.sourced fun t ht => hs t (by simp [ht]),
      Block.sourced hy fun t ht => hs t (by simp [ht]), Block.sourced ho fun t ht => hs t (by simp [ht])⟩
  | _, _, .loop hk hc _ hb _ _, hs =>
    ⟨Token.is_of_spelled (hs _ (by simp)) hk, hc.sourced fun t ht => hs t (by simp [ht]),
      Block.sourced hb fun t ht => hs t (by simp [ht])⟩

theorem Block.sourced : ∀ {ts : List Token} {ss : List Stmt}, Block ts ss →
    (∀ t ∈ ts, t.kind.Spells t.lexeme) → BlockSourced ss
  | _, _, .nil, _ => trivial
  | _, _, .newline _ rest, hs => Block.sourced rest fun t ht => hs t (by simp [ht])
  | _, _, .statement first rest, hs =>
    ⟨Statement.sourced first fun t ht => hs t (by simp [ht]), Block.sourced rest fun t ht => hs t (by simp [ht])⟩

end

end Grammar

theorem parseSource_ok {source : Text} {p : Program} (h : parseSource source = .ok p) :
    ∃ tokens, lex source = .ok tokens ∧ parseProgram tokens = .ok p := by
  unfold parseSource at h
  split at h
  next => cases h
  next tokens htokens =>
    split at h
    next => cases h
    next found hfound =>
      cases Except.ok.inj h
      exact ⟨tokens, htokens, hfound⟩

theorem parseSource_of_lex {source : Text} {tokens : List Token} (h : lex source = .ok tokens) :
    parseSource source = (parseProgram tokens).mapError .parse := by
  simp only [parseSource, h]
  cases parseProgram tokens <;> rfl

theorem compile_of_parsed {source : Text} {p : Program} (h : parseSource source = .ok p) :
    compile source = .ok (Program.python p) := by
  rw [compile, h]
  rfl

theorem compile_of_unparsed {source : Text} {e : SourceError} (h : parseSource source = .error e) :
    compile source = .error e := by
  rw [compile, h]
  rfl

/-- A program that was read from a source has the tree of a source. -/
theorem parseSource_sourced {source : Text} {p : Program} (h : parseSource source = .ok p) : BlockSourced p := by
  obtain ⟨tokens, hlex, hparse⟩ := parseSource_ok h
  have spelled := lex_spelled hlex
  exact (parseProgram_derived hparse).sourced fun t ht => spelled t ((List.takeWhile_sublist _).mem ht)

end EnglishScript
