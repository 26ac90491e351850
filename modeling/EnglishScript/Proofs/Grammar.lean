import EnglishScript.Tree.Draft

namespace EnglishScript

namespace Grammar

/-- The nonterminals of expressions, the loosest first. -/
inductive Rank where
  | logical
  | comparison
  | addition
  | multiplication
  | primary
  deriving DecidableEq, Repr

namespace Rank

/-- The nonterminal of the operands. -/
def operand : Rank → Rank
  | .logical => .comparison
  | .comparison => .addition
  | .addition => .multiplication
  | .multiplication | .primary => .primary

/-- The kinds of the operators between the operands. -/
def operators : Rank → List Kind
  | .logical => [.and, .or]
  | .comparison => [.isGreaterThan, .isLessThan, .isEqualTo, .isNotEqualTo]
  | .addition => [.plus, .minus]
  | .multiplication => [.multiply, .divide]
  | .primary => []

/-- The form of the operations. -/
def form : Rank → Form
  | .logical => .logic
  | .comparison => .comparison
  | .addition | .multiplication | .primary => .arithmetic

/-- The number of looser nonterminals. -/
def depth : Rank → Nat
  | .logical => 0
  | .comparison => 1
  | .addition => 2
  | .multiplication => 3
  | .primary => 4

/-- The nonterminal with operators of a level. -/
def ofLevel : Level → Rank
  | .logic => .logical
  | .comparison => .comparison
  | .sum => .addition
  | .product => .multiplication

end Rank

/-- The token lists of each nonterminal of expressions, with their trees. -/
inductive Expression : Rank → List Token → Expr → Prop
  | number {t : Token} {value : Float} (kind : t.kind = .number) (read : readFloat t.lexeme = .ok value) :
    Expression .primary [t] (.number t value)
  | string {t : Token} (kind : t.kind = .string) : Expression .primary [t] (.string t t.lexeme)
  | var {t : Token} (kind : t.kind = .identifier) : Expression .primary [t] (.var t)
  | group {l r : Token} {ts : List Token} {e : Expr} (opening : l.kind = .lparen) (inner : Expression .logical ts e)
    (closing : r.kind = .rparen) : Expression .primary (l :: (ts ++ [r])) e
  | operand {rank : Rank} {ts : List Token} {e : Expr} (inner : Expression rank.operand ts e) : Expression rank ts e
  | operation {rank : Rank} {ts us : List Token} {op : Token} {left right : Expr} (first : Expression rank ts left)
    (operator : op.kind ∈ rank.operators) (second : Expression rank.operand us right) :
    Expression rank (ts ++ op :: us) (.operation rank.form left op right)

mutual

/-- The token lists of statements, with their trees. -/
inductive Statement : List Token → Stmt → Prop
  | create {c v name w u : Token} {ts : List Token} {e : Expr} (hc : c.kind = .create) (hv : v.kind = .variable)
    (hn : name.kind = .identifier) (hw : w.kind = .with) (hu : u.kind = .value) (value : Expression .logical ts e) :
    Statement (c :: v :: name :: w :: u :: ts) (.create name e)
  | assign {s name t : Token} {ts : List Token} {e : Expr} (hs : s.kind = .set) (hn : name.kind = .identifier)
    (ht : t.kind = .to) (value : Expression .logical ts e) : Statement (s :: name :: t :: ts) (.assign name e)
  | print {k : Token} {ts : List Token} {e : Expr} (hk : k.kind = .print) (value : Expression .logical ts e) :
    Statement (k :: ts) (.print k e)
  | branch {k th n f : Token} {cs ys : List Token} {cond : Expr} {yes : List Stmt} (hk : k.kind = .if)
    (hc : Expression .logical cs cond) (ht : th.kind = .then) (hy : Block ys yes) (hn : n.kind = .end)
    (hf : f.kind = .if) : Statement (k :: (cs ++ th :: (ys ++ [n, f]))) (.branch k cond yes none)
  | branchElse {k th el n f : Token} {cs ys ns : List Token} {cond : Expr} {yes no : List Stmt} (hk : k.kind = .if)
    (hc : Expression .logical cs cond) (ht : th.kind = .then) (hy : Block ys yes) (he : el.kind = .else)
    (ho : Block ns no) (hn : n.kind = .end) (hf : f.kind = .if) :
    Statement (k :: (cs ++ th :: (ys ++ el :: (ns ++ [n, f])))) (.branch k cond yes (some no))
  | loop {k d n w : Token} {cs bs : List Token} {cond : Expr} {body : List Stmt} (hk : k.kind = .while)
    (hc : Expression .logical cs cond) (hd : d.kind = .do) (hb : Block bs body) (hn : n.kind = .end)
    (hw : w.kind = .while) : Statement (k :: (cs ++ d :: (bs ++ [n, w]))) (.loop k cond body)

/-- The token lists of blocks: line ends and statements in any order. -/
inductive Block : List Token → List Stmt → Prop
  | nil : Block [] []
  | newline {t : Token} {ts : List Token} {ss : List Stmt} (ht : t.kind = .newline) (rest : Block ts ss) :
    Block (t :: ts) ss
  | statement {ts us : List Token} {s : Stmt} {ss : List Stmt} (first : Statement ts s) (rest : Block us ss) :
    Block (ts ++ us) (s :: ss)

end

/-- A program is a block outside all others. -/
abbrev Program (ts : List Token) (p : EnglishScript.Program) : Prop := Block ts p

/-- An expression with line ends behind it. -/
def Whole (ts : List Token) (e : Expr) : Prop :=
  ∃ us ns, ts = us ++ ns ∧ Expression .logical us e ∧ ∀ n ∈ ns, n.kind = .newline

@[simp] theorem Rank.depth_ofLevel (level : Level) : (ofLevel level).depth = level.rank := by
  cases level <;> rfl

@[simp] theorem Rank.form_ofLevel (level : Level) : (ofLevel level).form = level.form := by
  cases level <;> rfl

theorem Rank.depth_le_four (rank : Rank) : rank.depth ≤ 4 := by
  cases rank <;> decide

theorem Rank.depth_operand (rank : Rank) (h : rank.depth < 4) : rank.operand.depth = rank.depth + 1 := by
  cases rank with
  | primary => simp [depth] at h
  | _ => rfl

theorem Rank.depth_injective {first second : Rank} (h : first.depth = second.depth) : first = second := by
  cases first <;> cases second <;> first | rfl | (simp [depth] at h)

theorem Rank.mem_operators_iff {rank : Rank} {k : Kind} :
    k ∈ rank.operators ↔ ∃ level, Level.ofKind? k = some level ∧ ofLevel level = rank := by
  constructor
  · intro h
    cases rank <;> simp only [operators, List.mem_cons, List.not_mem_nil, or_false] at h
    · rcases h with rfl | rfl <;> exact ⟨.logic, rfl, rfl⟩
    · rcases h with rfl | rfl | rfl | rfl <;> exact ⟨.comparison, rfl, rfl⟩
    · rcases h with rfl | rfl <;> exact ⟨.sum, rfl, rfl⟩
    · rcases h with rfl | rfl <;> exact ⟨.product, rfl, rfl⟩
  · rintro ⟨level, hk, rfl⟩
    unfold Level.ofKind? at hk
    split at hk <;> cases hk <;> simp [operators, ofLevel]

/-- What belongs to a tight nonterminal belongs to every looser one. -/
theorem Expression.loosen {tight rank : Rank} {ts : List Token} {e : Expr} (h : Expression tight ts e)
    (hd : rank.depth ≤ tight.depth) : Expression rank ts e := by
  obtain ⟨n, hn⟩ := Nat.exists_eq_add_of_le hd
  induction n generalizing rank with
  | zero => exact Rank.depth_injective hn ▸ h
  | succ n ih =>
    have htight := tight.depth_le_four
    have hnext := rank.depth_operand (by omega)
    exact .operand (ih (by omega) (by omega))

theorem Block.append {ts us : List Token} {ss rest : List Stmt} :
    Block ts ss → Block us rest → Block (ts ++ us) (ss ++ rest)
  | .nil, h => h
  | .newline ht hs, h => .newline ht (hs.append h)
  | .statement first hs, h => by
    rw [List.append_assoc]
    exact .statement first (hs.append h)

end Grammar

end EnglishScript
