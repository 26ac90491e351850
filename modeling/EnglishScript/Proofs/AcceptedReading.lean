import EnglishScript.Proofs.AcceptedSymbols
import EnglishScript.Proofs.LineReading

namespace EnglishScript.Python

namespace Reader

theorem bind_of_ok {α β : Type} {r : Reader α} {f : α → Reader β} {c d : Cursor} {a : α} (h : r c = .ok (a, d)) :
    (r >>= f) c = f a d := by
  change (do let (a, d) ← r c; f a d : Except Refusal (β × Cursor)) = _
  rw [h]
  rfl

theorem expect_same {l : Lexis} {c : Cursor} (h : c.head.lexis = l) :
    expect l c = .ok ((), { c with symbols := c.symbols.tail }) := by
  simp [expect, h]

theorem accept_ne {l : Lexis} {c : Cursor} (h : c.head.lexis ≠ l) : accept l c = .ok (false, c) := by
  simp [accept, h]

/-- A loop ends at once if its body finds nothing to do. -/
theorem loop_stops {go : Reader Bool} {c : Cursor} (h : go c = .ok (false, c)) (fuel : Nat) :
    loop go fuel c = .ok ((), c) := by
  cases fuel with
  | zero => rfl
  | succ fuel =>
    rw [loop, bind_of_ok h]
    rfl

end Reader

open Reader

namespace Expression

/-- The symbols behind a whole expression. -/
def closers : List Lexis :=
  [mark ")", mark ":", mark "=", .newline]

/-- The symbols of operators. -/
def operatorLexes : List Lexis :=
  [mark "+", mark "-", mark "*", mark "/", mark ">", mark "<", mark "==", mark "!=", word "and", word "or"]

/-- The symbols that an operand starts with in a generated text. -/
def StartsOperand (l : Lexis) : Prop :=
  (∃ t, l = .name t) ∨ l = .number ∨ l = .string ∨ l = mark "("

theorem StartsOperand.ne {l other : Lexis} (h : StartsOperand l) (hname : ∀ t, other ≠ .name t)
    (hother : other ∉ [.number, .string, mark "("]) : l ≠ other := by
  rintro rfl
  rcases h with ⟨t, rfl⟩ | rfl | rfl | rfl
  · exact hname t rfl
  · exact hother (by simp)
  · exact hother (by simp)
  · exact hother (by simp)

theorem acceptIf_false {is : Lexis → Bool} {c : Cursor} (h : is c.head.lexis = false) :
    acceptIf is c = .ok (false, c) := by
  change (if is c.head.lexis then _ else _ : Reader Bool) c = _
  rw [h]
  rfl

theorem acceptIf_true {is : Lexis → Bool} {c : Cursor} (h : is c.head.lexis = true) :
    acceptIf is c = .ok (true, { c with symbols := c.symbols.tail }) := by
  change (if is c.head.lexis then _ else _ : Reader Bool) c = _
  rw [h]
  rfl

section Layers

variable {operand : Reader Shape} {operator : Reader Bool} {whole a b : Shape} {fuel : Nat} {c d d₁ d₂ : Cursor}

theorem chain_one (hfirst : operand c = .ok (a, d)) (hend : operator d = .ok (false, d)) :
    chain operand operator whole fuel c = .ok (a, d) := by
  rw [chain, bind_of_ok hfirst, bind_of_ok hend]
  rfl

theorem chain_two (hfirst : operand c = .ok (a, d)) (hoperator : operator d = .ok (true, d₁))
    (hsecond : operand d₁ = .ok (b, d₂)) (hend : operator d₂ = .ok (false, d₂)) :
    chain operand operator whole fuel c = .ok (whole, d₂) := by
  rw [chain, bind_of_ok hfirst, bind_of_ok hoperator]
  simp only [↓reduceIte]
  have hgo : (do
      if ← operator then
        let _ ← operand
        return true
      else return false : Reader Bool) d₂ = .ok (false, d₂) := by
    rw [bind_of_ok hend]
    rfl
  rw [bind_of_ok hsecond, bind_of_ok (loop_stops hgo fuel)]
  rfl

theorem comparisonOperator_false (hsign : isComparison d.head.lexis = false) (hin : d.head.lexis ≠ word "in")
    (his : d.head.lexis ≠ word "is") (hnot : d.head.lexis ≠ word "not") : comparisonOperator d = .ok (false, d) := by
  rw [comparisonOperator, bind_of_ok (acceptIf_false hsign)]
  simp only [Bool.false_eq_true, ↓reduceIte]
  rw [accept_other hin, accept_other his, accept_other hnot]
  rfl

theorem comparisonOperator_true (hsign : isComparison d.head.lexis = true) :
    comparisonOperator d = .ok (true, { d with symbols := d.symbols.tail }) := by
  rw [comparisonOperator, bind_of_ok (acceptIf_true hsign)]
  rfl

/-- No operator of arithmetic, and none of comparison, comes next. -/
theorem comparison_one (hoperand : operand c = .ok (a, d)) (hbinary : isBinary d.head.lexis = false)
    (hcomparison : comparisonOperator d = .ok (false, d)) : comparison fuel operand c = .ok (a, d) :=
  chain_one (chain_one hoperand (acceptIf_false hbinary)) hcomparison

theorem negation_eq (hnot : c.head.lexis ≠ word "not") : negation fuel operand c = comparison fuel operand c := by
  rw [negation, accept_other hnot]

end Layers

/-- Which of the layers takes the symbol for an operator: arithmetic, comparisons, or logic. -/
structure Layered (l : Lexis) (binary compares logical : Bool) : Prop where
  binary : isBinary l = binary
  compares : isComparison l = compares
  logical : (l == word "and" || l == word "or") = logical
  others : l ≠ word "in" ∧ l ≠ word "is" ∧ l ≠ word "not"

theorem layered_closer {l : Lexis} (h : l ∈ closers) : Layered l false false false := by
  have hall : ∀ l ∈ closers, isBinary l = false ∧ isComparison l = false ∧
      (l == word "and" || l == word "or") = false ∧ l ≠ word "in" ∧ l ≠ word "is" ∧ l ≠ word "not" := by decide
  obtain ⟨hbinary, hcompares, hlogical, hothers⟩ := hall l h
  exact ⟨hbinary, hcompares, hlogical, hothers⟩

theorem layered_operator {form : Form} {op : Token} {kind : Kind} (hk : kind ∈ form.operators) (hop : op.Is kind) :
    Layered (form.lexis op) (form == .arithmetic) (form == .comparison) (form == .logic) := by
  have hall : ∀ x ∈ ReadBack.operators, isBinary (x.2.1.written x.1) = (x.2.1 == .arithmetic) ∧
      isComparison (x.2.1.written x.1) = (x.2.1 == .comparison) ∧
      (x.2.1.written x.1 == word "and" || x.2.1.written x.1 == word "or") = (x.2.1 == .logic) ∧
      x.2.1.written x.1 ≠ word "in" ∧ x.2.1.written x.1 ≠ word "is" ∧ x.2.1.written x.1 ≠ word "not" := by decide
  obtain ⟨hbinary, hcompares, hlogical, hothers⟩ := hall _ (ReadBack.symbol_mem_operators hk hop)
  exact ⟨hbinary, hcompares, hlogical, hothers⟩

section Operations

variable {operand : Reader Shape} {a b : Shape} {fuel : Nat} {c d d₁ : Cursor}

theorem Layered.comparisonOperator {binary logical : Bool} (h : Layered d.head.lexis binary false logical) :
    comparisonOperator d = .ok (false, d) :=
  comparisonOperator_false h.compares h.others.1 h.others.2.1 h.others.2.2

theorem disjunction_one (hc : c.head.lexis ≠ word "not") (hoperand : operand c = .ok (a, d))
    (hd : d.head.lexis ∈ closers) : disjunction fuel operand c = .ok (a, d) := by
  have hlayer := layered_closer hd
  refine chain_one ?_ (acceptIf_false hlayer.logical)
  rw [negation_eq hc]
  exact comparison_one hoperand hlayer.binary hlayer.comparisonOperator

/-- Two operands with an operator between them, which belongs to exactly one of the layers. -/
theorem disjunction_two (fuel : Nat) {form : Form} (hc : c.head.lexis ≠ word "not") (hfirst : operand c = .ok (a, d))
    (hop : Layered d.head.lexis (form == .arithmetic) (form == .comparison) (form == .logic))
    (hnot : ({ d with symbols := d.symbols.tail } : Cursor).head.lexis ≠ word "not")
    (hsecond : operand { d with symbols := d.symbols.tail } = .ok (b, d₁)) (hend : d₁.head.lexis ∈ closers) :
    ∃ shape, disjunction fuel operand c = .ok (shape, d₁) := by
  have hlayer := layered_closer hend
  cases form with
  | arithmetic =>
    have hsum : arithmetic fuel operand c = .ok (.operator, d₁) :=
      chain_two hfirst (acceptIf_true hop.binary) hsecond (acceptIf_false hlayer.binary)
    have hnegation : negation fuel operand c = .ok (.operator, d₁) := by
      rw [negation_eq hc]
      exact chain_one hsum hlayer.comparisonOperator
    exact ⟨_, chain_one hnegation (acceptIf_false hlayer.logical)⟩
  | comparison =>
    have hleft : arithmetic fuel operand c = .ok (a, d) := chain_one hfirst (acceptIf_false hop.binary)
    have hright : arithmetic fuel operand { d with symbols := d.symbols.tail } = .ok (b, d₁) :=
      chain_one hsecond (acceptIf_false hlayer.binary)
    have hnegation : negation fuel operand c = .ok (.comparison, d₁) := by
      rw [negation_eq hc]
      exact chain_two hleft (comparisonOperator_true hop.compares) hright hlayer.comparisonOperator
    exact ⟨_, chain_one hnegation (acceptIf_false hlayer.logical)⟩
  | logic =>
    have hleft : negation fuel operand c = .ok (a, d) := by
      rw [negation_eq hc]
      exact comparison_one hfirst hop.binary hop.comparisonOperator
    have hright : negation fuel operand { d with symbols := d.symbols.tail } = .ok (b, d₁) := by
      rw [negation_eq hnot]
      exact comparison_one hsecond hlayer.binary hlayer.comparisonOperator
    exact ⟨_, chain_two hleft (acceptIf_true hop.logical) hright (acceptIf_false hlayer.logical)⟩

end Operations

section Operands

variable {fuel : Nat} {inner : Inner} {c d : Cursor} {a : Shape}

theorem atom_name {t : Text} (h : c.head.lexis = .name t) :
    atom fuel inner c = .ok (.target, { c with symbols := c.symbols.tail }) := by
  rw [atom, bind_of_ok (show peek c = .ok (c.head.lexis, c) from rfl), h]
  rfl

theorem atom_number (h : c.head.lexis = .number) :
    atom fuel inner c = .ok (.literal, { c with symbols := c.symbols.tail }) := by
  rw [atom, bind_of_ok (show peek c = .ok (c.head.lexis, c) from rfl), h]
  rfl

theorem atom_string (h : c.head.lexis = .string)
    (hnext : ({ c with symbols := c.symbols.tail } : Cursor).head.lexis ≠ .string) :
    atom fuel inner c = .ok (.literal, { c with symbols := c.symbols.tail }) := by
  rw [atom, bind_of_ok (show peek c = .ok (c.head.lexis, c) from rfl), h]
  dsimp only
  rw [bind_of_ok (show advance c = .ok ((), { c with symbols := c.symbols.tail }) from rfl),
    bind_of_ok (loop_stops (accept_ne hnext) fuel)]
  rfl

/-- An expression in parentheses. -/
theorem atom_parentheses (h : c.head.lexis = mark "(")
    (hfirst : StartsOperand ({ c with symbols := c.symbols.tail } : Cursor).head.lexis)
    (htest : inner.test { c with symbols := c.symbols.tail } = .ok (a, d)) (hclose : d.head.lexis = mark ")") :
    atom fuel inner c = .ok (a, { d with symbols := d.symbols.tail }) := by
  rw [atom, bind_of_ok (show peek c = .ok (c.head.lexis, c) from rfl), h]
  change inParentheses fuel inner { c with symbols := c.symbols.tail } = _
  have hitem : item fuel inner { c with symbols := c.symbols.tail } = .ok (a, d) := by
    rw [item, accept_other (hfirst.ne (by simp) (by decide)), htest]
  rw [inParentheses, accept_other (hfirst.ne (by simp) (by decide)), accept_other (hfirst.ne (by simp) (by decide)),
    bind_of_ok hitem, bind_of_ok (show peek d = .ok (d.head.lexis, d) from rfl), if_neg (by rw [hclose]; decide),
    accept_other (by rw [hclose]; decide), bind_of_ok (expect_same hclose)]
  rfl

theorem trailers_stop {n : Nat} (hcall : d.head.lexis ≠ mark "(") (hsubscript : d.head.lexis ≠ mark "[")
    (hattribute : d.head.lexis ≠ mark ".") : trailers fuel inner n a d = .ok (a, d) := by
  cases n with
  | zero => rfl
  | succ n =>
    rw [trailers, accept_other hcall, accept_other hsubscript, accept_other hattribute]
    rfl

theorem trailers_call {n : Nat} (hn : 0 < n) (hopen : c.head.lexis = mark "(")
    (harguments : arguments fuel inner { c with symbols := c.symbols.tail } = .ok ((), d))
    (hstop : ∀ m, trailers fuel inner m .call d = .ok (.call, d)) : trailers fuel inner n a c = .ok (.call, d) := by
  obtain ⟨m, rfl⟩ := Nat.exists_eq_add_one_of_ne_zero (Nat.ne_of_gt hn)
  rw [trailers, accept_same hopen, bind_of_ok harguments]
  exact hstop m

theorem operandWith_atom (hc : StartsOperand c.head.lexis) (hatom : atom fuel inner c = .ok (a, d)) :
    operandWith fuel inner c = trailers fuel inner fuel a d := by
  have hunary : isUnary c.head.lexis = false := by
    have hplus : c.head.lexis ≠ mark "+" := hc.ne (by simp) (by decide)
    have hminus : c.head.lexis ≠ mark "-" := hc.ne (by simp) (by decide)
    have htilde : c.head.lexis ≠ mark "~" := hc.ne (by simp) (by decide)
    simp [isUnary, hplus, hminus, htilde]
  rw [operandWith, bind_of_ok (acceptIf_false hunary)]
  simp only [Bool.false_eq_true, ↓reduceIte]
  rw [bind_of_ok hatom]

/-- What is read as an atom is read as an operand if no trailer follows it. -/
theorem operand_of_atom {depth : Nat} (hc : StartsOperand c.head.lexis)
    (h : atom fuel (reader fuel depth) c = .ok (a, d)) (hd : trailers fuel (reader fuel depth) fuel a d = .ok (a, d)) :
    (reader fuel (depth + 1)).operand c = .ok (a, d) :=
  (operandWith_atom hc h).trans hd

theorem testWith_disjunction {operand : Reader Shape} (hc : c.head.lexis ≠ word "lambda")
    (h : disjunction fuel operand c = .ok (a, d)) (hd : d.head.lexis ≠ word "if") :
    testWith fuel inner operand c = .ok (a, d) := by
  rw [testWith, accept_other hc, bind_of_ok h, accept_other hd]
  rfl

end Operands

/-- The parentheses around the innermost operands of an expression. -/
def nesting : Expr → Nat
  | .operation _ left _ right => max (nesting left) (nesting right) + 1
  | _ => 0

theorem starts_lexes {e : Expr} (h : e.Sourced) : ∃ l more, e.lexes = l :: more ∧ StartsOperand l := by
  cases e with
  | number t value => exact ⟨_, _, rfl, Or.inr (Or.inl rfl)⟩
  | string t value => exact ⟨_, _, rfl, Or.inr (Or.inr (Or.inl rfl))⟩
  | var t => exact ⟨_, _, rfl, Or.inl ⟨_, rfl⟩⟩
  | operation form left op right => exact ⟨_, _, rfl, Or.inr (Or.inr (Or.inr rfl))⟩
  | hole => exact h.elim

theorem starts_symbols {e : Expr} (h : e.Sourced) {front : List Symbol} (hfront : front.map (·.lexis) = e.lexes)
    (rest : List Symbol) (k : Option Text) : StartsOperand (Cursor.mk (front ++ rest) k).head.lexis := by
  obtain ⟨l, more, hlexes, hl⟩ := starts_lexes h
  rw [hlexes] at hfront
  obtain ⟨s, tail, rfl, rfl, _⟩ := List.map_eq_cons_iff.mp hfront
  exact hl

/-- The symbols that may stand behind an operand. -/
def followers : List Lexis :=
  closers ++ operatorLexes

theorem trailers_follower {fuel n : Nat} {inner : Inner} {a : Shape} {d : Cursor} (hd : d.head.lexis ∈ followers) :
    trailers fuel inner n a d = .ok (a, d) := by
  have hall : ∀ l ∈ followers, l ≠ mark "(" ∧ l ≠ mark "[" ∧ l ≠ mark "." := by decide
  obtain ⟨hcall, hsubscript, hattribute⟩ := hall _ hd
  exact trailers_stop hcall hsubscript hattribute

theorem lexis_mem_followers {form : Form} {op : Token} {kind : Kind} (hk : kind ∈ form.operators) (hop : op.Is kind) :
    form.lexis op ∈ followers :=
  (show ∀ x ∈ ReadBack.operators, x.2.1.written x.1 ∈ followers by decide) _ (ReadBack.symbol_mem_operators hk hop)

theorem closer_mem_followers {l : Lexis} (h : l ∈ closers) : l ∈ followers :=
  List.mem_append_left _ h

/-- A whole expression inside the reader: operands and at most one operator. -/
theorem test_of_disjunction {fuel depth : Nat} {c d : Cursor} {a : Shape} (hc : StartsOperand c.head.lexis)
    (h : disjunction fuel (reader fuel (depth + 1)).operand c = .ok (a, d)) (hd : d.head.lexis ∈ closers) :
    (reader fuel (depth + 1)).test c = .ok (a, d) := by
  have hif : ∀ l ∈ closers, l ≠ word "if" := by decide
  exact testWith_disjunction (hc.ne (by simp) (by decide)) h (hif _ hd)

/-- The text of an operand is read as an atom, if the reader can go as deep as its parentheses do. -/
theorem atom_accepts (fuel : Nat) {e : Expr} (he : e.Sourced) : ∀ {depth : Nat} {front rest : List Symbol}
    {k : Option Text}, nesting e ≤ depth → front.map (·.lexis) = e.lexes → (Cursor.mk rest k).head.lexis ∈ followers →
    ∃ shape, atom fuel (reader fuel depth) ⟨front ++ rest, k⟩ = .ok (shape, ⟨rest, k⟩) := by
  induction e with
  | number t value =>
    intro depth front rest k _ hfront _
    obtain ⟨s, _, rfl, hs, htail⟩ := List.map_eq_cons_iff.mp hfront
    cases List.map_eq_nil_iff.mp htail
    exact ⟨_, atom_number hs⟩
  | string t value =>
    intro depth front rest k _ hfront hnext
    obtain ⟨s, _, rfl, hs, htail⟩ := List.map_eq_cons_iff.mp hfront
    cases List.map_eq_nil_iff.mp htail
    have hstring : ∀ l ∈ followers, l ≠ .string := by decide
    exact ⟨_, atom_string hs (hstring _ hnext)⟩
  | var t =>
    intro depth front rest k _ hfront _
    obtain ⟨s, _, rfl, hs, htail⟩ := List.map_eq_cons_iff.mp hfront
    cases List.map_eq_nil_iff.mp htail
    exact ⟨_, atom_name hs⟩
  | operation form left op right ihl ihr =>
    intro depth front rest k hdepth hfront _
    obtain ⟨hl, ⟨kind, hk, hop⟩, hr⟩ := he
    obtain ⟨s, inside, rfl, hs, hinside⟩ := List.map_eq_cons_iff.mp hfront
    obtain ⟨lefts, behind, rfl, hlefts, hbehind⟩ := List.map_eq_append_iff.mp hinside
    obtain ⟨o, back, rfl, ho, hback⟩ := List.map_eq_cons_iff.mp hbehind
    obtain ⟨rights, closing, rfl, hrights, hclosing⟩ := List.map_eq_append_iff.mp hback
    obtain ⟨z, _, rfl, hz, hnil⟩ := List.map_eq_cons_iff.mp hclosing
    cases List.map_eq_nil_iff.mp hnil
    rw [nesting] at hdepth
    obtain ⟨depth, rfl⟩ := Nat.exists_eq_add_one_of_ne_zero (Nat.ne_zero_of_lt hdepth)
    -- the symbols from the left operand, from the right one and from the closing parenthesis on
    let tail : List Symbol := z :: rest
    let middle : List Symbol := o :: (rights ++ tail)
    have hend : (Cursor.mk tail k).head.lexis ∈ closers := by
      rw [show (Cursor.mk tail k).head.lexis = mark ")" from hz]
      decide
    have hoperator : (Cursor.mk middle k).head.lexis = form.lexis op := ho
    have hlstarts := starts_symbols hl hlefts middle k
    have hrstarts := starts_symbols hr hrights tail k
    have hmiddle : (Cursor.mk middle k).head.lexis ∈ followers := hoperator ▸ lexis_mem_followers hk hop
    have hldepth : nesting left ≤ depth := by omega
    have hrdepth : nesting right ≤ depth := by omega
    obtain ⟨a, ha⟩ := ihl hl hldepth hlefts hmiddle
    obtain ⟨b, hb⟩ := ihr hr hrdepth hrights (closer_mem_followers hend)
    have hleft := operand_of_atom hlstarts ha (trailers_follower hmiddle)
    have hright := operand_of_atom hrstarts hb (trailers_follower (closer_mem_followers hend))
    obtain ⟨shape, hshape⟩ := disjunction_two fuel (hlstarts.ne (by simp) (by decide)) hleft
      (hoperator ▸ layered_operator hk hop) (hrstarts.ne (by simp) (by decide)) hright hend
    have htest := test_of_disjunction hlstarts hshape hend
    have hsplit : s :: (lefts ++ o :: (rights ++ [z])) ++ rest = s :: (lefts ++ middle) := by simp [middle, tail]
    rw [hsplit]
    exact ⟨shape, atom_parentheses (c := ⟨s :: (lefts ++ middle), k⟩) hs hlstarts htest hz⟩
  | hole => exact he.elim

theorem test_of_operand {fuel depth : Nat} {c d : Cursor} {a : Shape} (hc : StartsOperand c.head.lexis)
    (h : (reader fuel (depth + 1)).operand c = .ok (a, d)) (hd : d.head.lexis ∈ closers) :
    (reader fuel (depth + 1)).test c = .ok (a, d) :=
  test_of_disjunction hc (disjunction_one (hc.ne (by simp) (by decide)) h hd) hd

/-- A whole expression in front of a symbol that closes it. -/
theorem test_accepts (fuel : Nat) {e : Expr} (he : e.Sourced) {depth : Nat} (hdepth : nesting e < depth)
    {front rest : List Symbol} {k : Option Text} (hfront : front.map (·.lexis) = e.lexes)
    (hrest : (Cursor.mk rest k).head.lexis ∈ closers) :
    ∃ shape, (reader fuel depth).test ⟨front ++ rest, k⟩ = .ok (shape, ⟨rest, k⟩) := by
  obtain ⟨depth, rfl⟩ := Nat.exists_eq_add_one_of_ne_zero (Nat.ne_zero_of_lt hdepth)
  have hstarts := starts_symbols he hfront rest k
  have hfollows := closer_mem_followers hrest
  obtain ⟨shape, hatom⟩ := atom_accepts fuel he (Nat.le_of_lt_succ hdepth) hfront hfollows
  exact ⟨shape, test_of_operand hstarts (operand_of_atom hstarts hatom (trailers_follower hfollows)) hrest⟩

section Names

variable {fuel depth : Nat} {s : Symbol} {t : Text} (hs : s.lexis = .name t) {rest : List Symbol} {k : Option Text}
  (hrest : (Cursor.mk rest k).head.lexis ∈ closers)

include hs hrest

/-- A name in front of a symbol that closes it can be assigned to. -/
theorem test_name (hdepth : 0 < depth) : (reader fuel depth).test ⟨s :: rest, k⟩ = .ok (.target, ⟨rest, k⟩) := by
  obtain ⟨depth, rfl⟩ := Nat.exists_eq_add_one_of_ne_zero (Nat.ne_of_gt hdepth)
  have hstarts : StartsOperand (Cursor.mk (s :: rest) k).head.lexis := Or.inl ⟨t, hs⟩
  have hoperand : (reader fuel (depth + 1)).operand ⟨s :: rest, k⟩ = .ok (.target, ⟨rest, k⟩) :=
    operand_of_atom hstarts (atom_name hs) (trailers_follower (closer_mem_followers hrest))
  exact test_of_operand hstarts hoperand hrest

/-- A name with one argument in parentheses. -/
theorem test_call (hfuel : 0 < fuel) {o z : Symbol} (ho : o.lexis = mark "(") (hz : z.lexis = mark ")") {e : Expr}
    (he : e.Sourced) (hdepth : nesting e + 1 < depth) {front : List Symbol} (hfront : front.map (·.lexis) = e.lexes) :
    (reader fuel depth).test ⟨s :: o :: (front ++ z :: rest), k⟩ = .ok (.call, ⟨rest, k⟩) := by
  obtain ⟨depth, rfl⟩ := Nat.exists_eq_add_one_of_ne_zero (Nat.ne_zero_of_lt hdepth)
  have hstarts : StartsOperand (Cursor.mk (s :: o :: (front ++ z :: rest)) k).head.lexis := Or.inl ⟨t, hs⟩
  have hinner := starts_symbols he hfront (z :: rest) k
  have hclose : (Cursor.mk (z :: rest) k).head.lexis = mark ")" := hz
  obtain ⟨shape, htest⟩ := test_accepts fuel he (Nat.lt_of_succ_lt_succ hdepth) hfront (by rw [hclose]; decide)
  have hargument : argument fuel (reader fuel depth) ⟨front ++ z :: rest, k⟩ = .ok ((), ⟨z :: rest, k⟩) := by
    rw [argument, accept_other (hinner.ne (by simp) (by decide)), accept_other (hinner.ne (by simp) (by decide)),
      bind_of_ok htest, accept_other (by rw [hclose]; decide),
      bind_of_ok (show peek _ = .ok (mark ")", Cursor.mk (z :: rest) k) by rw [← hclose]; rfl), if_neg (by decide)]
    rfl
  have harguments : arguments fuel (reader fuel depth) ⟨front ++ z :: rest, k⟩ = .ok ((), ⟨rest, k⟩) := by
    rw [arguments, accept_other (hinner.ne (by simp) (by decide)), bind_of_ok hargument]
    have hgo : (do
        if ← accept (mark ",") then
          if (← peek) = mark ")" then return false
          else
            argument fuel (reader fuel depth)
            return true
        else return false : Reader Bool) ⟨z :: rest, k⟩ = .ok (false, ⟨z :: rest, k⟩) := by
      rw [accept_other (by rw [hclose]; decide)]
      rfl
    rw [bind_of_ok (loop_stops hgo fuel), expect_same hclose]
    rfl
  have htrailers := trailers_call (c := ⟨o :: (front ++ z :: rest), k⟩) (a := .target) hfuel ho harguments
    fun _ => trailers_follower (closer_mem_followers hrest)
  exact test_of_operand hstarts ((operandWith_atom hstarts (atom_name hs)).trans htrailers) hrest

end Names

end Expression

namespace Statement

open Expression

section Lines

variable {fuel : Nat} (hfuel : 0 < fuel) {e : Inner} {c d : Cursor} {a : Shape}

theorem small_expression (h : ∀ t, c.head.lexis ≠ .keyword t) : small fuel e c = expressionStatement fuel e c := by
  unfold small
  rw [accept_other (h _), accept_other (h _), accept_other (h _), accept_other (h _), accept_other (h _),
    accept_other (h _), accept_other (h _), accept_other (h _), accept_other (h _), accept_other (h _),
    accept_other (h _), accept_other (h _)]

theorem small_pass (h : c.head.lexis = word "pass") :
    small fuel e c = .ok ((), { c with symbols := c.symbols.tail }) := by
  unfold small
  rw [accept_other (by rw [h]; decide), accept_same h]
  rfl

theorem moreSides_none (hd : d.head.lexis = .newline) (n : Nat) : moreSides fuel e n d = .ok ([], d) := by
  cases n with
  | zero => rfl
  | succ n =>
    rw [moreSides, accept_other (by rw [hd]; decide)]
    rfl

include hfuel

theorem starList_one (hc : StartsOperand c.head.lexis) (htest : e.test c = .ok (a, d)) (hd : d.head.lexis ∈ closers) :
    starList fuel e c = .ok (a, d) := by
  obtain ⟨m, rfl⟩ := Nat.exists_eq_add_one_of_ne_zero (Nat.ne_of_gt hfuel)
  have hcomma : ∀ l ∈ closers, l ≠ mark "," := by decide
  have hitem : item (m + 1) e c = .ok (a, d) := by
    rw [item, accept_other (hc.ne (by simp) (by decide)), htest]
  have hitems : items (item (m + 1) e) startsItem (m + 1) c = .ok (([a], false), d) := by
    rw [items, bind_of_ok hitem, accept_other (hcomma _ hd)]
    rfl
  rw [starList, bind_of_ok hitems]
  rfl

theorem expressionStatement_one (hc : StartsOperand c.head.lexis) (htest : e.test c = .ok (a, d))
    (hd : d.head.lexis = .newline) : expressionStatement fuel e c = .ok ((), d) := by
  have hlist := starList_one hfuel hc htest (by rw [hd]; decide)
  rw [expressionStatement, bind_of_ok hlist, bind_of_ok (acceptIf_false (by rw [hd]; rfl))]
  simp only [Bool.false_eq_true, ↓reduceIte]
  rw [bind_of_ok (moreSides_none hd fuel)]
  rfl

theorem expressionStatement_assign {d₁ : Cursor} (hc : StartsOperand c.head.lexis) (htest : e.test c = .ok (.target, d))
    (hd : d.head.lexis = mark "=") (hright : StartsOperand ({ d with symbols := d.symbols.tail } : Cursor).head.lexis)
    (hvalue : e.test { d with symbols := d.symbols.tail } = .ok (a, d₁)) (hd₁ : d₁.head.lexis = .newline) :
    expressionStatement fuel e c = .ok ((), d₁) := by
  have hleft := starList_one hfuel hc htest (by rw [hd]; decide)
  have hlist := starList_one hfuel hright hvalue (by rw [hd₁]; decide)
  have hside : rightSide fuel e { d with symbols := d.symbols.tail } = .ok (a, d₁) := by
    rw [rightSide, accept_other (hright.ne (by simp) (by decide)), hlist]
  have hsides : ∀ n, 0 < n → moreSides fuel e n d = .ok ([a], d₁) := by
    intro n hn
    obtain ⟨m, rfl⟩ := Nat.exists_eq_add_one_of_ne_zero (Nat.ne_of_gt hn)
    rw [moreSides, accept_same hd, bind_of_ok hside, bind_of_ok (moreSides_none hd₁ m)]
    rfl
  rw [expressionStatement, bind_of_ok hleft, bind_of_ok (acceptIf_false (by rw [hd]; rfl))]
  simp only [Bool.false_eq_true, ↓reduceIte]
  rw [bind_of_ok (hsides fuel hfuel)]
  rfl

/-- A line with one statement on it. -/
theorem line_one (hsmall : small fuel e c = .ok ((), d)) (hd : d.head.lexis = .newline) :
    line fuel e fuel c = .ok (1, { d with symbols := d.symbols.tail }) := by
  have hline : ∀ n, 0 < n → line fuel e n c = .ok (1, { d with symbols := d.symbols.tail }) := by
    intro n hn
    obtain ⟨m, rfl⟩ := Nat.exists_eq_add_one_of_ne_zero (Nat.ne_of_gt hn)
    rw [line, bind_of_ok hsmall, accept_other (by rw [hd]; decide), bind_of_ok (expect_same hd)]
    rfl
  exact hline fuel hfuel

omit hfuel

section Whole

variable {s z : Symbol} {values rest : List Symbol} {value : Expr} {t : Text} {k : Option Text}
  (hvalue : value.Sourced) (hs : s.lexis = .name t) (hz : z.lexis = .newline)
  (hvalues : values.map (·.lexis) = value.lexes)

include hvalue hs hz hvalues

theorem line_assign {equals : Symbol} (hequals : equals.lexis = mark "=") (hnesting : nesting value < fuel) :
    line fuel (Expression.reader fuel fuel) fuel ⟨s :: equals :: (values ++ z :: rest), k⟩ = .ok (1, ⟨rest, k⟩) := by
  have hfuel := Nat.zero_lt_of_lt hnesting
  have hstarts : StartsOperand (Cursor.mk (s :: equals :: (values ++ z :: rest)) k).head.lexis := Or.inl ⟨t, hs⟩
  have hsign : (Cursor.mk (equals :: (values ++ z :: rest)) k).head.lexis = mark "=" := hequals
  have hend : (Cursor.mk (z :: rest) k).head.lexis = .newline := hz
  obtain ⟨shape, htest⟩ := test_accepts fuel hvalue hnesting hvalues (by rw [hend]; decide)
  have hname : (Expression.reader fuel fuel).test ⟨s :: equals :: (values ++ z :: rest), k⟩ =
      .ok (.target, ⟨equals :: (values ++ z :: rest), k⟩) := test_name hs (by rw [hsign]; decide) hfuel
  have hstatement := expressionStatement_assign hfuel hstarts hname hsign (starts_symbols hvalue hvalues _ k) htest hend
  rw [← small_expression fun _ => hstarts.ne (by simp) (by simp)] at hstatement
  exact line_one hfuel hstatement hend

theorem line_print {o y : Symbol} (ho : o.lexis = mark "(") (hy : y.lexis = mark ")")
    (hnesting : nesting value + 1 < fuel) :
    line fuel (Expression.reader fuel fuel) fuel ⟨s :: o :: (values ++ y :: z :: rest), k⟩ = .ok (1, ⟨rest, k⟩) := by
  have hfuel := Nat.zero_lt_of_lt hnesting
  have hstarts : StartsOperand (Cursor.mk (s :: o :: (values ++ y :: z :: rest)) k).head.lexis := Or.inl ⟨t, hs⟩
  have hend : (Cursor.mk (z :: rest) k).head.lexis = .newline := hz
  have hcall := test_call hs (by rw [hend]; decide) hfuel ho hy hvalue hnesting hvalues
  have hstatement := expressionStatement_one hfuel hstarts hcall hend
  rw [← small_expression fun _ => hstarts.ne (by simp) (by simp)] at hstatement
  exact line_one hfuel hstatement hend

end Whole

theorem line_pass (hfuel : 0 < fuel) {s z : Symbol} {rest : List Symbol} {k : Option Text} (hs : s.lexis = word "pass")
    (hz : z.lexis = .newline) : line fuel e fuel ⟨s :: z :: rest, k⟩ = .ok (1, ⟨rest, k⟩) :=
  line_one hfuel (small_pass (c := ⟨s :: z :: rest, k⟩) hs) hz

end Lines

end Statement

end EnglishScript.Python
