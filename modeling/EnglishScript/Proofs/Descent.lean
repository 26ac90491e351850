import EnglishScript.Proofs.Completion

namespace EnglishScript

/-- Why a descent breaks off: a token does not fit, or a place outside the list is looked at. -/
inductive DescentFailure where
  | unfit (e : ParseError)
  | outOfRange
  deriving DecidableEq, Repr

/-- A descent over a list of tokens. It moves a cursor; one that goes on beyond its limit has no result. -/
abbrev Descent (α : Type) := ReaderT (List Token) (ExceptT DescentFailure (StateT Nat Option)) α

namespace Descent

/-- The limit is reached and the descent has not come to an end. -/
def unfinished {α : Type} : Descent α :=
  fun _ _ => none

/-- The token at the cursor. -/
def peek : Descent Token := do
  match (← read)[← get]? with
  | some t => return t
  | none => throw .outOfRange

/-- The token before the cursor. -/
def previous : Descent Token := do
  match ← get with
  | 0 => throw .outOfRange
  | i + 1 =>
    match (← read)[i]? with
    | some t => return t
    | none => throw .outOfRange

/-- Whether the cursor is at an end token. -/
def isAtEnd : Descent Bool := do
  return (← peek).kind = .eof

/-- Moves the cursor on, unless it is at an end token, and gives the token before it. -/
def advance : Descent Token := do
  if ← isAtEnd then previous
  else
    set ((← get) + 1)
    previous

/-- Whether the token at the cursor is of one of the kinds. -/
def sees (kinds : List Kind) : Descent Bool := do
  if ← isAtEnd then return false
  else return (← peek).kind ∈ kinds

/-- Goes over a token that has to be of the kind. -/
def consume (kind : Kind) : Descent Token := do
  if ← sees [kind] then advance
  else throw (.unfit (.unexpected (.kind kind) (← peek)))

open Grammar (Rank)

/-- The number that a token spells. -/
def numeral (t : Token) : Descent Expr :=
  match readFloat t.lexeme with
  | .ok value => return .number t value
  | .error cause => throw (.unfit (.invalidNumber t cause))

mutual

/-- An expression of a rank. -/
def expression : Nat → Rank → Descent Expr
  | 0, _ => unfinished
  | limit + 1, rank => do
    if rank = .primary then primary limit
    else
      let left ← expression limit rank.operand
      operations limit rank left

/-- The operators of a rank with their right operands, behind a left operand. -/
def operations : Nat → Rank → Expr → Descent Expr
  | 0, _, _ => unfinished
  | limit + 1, rank, left => do
    if ← sees rank.operators then
      let op ← advance
      let right ← expression limit rank.operand
      operations limit rank (.operation rank.form left op right)
    else return left

/-- A number, a string, a name, or an expression in parentheses. -/
def primary : Nat → Descent Expr
  | 0 => unfinished
  | limit + 1 => do
    let t ← peek
    match t.kind with
    | .number =>
      let _ ← advance
      numeral t
    | .string =>
      let _ ← advance
      return .string t t.lexeme
    | .identifier =>
      let _ ← advance
      return .var t
    | .lparen =>
      let _ ← advance
      let e ← expression limit .logical
      let _ ← consume .rparen
      return e
    | _ => throw (.unfit (.unexpected .expression t))

end

/-- A declaration of a variable. -/
def create (limit : Nat) : Descent Stmt := do
  let _ ← consume .create
  let _ ← consume .variable
  let name ← consume .identifier
  let _ ← consume .with
  let _ ← consume .value
  return .create name (← expression limit .logical)

/-- An assignment. -/
def assign (limit : Nat) : Descent Stmt := do
  let _ ← consume .set
  let name ← consume .identifier
  let _ ← consume .to
  return .assign name (← expression limit .logical)

/-- A statement that prints. -/
def print (limit : Nat) : Descent Stmt := do
  let keyword ← consume .print
  return .print keyword (← expression limit .logical)

mutual

/-- A statement. -/
def statement : Nat → Descent Stmt
  | 0 => unfinished
  | limit + 1 => do
    let t ← peek
    match t.kind with
    | .create => create limit
    | .set => assign limit
    | .print => print limit
    | .if => branch limit
    | .while => loop limit
    | _ => throw (.unfit (.unexpected .statement t))

/-- A branch, with an `else` or without one. -/
def branch : Nat → Descent Stmt
  | 0 => unfinished
  | limit + 1 => do
    let keyword ← consume .if
    let cond ← expression limit .logical
    let _ ← consume .then
    let yes ← block limit [.end, .else]
    let no ← otherwise limit
    let _ ← consume .end
    let _ ← consume .if
    return .branch keyword cond yes no

/-- The `else` of a branch, if it has one. -/
def otherwise : Nat → Descent (Option (List Stmt))
  | 0 => unfinished
  | limit + 1 => do
    if ← sees [.else] then
      let _ ← advance
      return some (← block limit [.end])
    else return none

/-- A loop. -/
def loop : Nat → Descent Stmt
  | 0 => unfinished
  | limit + 1 => do
    let keyword ← consume .while
    let cond ← expression limit .logical
    let _ ← consume .do
    let body ← block limit [.end]
    let _ ← consume .end
    let _ ← consume .while
    return .loop keyword cond body

/-- Statements and line ends, up to one of the terminators or an end token. -/
def block : Nat → List Kind → Descent (List Stmt)
  | 0, _ => unfinished
  | limit + 1, terminators => do
    if ← isAtEnd then return []
    else if ← sees terminators then return []
    else if ← sees [.newline] then
      let _ ← advance
      block limit terminators
    else
      let s ← statement limit
      return s :: (← block limit terminators)

end

/-- Goes over line ends. -/
def newlines : Nat → Descent Unit
  | 0 => unfinished
  | limit + 1 => do
    if ← sees [.newline] then
      let _ ← advance
      newlines limit
    else return ()

/-- A whole program. -/
def program (limit : Nat) : Descent Program :=
  block limit []

/-- An expression that has to be the whole input, apart from line ends behind it. -/
def wholeExpression (limit : Nat) : Descent Expr := do
  let e ← expression limit .logical
  newlines limit
  if ← isAtEnd then return e
  else throw (.unfit (.unexpected (.kind .eof) (← peek)))

end Descent

/-- The tokens with an end token behind them, if the last one is none. -/
def withEnd (tokens : List Token) : List Token :=
  match tokens.getLast? with
  | some last => if last.kind = .eof then tokens else tokens ++ [Token.endAt ⟨last.pos.line, 1⟩]
  | none => [Token.endAt ⟨1, 1⟩]

namespace Descent

section Runs

variable {α β : Type} {tokens : List Token} {i j : Nat}

theorem bind_of_ok {m : Descent α} {a : α} (h : m tokens i = some (.ok a, j)) (f : α → Descent β) :
    (m >>= f) tokens i = f a tokens j := by
  change (m tokens i).bind _ = _
  rw [h]
  rfl

theorem bind_of_error {m : Descent α} {e : DescentFailure} (h : m tokens i = some (.error e, j)) (f : α → Descent β) :
    (m >>= f) tokens i = some (.error e, j) := by
  change (m tokens i).bind _ = _
  rw [h]
  rfl

end Runs

/-- The tokens from a cursor on: `rest` up to the first end token, which is `final`. -/
structure Ahead (tokens : List Token) (i : Nat) (rest : List Token) (final : Token) : Prop where
  behind : ∃ more, tokens.drop i = rest ++ final :: more
  endless : Endless rest
  final : final.kind = .eof

section Moves

variable {tokens rest : List Token} {i : Nat} {t final : Token}

theorem Ahead.tail (h : Ahead tokens i (t :: rest) final) : Ahead tokens (i + 1) rest final := by
  obtain ⟨more, hmore⟩ := h.behind
  refine ⟨⟨more, ?_⟩, (endless_cons.mp h.endless).2, h.final⟩
  rw [← List.drop_drop, hmore]
  rfl

theorem Ahead.drop {front back : List Token} : ∀ {i : Nat}, Ahead tokens i (front ++ back) final →
    Ahead tokens (i + front.length) back final := by
  induction front with
  | nil => exact fun h => h
  | cons t front ih =>
    intro i h
    have htail := ih h.tail
    rwa [Nat.add_assoc, Nat.add_comm 1] at htail

theorem Ahead.getElem (h : Ahead tokens i rest final) : tokens[i]? = some (rest.headD final) := by
  obtain ⟨more, hmore⟩ := h.behind
  have hhead : (tokens.drop i)[0]? = some (rest.headD final) := by
    rw [hmore]
    cases rest <;> rfl
  rwa [List.getElem?_drop, Nat.add_zero] at hhead

theorem Ahead.headD_kind (h : Ahead tokens i rest final) : (rest.headD final).kind = .eof ↔ rest = [] := by
  cases rest with
  | nil => simp [h.final]
  | cons t rest => simp [(endless_cons.mp h.endless).1]

theorem peek_run (h : Ahead tokens i rest final) : peek tokens i = some (.ok (rest.headD final), i) := by
  have hget := h.getElem
  change (match tokens[i]? with | some t => _ | none => _ : Descent Token) tokens i = _
  rw [hget]
  rfl

theorem previous_run (hget : tokens[i]? = some t) : previous tokens (i + 1) = some (.ok t, i + 1) := by
  change (match tokens[i]? with | some t => _ | none => _ : Descent Token) tokens (i + 1) = _
  rw [hget]
  rfl

theorem isAtEnd_run (h : Ahead tokens i rest final) : isAtEnd tokens i = some (.ok rest.isEmpty, i) := by
  unfold isAtEnd
  rw [bind_of_ok (peek_run h)]
  have hempty : decide ((rest.headD final).kind = .eof) = rest.isEmpty := by
    rw [Bool.eq_iff_iff, decide_eq_true_iff, h.headD_kind, List.isEmpty_iff]
  rw [hempty]
  rfl

theorem advance_run (h : Ahead tokens i (t :: rest) final) : advance tokens i = some (.ok t, i + 1) := by
  unfold advance
  rw [bind_of_ok (isAtEnd_run h)]
  exact previous_run h.getElem

theorem sees_run {kinds : List Kind} (h : Ahead tokens i rest final) (hkinds : .eof ∉ kinds) :
    sees kinds tokens i = some (.ok (decide ((rest.headD final).kind ∈ kinds)), i) := by
  unfold sees
  rw [bind_of_ok (isAtEnd_run h)]
  cases rest with
  | nil => simp only [List.headD_nil, h.final, hkinds]; rfl
  | cons t rest =>
    change (peek >>= _) tokens i = _
    rw [bind_of_ok (peek_run h)]
    rfl

theorem consume_fits {kind : Kind} (h : Ahead tokens i (t :: rest) final) (ht : t.kind = kind) :
    consume kind tokens i = some (.ok t, i + 1) := by
  have heof : .eof ∉ [kind] := by
    have := (endless_cons.mp h.endless).1
    simpa [← ht] using this.symm
  unfold consume
  rw [bind_of_ok (sees_run h heof)]
  simp only [List.headD_cons, ht, List.mem_singleton, decide_true, ↓reduceIte]
  exact advance_run h

theorem consume_refuses {kind : Kind} (h : Ahead tokens i rest final) (hkind : kind ≠ .eof)
    (ht : (rest.headD final).kind ≠ kind) :
    consume kind tokens i = some (.error (.unfit (.unexpected (.kind kind) (rest.headD final))), i) := by
  unfold consume
  rw [bind_of_ok (sees_run h (by simpa using hkind.symm))]
  simp only [List.mem_singleton, ht, decide_false, Bool.false_eq_true, ↓reduceIte]
  rw [bind_of_ok (peek_run h)]
  rfl

end Moves

end Descent

/-- The token is no operator that binds as tightly as the depth or more. -/
def Token.Loose (t : Token) (depth : Nat) : Prop :=
  ∀ level, Level.ofKind? t.kind = some level → level.rank < depth

theorem Token.loose_four (t : Token) : t.Loose 4 := by
  intro level _
  cases level <;> decide

theorem Token.Loose.ofKind {t : Token} (h : t.Loose 0) : Level.ofKind? t.kind = none := by
  cases hlevel : Level.ofKind? t.kind with
  | none => rfl
  | some level => exact absurd (h level hlevel) (Nat.not_lt_zero _)

theorem Token.Loose.lower {t : Token} {rank : Grammar.Rank} (h : t.Loose (rank.depth + 1))
    (ht : t.kind ∉ rank.operators) : t.Loose rank.depth := by
  intro level hlevel
  have hlt := h level hlevel
  have hne : level.rank ≠ rank.depth := by
    intro heq
    have hrank : Grammar.Rank.ofLevel level = rank := Grammar.Rank.depth_injective (by simpa using heq)
    exact ht (Grammar.Rank.mem_operators_iff.mpr ⟨level, hlevel, hrank⟩)
  omega

/-- Reading the tokens breaks off at one that belongs to the expression and does not fit. -/
def Draft.FailsOn (d : Draft) (ts : List Token) (e : ParseError) : Prop :=
  ∃ front t back d', ts = front ++ t :: back ∧ front.foldlM Draft.step d = .ok d' ∧ d'.finished? t = none ∧
    d'.step t = .error e

theorem Draft.FailsOn.after {d d' : Draft} {us ts : List Token} {e : ParseError} (hus : us.foldlM Draft.step d = .ok d')
    (h : d'.FailsOn ts e) : d.FailsOn (us ++ ts) e := by
  obtain ⟨front, t, back, last, rfl, hfront, hfinished, hstep⟩ := h
  exact ⟨us ++ front, t, back, last, by simp, by rw [foldlM_append_ok hus, hfront], hfinished, hstep⟩

theorem Draft.FailsOn.cons {d d' : Draft} {t : Token} {ts : List Token} {e : ParseError} (ht : d.step t = .ok d')
    (h : d'.FailsOn ts e) : d.FailsOn (t :: ts) e := by
  obtain ⟨front, u, back, last, rfl, hfront, hfinished, hstep⟩ := h
  exact ⟨t :: front, u, back, last, rfl, by rw [foldlM_cons_ok ht, hfront], hfinished, hstep⟩

namespace Descent

open Grammar (Rank Expression)

/-- What a descent comes to that is due to read an expression. -/
inductive ExpressionOutcome (rank : Rank) (i : Nat) (rest : List Token) (final : Token) :
    Option (Except DescentFailure Expr × Nat) → Prop
  | reads (front back : List Token) {e : Expr} {j : Nat} (split : rest = front ++ back)
      (derived : Expression rank front e) (loose : (back.headD final).Loose rank.depth) (reach : j = i + front.length) :
      ExpressionOutcome rank i rest final (some (.ok e, j))
  | fails {e : ParseError} {j : Nat} (reach : j ≤ i + rest.length)
      (fails : ∀ pending outer, (∀ p ∈ pending.head?, p.level.rank < rank.depth) →
        Draft.FailsOn (.wantsOperand pending outer) (rest ++ [final]) e) :
      ExpressionOutcome rank i rest final (some (.error (.unfit e), j))

/-- What a descent comes to that is due to read operators of a rank behind the left operand of the tokens `before`. -/
inductive OperationsOutcome (rank : Rank) (before : List Token) (left : Expr) (i : Nat) (rest : List Token)
    (final : Token) : Option (Except DescentFailure Expr × Nat) → Prop
  | reads (front back : List Token) {e : Expr} {j : Nat} (split : rest = front ++ back)
      (derived : Expression rank (before ++ front) e) (loose : (back.headD final).Loose rank.depth)
      (reach : j = i + front.length) : OperationsOutcome rank before left i rest final (some (.ok e, j))
  | fails {e : ParseError} {j : Nat} (reach : j ≤ i + rest.length)
      (fails : ∀ x inner pending outer, Pending.closeAll inner x = left → (∀ p ∈ inner, rank.depth ≤ p.level.rank) →
        (∀ p ∈ pending.head?, p.level.rank < rank.depth) →
        Draft.FailsOn (.hasOperand x (inner ++ pending) outer) (rest ++ [final]) e) :
      OperationsOutcome rank before left i rest final (some (.error (.unfit e), j))

/-- An expression is read as it should be. Each token ahead allows for the calls of all the ranks and of a primary. -/
def Reads (rank : Rank) (tokens : List Token) (i : Nat) (rest : List Token) (final : Token) : Prop :=
  ∀ limit, 6 * rest.length + 6 ≤ limit + rank.depth →
    ExpressionOutcome rank i rest final (expression limit rank tokens i)

/-- Every expression in front of fewer than `n` tokens is read as it should be. -/
def ReadsBelow (n : Nat) : Prop :=
  ∀ {tokens rest : List Token} {i : Nat} {final : Token} (rank : Rank), Ahead tokens i rest final → rest.length < n →
    Reads rank tokens i rest final

theorem headD_cons (rest : List Token) (final : Token) : ∃ back, rest ++ [final] = rest.headD final :: back := by
  cases rest <;> exact ⟨_, rfl⟩

/-- A draft that breaks off at the next token. -/
theorem fails_next {d : Draft} {rest : List Token} {final : Token} {e : ParseError}
    (hfinished : d.finished? (rest.headD final) = none) (h : d.step (rest.headD final) = .error e) :
    d.FailsOn (rest ++ [final]) e := by
  obtain ⟨back, hback⟩ := headD_cons rest final
  exact ⟨[], _, back, d, hback, rfl, hfinished, h⟩

section Levels

variable {n limit : Nat} (ih : ReadsBelow n) {tokens rest : List Token} {i : Nat} {final : Token}

theorem numeral_outcome {t : Token} (ht : t.kind = .number) :
    ExpressionOutcome .primary i (t :: rest) final (numeral t tokens (i + 1)) := by
  cases hread : readFloat t.lexeme with
  | ok value =>
    have hrun : numeral t tokens (i + 1) = some (.ok (.number t value), i + 1) := by
      simp only [numeral, hread]
      rfl
    rw [hrun]
    exact .reads [t] rest rfl (.number ht hread) (Token.loose_four _) rfl
  | error cause =>
    have hrun : numeral t tokens (i + 1) = some (.error (.unfit (.invalidNumber t cause)), i + 1) := by
      simp only [numeral, hread]
      rfl
    rw [hrun]
    refine .fails (by simp only [List.length_cons]; omega) fun pending outer _ => fails_next rfl ?_
    simp [Draft.step, Draft.readOperand, ht, hread]

include ih

theorem parentheses_outcome {t : Token} (h : Ahead tokens i (t :: rest) final) (ht : t.kind = .lparen)
    (hn : rest.length < n) (hlimit : 6 * rest.length + 6 ≤ limit) :
    ExpressionOutcome .primary i (t :: rest) final
      ((do let e ← expression limit .logical; let _ ← consume .rparen; return e : Descent Expr) tokens (i + 1)) := by
  have hopen (pending : List Pending) (outer : List (List Pending)) :
      Draft.step (.wantsOperand pending outer) t = .ok (.wantsOperand [] (pending :: outer)) := by
    simp [Draft.step, Draft.readOperand, ht]
  generalize hrun : expression limit .logical tokens (i + 1) = outcome
  have hinner := ih .logical h.tail hn limit hlimit
  rw [hrun] at hinner
  cases hinner with
  | fails reach fails =>
    rw [bind_of_error hrun]
    refine .fails (by simp only [List.length_cons]; omega) fun pending outer _ => ?_
    exact (fails [] (pending :: outer) (by simp)).cons (hopen pending outer)
  | @reads front back e j split derived loose reach =>
    subst split reach
    rw [bind_of_ok hrun]
    have hback : Ahead tokens (i + 1 + front.length) back final := h.tail.drop
    by_cases hclose : (back.headD final).kind = .rparen
    · cases back with
      | nil =>
        rw [List.headD_nil, hback.final] at hclose
        cases hclose
      | cons r back =>
        rw [bind_of_ok (consume_fits hback hclose)]
        refine .reads (t :: (front ++ [r])) back (by simp) (.group ht derived hclose) (Token.loose_four _) ?_
        simp only [List.length_cons, List.length_append, List.length_nil]
        omega
    · rw [bind_of_error (consume_refuses hback (by decide) hclose)]
      refine .fails (by simp only [List.length_cons, List.length_append]; omega) fun pending outer _ => ?_
      obtain ⟨x, inner, hread, _, _⟩ := derived.read [] (pending :: outer) (by simp)
      have hstop : Draft.FailsOn (.hasOperand x (inner ++ []) (pending :: outer)) (back ++ [final])
          (.unexpected (.kind .rparen) (back.headD final)) := by
        refine fails_next rfl ?_
        simp only [Draft.step, Draft.readOperator, loose.ofKind, hclose, ↓reduceIte]
      have hfails := (hstop.after hread).cons (hopen pending outer)
      rwa [← List.append_assoc] at hfails

theorem primary_outcome (h : Ahead tokens i rest final) (hn : rest.length ≤ n) (hlimit : 6 * rest.length ≤ limit) :
    ExpressionOutcome .primary i rest final (primary (limit + 1) tokens i) := by
  rw [primary, bind_of_ok (peek_run h)]
  cases rest with
  | nil =>
    have hkind : (List.headD [] final).kind = .eof := h.final
    rw [hkind]
    refine .fails (by omega) fun pending outer _ => fails_next rfl ?_
    simp [Draft.step, Draft.readOperand, h.final]
  | cons t rest =>
    rw [List.headD_cons]
    cases ht : t.kind with
    | number =>
      dsimp only
      rw [bind_of_ok (advance_run h)]
      exact numeral_outcome ht
    | string =>
      dsimp only
      rw [bind_of_ok (advance_run h)]
      exact .reads [t] rest rfl (.string ht) (Token.loose_four _) rfl
    | identifier =>
      dsimp only
      rw [bind_of_ok (advance_run h)]
      exact .reads [t] rest rfl (.var ht) (Token.loose_four _) rfl
    | lparen =>
      dsimp only
      rw [bind_of_ok (advance_run h)]
      exact parentheses_outcome ih h ht hn hlimit
    | _ =>
      refine .fails (by omega) fun pending outer _ => fails_next rfl ?_
      simp only [List.headD_cons, Draft.step, Draft.readOperand, ht]

omit ih in
/-- An operator whose right operand breaks off. -/
theorem OperationsOutcome.of_fails {rank : Rank} {before : List Token} {left : Expr} {op : Token} {e : ParseError}
    {j : Nat} (hrank : rank.depth < 4) (hop : op.kind ∈ rank.operators) (reach : j ≤ i + 1 + rest.length)
    (fails : ∀ pending outer, (∀ p ∈ pending.head?, p.level.rank < rank.operand.depth) →
      Draft.FailsOn (.wantsOperand pending outer) (rest ++ [final]) e) :
    OperationsOutcome rank before left i (op :: rest) final (some (.error (.unfit e), j)) := by
  refine .fails (by simp only [List.length_cons]; omega) fun x inner pending outer hclose hinner hpending => ?_
  obtain ⟨level, hlevel, rfl⟩ := Rank.mem_operators_iff.mp hop
  have hdepth := Rank.depth_operand _ hrank
  rw [Rank.depth_ofLevel] at hdepth
  have hstep := Draft.step_operator hlevel hclose (by simpa using hinner) (by simpa using hpending) outer
  have hnext := fails (⟨left, op, level⟩ :: pending) outer (by simp [hdepth])
  exact hnext.cons hstep

omit ih in
/-- The operators behind an operator and its right operand, seen from the operator. -/
theorem OperationsOutcome.behind {rank : Rank} {before front back : List Token} {left right : Expr} {op : Token}
    {r : Option (Except DescentFailure Expr × Nat)} (hop : op.kind ∈ rank.operators)
    (hright : Expression rank.operand front right)
    (h : OperationsOutcome rank (before ++ op :: front) (.operation rank.form left op right) (i + 1 + front.length) back
      final r) :
    OperationsOutcome rank before left i (op :: (front ++ back)) final r := by
  cases h with
  | @reads middle back e j split derived loose reach =>
    refine .reads (op :: front ++ middle) back (by simp [split]) (by simpa using derived) loose ?_
    simp only [reach, List.cons_append, List.length_cons, List.length_append]
    omega
  | fails reach fails =>
    refine .fails (by simp only [List.length_cons, List.length_append]; omega) ?_
    intro x inner pending outer hclose hinner hpending
    obtain ⟨y, own, hread, hown, hranks⟩ := hright.read.behind hop hclose hinner hpending outer
    have hfails := (fails y own pending outer hown hranks hpending).after hread
    simpa using hfails

/-- The operators of a rank behind a left operand, after which no tighter operator stands. -/
theorem operations_outcome {rank : Rank} (hrank : rank.depth < 4) :
    ∀ {rest before : List Token} {i limit : Nat} {left : Expr}, Ahead tokens i rest final → rest.length ≤ n →
    6 * rest.length < limit → Expression rank before left → (rest.headD final).Loose (rank.depth + 1) →
    OperationsOutcome rank before left i rest final (operations limit rank left tokens i) := by
  have heof : .eof ∉ rank.operators := by cases rank <;> decide
  intro rest
  -- every operator is followed by an operand, so the rest behind it is shorter
  induction hlength : rest.length using Nat.strongRecOn generalizing rest with
  | ind m recurse =>
    subst hlength
    intro before i limit left h hn hlimit hleft hloose
    obtain ⟨limit, rfl⟩ := Nat.exists_eq_succ_of_ne_zero (Nat.ne_zero_of_lt hlimit)
    rw [operations, bind_of_ok (sees_run h heof)]
    by_cases hop : (rest.headD final).kind ∈ rank.operators
    · cases rest with
      | nil =>
        rw [List.headD_nil, h.final] at hop
        exact absurd hop heof
      | cons op rest =>
        rw [List.headD_cons] at hop
        simp only [List.headD_cons, hop, decide_true, ↓reduceIte]
        rw [bind_of_ok (advance_run h)]
        rw [List.length_cons] at hn hlimit
        generalize hrun : expression limit rank.operand tokens (i + 1) = outcome
        have hright := ih rank.operand h.tail (by omega) limit (by omega)
        rw [hrun] at hright
        cases hright with
        | fails reach fails =>
          rw [bind_of_error hrun]
          exact .of_fails hrank hop reach fails
        | @reads front back right j split derived loose reach =>
          subst split reach
          rw [bind_of_ok hrun]
          have hback : Ahead tokens (i + 1 + front.length) back final := h.tail.drop
          have hshorter : back.length < (op :: (front ++ back)).length := by
            simp only [List.length_cons, List.length_append]
            omega
          rw [List.length_append] at hn hlimit
          have henough : 6 * back.length < limit := by omega
          refine .behind hop derived ?_
          exact recurse back.length hshorter rfl hback (by omega) henough (.operation hleft hop derived)
            (rank.depth_operand hrank ▸ loose)
    · simp only [hop, decide_false, Bool.false_eq_true, ↓reduceIte]
      exact .reads [] rest rfl (by simpa using hleft) (hloose.lower hop) rfl

omit ih in
/-- The operators behind the first operand of a rank, seen from the operand. -/
theorem OperationsOutcome.expression {rank : Rank} {front back : List Token} {left : Expr}
    {r : Option (Except DescentFailure Expr × Nat)} (hrank : rank.depth < 4) (hleft : Expression rank.operand front left)
    (h : OperationsOutcome rank front left (i + front.length) back final r) :
    ExpressionOutcome rank i (front ++ back) final r := by
  have hdepth := rank.depth_operand hrank
  cases h with
  | @reads middle back e j split derived loose reach =>
    refine .reads (front ++ middle) back (by simp [split]) derived loose ?_
    rw [reach, List.length_append, Nat.add_assoc]
  | fails reach fails =>
    refine .fails (by rw [List.length_append]; omega) fun pending outer hpending => ?_
    obtain ⟨x, inner, hread, hclose, hinner⟩ := hleft.read pending outer fun p hp => by
      have := hpending p hp
      omega
    have hranks : ∀ p ∈ inner, rank.depth ≤ p.level.rank := by
      intro p hp
      have := hinner p hp
      omega
    have hfails := (fails x inner pending outer hclose hranks hpending).after hread
    simpa using hfails

/-- What the operands of a rank are read as, the rank is read as. -/
theorem reads_of_operand (rank : Rank) (hrank : rank.depth < 4) (h : Ahead tokens i rest final) (hn : rest.length ≤ n)
    (hoperand : Reads rank.operand tokens i rest final) : Reads rank tokens i rest final := by
  have hprimary : rank ≠ .primary := by
    rintro rfl
    exact absurd hrank (by decide)
  have hdepth := rank.depth_operand hrank
  intro limit hlimit
  obtain ⟨limit, rfl⟩ := Nat.exists_eq_succ_of_ne_zero (show limit ≠ 0 by omega)
  rw [expression, if_neg hprimary]
  have hleft := hoperand limit (by omega)
  generalize hrun : expression limit rank.operand tokens i = outcome at hleft
  cases hleft with
  | fails reach fails =>
    rw [bind_of_error hrun]
    exact .fails reach fun pending outer hpending => fails pending outer fun p hp => by
      have := hpending p hp
      omega
  | @reads front back left j split derived loose reach =>
    subst split reach
    rw [bind_of_ok hrun]
    rw [hdepth] at loose
    rw [List.length_append] at hn hlimit
    have henough : 6 * back.length < limit := by omega
    refine OperationsOutcome.expression hrank derived ?_
    exact operations_outcome ih hrank h.drop (by omega) henough (.operand derived) loose

end Levels

/-- An expression is read wherever it is due, to its end or to the token that breaks it off. -/
theorem readsBelow (n : Nat) : ReadsBelow n := by
  induction n with
  | zero =>
    intro _ _ _ _ _ _ h
    exact absurd h (Nat.not_lt_zero _)
  | succ n ih =>
    intro tokens rest i final rank h hn
    have hle : rest.length ≤ n := by omega
    have primary : Reads .primary tokens i rest final := by
      intro limit hlimit
      obtain ⟨limit, rfl⟩ := Nat.exists_eq_add_of_le' (show 2 ≤ limit by simp only [Rank.depth] at hlimit; omega)
      rw [expression, if_pos rfl]
      exact primary_outcome ih h hle (by simp only [Rank.depth] at hlimit; omega)
    have multiplication := reads_of_operand ih .multiplication (by decide) h hle primary
    have addition := reads_of_operand ih .addition (by decide) h hle multiplication
    have comparison := reads_of_operand ih .comparison (by decide) h hle addition
    have logical := reads_of_operand ih .logical (by decide) h hle comparison
    cases rank <;> assumption

theorem expression_outcome {tokens rest : List Token} {i limit : Nat} {final : Token} (h : Ahead tokens i rest final)
    (hlimit : 6 * rest.length + 6 ≤ limit) :
    ExpressionOutcome .logical i rest final (expression limit .logical tokens i) :=
  readsBelow (rest.length + 1) .logical h (Nat.lt_succ_self _) limit hlimit

end Descent
end EnglishScript
