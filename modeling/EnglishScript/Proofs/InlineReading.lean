import EnglishScript.Python.Statement

namespace EnglishScript.Python

/-- Whether a symbol stands inside a line: it is no end of a line, no change of indentation and no flaw. -/
def Lexis.isInline : Lexis → Bool
  | .newline | .indent | .dedent | .endOfFile | .flaw _ => false
  | _ => true

namespace Reader

/-- A reader that, when it succeeds, has gone over symbols inside a line only. -/
def Inline {α : Type} (r : Reader α) : Prop :=
  ∀ c a c', r c = .ok (a, c') → ∃ used, c.symbols = used ++ c'.symbols ∧ ∀ s ∈ used, s.lexis.isInline = true

theorem bind_ok {α β : Type} {r : Reader α} {f : α → Reader β} {c c' : Cursor} {b : β}
    (h : (r >>= f) c = .ok (b, c')) : ∃ a d, r c = .ok (a, d) ∧ f a d = .ok (b, c') := by
  change (do let (a, d) ← r c; f a d : Except Refusal (β × Cursor)) = _ at h
  cases hr : r c with
  | error e => rw [hr] at h; cases h
  | ok p => rw [hr] at h; exact ⟨p.1, p.2, rfl, h⟩

theorem inline_pure {α : Type} (a : α) : Inline (pure a : Reader α) := by
  intro c b c' h
  cases h
  exact ⟨[], rfl, by simp⟩

theorem Inline.bind {α β : Type} {r : Reader α} {f : α → Reader β} (hr : Inline r) (hf : ∀ a, Inline (f a)) :
    Inline (r >>= f) := by
  intro c b c' h
  obtain ⟨a, d, hd, h⟩ := bind_ok h
  obtain ⟨first, hfirst, hin⟩ := hr c a d hd
  obtain ⟨second, hsecond, hin'⟩ := hf a d b c' h
  refine ⟨first ++ second, by rw [hfirst, hsecond, List.append_assoc], ?_⟩
  exact List.forall_mem_append.mpr ⟨hin, hin'⟩

theorem Inline.ite {α : Type} {p : Prop} [Decidable p] {r t : Reader α} (hr : Inline r) (ht : Inline t) :
    Inline (if p then r else t) := by
  split
  · exact hr
  · exact ht

theorem inline_refuse {α : Type} : Inline (refuse : Reader α) := by
  intro c a c' h
  cases h

theorem inline_peek : Inline peek := by
  intro c a c' h
  cases h
  exact ⟨[], rfl, by simp⟩

theorem inline_complain (reason : Text) : Inline (complain reason) := by
  intro c a c' h
  cases h
  exact ⟨[], rfl, by simp⟩

theorem eq_cons_of_head {c : Cursor} {l : Lexis} (h : c.head.lexis = l) (hl : l.isInline = true) :
    ∃ s rest, c.symbols = s :: rest ∧ s.lexis = l := by
  unfold Cursor.head at h
  cases hc : c.symbols with
  | nil =>
    rw [hc] at h
    cases h
    cases hl
  | cons s rest =>
    rw [hc] at h
    exact ⟨s, rest, rfl, h⟩

/-- Going over the next symbol, if it stands inside a line. -/
theorem advance_inline {c : Cursor} (hl : c.head.lexis.isInline = true) :
    ∃ used, c.symbols = used ++ c.symbols.tail ∧ ∀ s ∈ used, s.lexis.isInline = true := by
  obtain ⟨s, rest, hsymbols, hs⟩ := eq_cons_of_head rfl hl
  refine ⟨[s], by rw [hsymbols]; rfl, ?_⟩
  rintro t ht
  rw [List.mem_singleton.mp ht, hs]
  exact hl

theorem inline_accept {l : Lexis} (hl : l.isInline = true) : Inline (accept l) := by
  intro c a c' h
  unfold accept at h
  split at h
  next heq =>
    cases h
    exact advance_inline (heq ▸ hl)
  next =>
    cases h
    exact ⟨[], rfl, by simp⟩

theorem inline_expect {l : Lexis} (hl : l.isInline = true) : Inline (expect l) := by
  intro c a c' h
  unfold expect at h
  split at h
  next heq =>
    cases h
    exact advance_inline (heq ▸ hl)
  next => cases h

theorem inline_expectName : Inline expectName := by
  intro c a c' h
  obtain ⟨l, d, hpeek, h⟩ := bind_ok h
  cases hpeek
  generalize hl : c.head.lexis = l at h
  cases l with
  | name t => cases h; exact advance_inline (hl ▸ rfl)
  | _ => cases h

/-- Going over the next symbol, if it stands inside a line, and then on inside the line. -/
theorem advance_then {α : Type} {r : Reader α} (hr : Inline r) {c c' : Cursor} {a : α}
    (hl : c.head.lexis.isInline = true) (h : (do advance; r) c = .ok (a, c')) :
    ∃ used, c.symbols = used ++ c'.symbols ∧ ∀ s ∈ used, s.lexis.isInline = true := by
  obtain ⟨first, hfirst, hin⟩ := advance_inline hl
  obtain ⟨second, hsecond, hin'⟩ := hr _ a c' h
  refine ⟨first ++ second, by rw [List.append_assoc, ← hsecond]; exact hfirst, ?_⟩
  exact List.forall_mem_append.mpr ⟨hin, hin'⟩

theorem inline_nameElse {α : Type} {r t : Reader α} (hr : Inline r) (ht : Inline t) :
    Inline (do match ← peek with
      | .name _ => do advance; r
      | _ => t) := by
  intro c a c' h
  obtain ⟨l, d, hpeek, h⟩ := bind_ok h
  cases hpeek
  generalize hl : c.head.lexis = l at h
  cases l with
  | name t => exact advance_then hr (hl ▸ rfl) h
  | _ => exact ht c a c' h

theorem Inline.loop {go : Reader Bool} (h : Inline go) (fuel : Nat) : Inline (loop go fuel) := by
  induction fuel with
  | zero => exact inline_pure ()
  | succ fuel ih => exact h.bind fun _ => .ite ih (inline_pure ())

end Reader

open Reader

namespace Expression

theorem inline_acceptIf {is : Lexis → Bool} (his : ∀ l, is l = true → l.isInline = true) : Inline (acceptIf is) := by
  intro c a c' h
  obtain ⟨l, d, hpeek, h⟩ := bind_ok h
  cases hpeek
  split at h
  next heq =>
    cases h
    exact advance_inline (his _ heq)
  next =>
    cases h
    exact ⟨[], rfl, by simp⟩

theorem inline_items {item : Reader Shape} (h : Inline item) (starts : Lexis → Bool) (fuel : Nat) :
    Inline (items item starts fuel) := by
  induction fuel with
  | zero => exact inline_refuse
  | succ fuel ih =>
    exact h.bind fun _ => (inline_accept rfl).bind fun _ => .ite
      (inline_peek.bind fun _ => .ite (ih.bind fun _ => inline_pure _) (inline_pure _)) (inline_pure _)

theorem inline_chain {operand : Reader Shape} {operator : Reader Bool} (h : Inline operand) (ho : Inline operator)
    (whole : Shape) (fuel : Nat) : Inline (chain operand operator whole fuel) := by
  have hmore : Inline (do if ← operator then let _ ← operand; return true else return false) :=
    ho.bind fun _ => .ite (h.bind fun _ => inline_pure true) (inline_pure false)
  exact h.bind fun first => ho.bind fun _ => .ite
    (h.bind fun _ => (hmore.loop fuel).bind fun _ => inline_pure whole) (inline_pure first)

theorem inline_isBinary {l : Lexis} (h : isBinary l = true) : l.isInline = true := by
  cases l <;> first | rfl | cases h

theorem inline_isComparison {l : Lexis} (h : isComparison l = true) : l.isInline = true := by
  cases l <;> first | rfl | cases h

theorem inline_isUnary {l : Lexis} (h : isUnary l = true) : l.isInline = true := by
  simp only [isUnary, Bool.or_eq_true, beq_iff_eq] at h
  rcases h with (rfl | rfl) | rfl <;> rfl

section Operators

variable (fuel : Nat) {operand : Reader Shape} (h : Inline operand)

include h

theorem inline_arithmetic : Inline (arithmetic fuel operand) :=
  inline_chain h (inline_acceptIf fun _ => inline_isBinary) .operator fuel

omit h in
theorem inline_comparisonOperator : Inline comparisonOperator :=
  (inline_acceptIf fun _ => inline_isComparison).bind fun _ => .ite (inline_pure true) <|
    (inline_accept rfl).bind fun _ => .ite (inline_pure true) <|
    (inline_accept rfl).bind fun _ => .ite ((inline_accept rfl).bind fun _ => inline_pure true) <|
    (inline_accept rfl).bind fun _ => .ite ((inline_expect rfl).bind fun _ => inline_pure true) (inline_pure false)

theorem inline_comparison : Inline (comparison fuel operand) :=
  inline_chain (inline_arithmetic fuel h) inline_comparisonOperator .comparison fuel

theorem inline_negation : Inline (negation fuel operand) :=
  (inline_accept rfl).bind fun _ => .ite
    (((inline_accept rfl).loop fuel).bind fun _ => (inline_comparison fuel h).bind fun _ => inline_pure _)
    (inline_comparison fuel h)

theorem inline_disjunction : Inline (disjunction fuel operand) := by
  refine inline_chain (inline_negation fuel h) (inline_acceptIf ?_) .operator fuel
  intro l hl
  simp only [Bool.or_eq_true, beq_iff_eq] at hl
  rcases hl with rfl | rfl <;> rfl

end Operators

/-- Readers of nested expressions that stay inside a line. -/
structure Inner.Inline (inner : Inner) : Prop where
  operand : Reader.Inline inner.operand
  test : Reader.Inline inner.test

section Nested

variable (fuel : Nat) {inner : Inner} (h : inner.Inline)

include h

theorem inline_annotated : Inline ( annotation inner) :=
  (inline_accept rfl).bind fun _ => .ite (h.test.bind fun _ => inline_pure _) (inline_pure _)

theorem inline_parameter (annotated : Bool) : Inline (parameter inner annotated) := by
  have hnote : Inline (if annotated then annotation inner else pure ()) := .ite (inline_annotated h) (inline_pure ())
  exact (inline_accept rfl).bind fun _ => .ite (inline_nameElse (hnote.bind fun _ => inline_pure _) (inline_pure _)) <|
    (inline_accept rfl).bind fun _ => .ite
      (inline_expectName.bind fun _ => hnote.bind fun _ => inline_pure _) <|
    inline_expectName.bind fun _ => hnote.bind fun _ => (inline_accept rfl).bind fun _ => .ite
      (h.test.bind fun _ => inline_pure _) (inline_pure _)

theorem inline_parameters (annotated : Bool) : Inline (parameters fuel inner annotated) :=
  inline_peek.bind fun _ => .ite
    ((inline_items (inline_parameter h annotated) startsParameter fuel).bind fun _ => inline_pure _) (inline_pure _)

theorem inline_lambdaRest : Inline (lambdaRest fuel inner) :=
  (inline_parameters fuel h false).bind fun _ => (inline_expect rfl).bind fun _ => h.test.bind fun _ => inline_pure _

theorem inline_yieldRest : Inline (yieldRest fuel inner) :=
  (inline_accept rfl).bind fun _ => .ite (h.test.bind fun _ => inline_pure _) <|
    inline_peek.bind fun _ => .ite ((inline_items h.test startsTest fuel).bind fun _ => inline_pure _) (inline_pure _)

theorem inline_item : Inline (item fuel inner) :=
  (inline_accept rfl).bind fun _ => .ite ((inline_arithmetic fuel h.operand).bind fun _ => inline_pure _) h.test

theorem inline_loopTarget : Inline (loopTarget fuel inner) :=
  (inline_accept rfl).bind fun _ => .ite ((inline_arithmetic fuel h.operand).bind fun _ => inline_pure _)
    (inline_arithmetic fuel h.operand)

omit h in
theorem inline_assignTo (shape : Shape) : Inline (assignTo shape) := by
  unfold assignTo
  split
  · exact inline_complain _
  · exact inline_pure ()

theorem inline_forClause : Inline (forClause fuel inner) :=
  (inline_expect rfl).bind fun _ => (inline_items (inline_loopTarget fuel h) startsItem fuel).bind fun _ =>
    (inline_assignTo _).bind fun _ => (inline_expect rfl).bind fun _ =>
    (inline_disjunction fuel h.operand).bind fun _ => inline_pure _

theorem inline_condition : Inline (condition fuel inner) :=
  (inline_accept rfl).bind fun _ => .ite ((inline_lambdaRest fuel h).bind fun _ => inline_pure _)
    ((inline_disjunction fuel h.operand).bind fun _ => inline_pure _)

theorem inline_clauses : Inline (clauses fuel inner) := by
  refine (inline_forClause fuel h).bind fun _ => Inline.loop ?_ fuel
  exact inline_peek.bind fun _ => .ite ((inline_forClause fuel h).bind fun _ => inline_pure _) <|
    (inline_accept rfl).bind fun _ => .ite ((inline_condition fuel h).bind fun _ => inline_pure _) (inline_pure _)

theorem inline_inParentheses : Inline (inParentheses fuel inner) :=
  (inline_accept rfl).bind fun _ => .ite (inline_pure _) <|
    (inline_accept rfl).bind fun _ => .ite
      ((inline_yieldRest fuel h).bind fun _ => (inline_expect rfl).bind fun _ => inline_pure _) <|
    (inline_item fuel h).bind fun _ => inline_peek.bind fun _ => .ite
      ((inline_clauses fuel h).bind fun _ => (inline_expect rfl).bind fun _ => inline_pure _) <|
    (inline_accept rfl).bind fun _ => .ite
      (inline_peek.bind fun _ => .ite
        ((inline_items (inline_item fuel h) startsItem fuel).bind fun _ =>
          (inline_expect rfl).bind fun _ => inline_pure _)
        ((inline_expect rfl).bind fun _ => inline_pure _))
      ((inline_expect rfl).bind fun _ => inline_pure _)

theorem inline_inSquares : Inline (inSquares fuel inner) :=
  (inline_accept rfl).bind fun _ => .ite (inline_pure _) <|
    (inline_item fuel h).bind fun _ => inline_peek.bind fun _ => .ite
      ((inline_clauses fuel h).bind fun _ => (inline_expect rfl).bind fun _ => inline_pure _) <|
    (inline_accept rfl).bind fun _ => .ite
      (inline_peek.bind fun _ => .ite
        ((inline_items (inline_item fuel h) startsItem fuel).bind fun _ =>
          (inline_expect rfl).bind fun _ => inline_pure _)
        ((inline_expect rfl).bind fun _ => inline_pure _))
      ((inline_expect rfl).bind fun _ => inline_pure _)

theorem inline_entry : Inline (entry inner) :=
  h.test.bind fun _ => (inline_expect rfl).bind fun _ => h.test.bind fun _ => inline_pure _

theorem inline_inBraces : Inline (inBraces fuel inner) := by
  refine (inline_accept rfl).bind fun _ => .ite (inline_pure _) <| h.test.bind fun _ =>
    (inline_accept rfl).bind fun isDict => ?_
  have hclose : Inline (do expect (mark "\x7d"); return Shape.literal) := (inline_expect rfl).bind fun _ => inline_pure _
  have hrest : Inline (do
      if (← peek) = word "for" then
        clauses fuel inner
        expect (mark "\x7d")
        return if isDict then Shape.dictComprehension else Shape.setComprehension
      else
        if ← accept (mark ",") then
          if startsTest (← peek) then
            let _ ← items (if isDict then entry inner else inner.test) startsTest fuel
        expect (mark "\x7d")
        return Shape.literal) :=
    inline_peek.bind fun _ => .ite
      ((inline_clauses fuel h).bind fun _ => (inline_expect rfl).bind fun _ => inline_pure _) <|
    (inline_accept rfl).bind fun _ => .ite
      (inline_peek.bind fun _ => .ite
        ((inline_items (.ite (inline_entry h) h.test) startsTest fuel).bind fun _ => hclose) hclose) hclose
  exact .ite (h.test.bind fun _ => hrest) hrest

theorem inline_bracketed (opening : Text) : Inline (bracketed fuel inner opening) :=
  .ite (inline_inParentheses fuel h) (.ite (inline_inSquares fuel h) (inline_inBraces fuel h))

theorem inline_atom : Inline (atom fuel inner) := by
  intro c a c' hread
  obtain ⟨l, d, hpeek, hread⟩ := bind_ok hread
  cases hpeek
  generalize hl : c.head.lexis = l at hread
  cases l with
  | name t => exact advance_then (inline_pure _) (hl ▸ rfl) hread
  | number => exact advance_then (inline_pure _) (hl ▸ rfl) hread
  | string => exact advance_then (((inline_accept rfl).loop fuel).bind fun _ => inline_pure _) (hl ▸ rfl) hread
  | bytes => exact advance_then (((inline_accept rfl).loop fuel).bind fun _ => inline_pure _) (hl ▸ rfl) hread
  | keyword t =>
    simp only at hread
    split at hread
    · exact advance_then (inline_pure _) (hl ▸ rfl) hread
    · cases hread
  | sign t =>
    simp only at hread
    split at hread
    · exact advance_then (inline_pure _) (hl ▸ rfl) hread
    · split at hread
      · exact advance_then (inline_bracketed fuel h t) (hl ▸ rfl) hread
      · cases hread
  | _ => cases hread

theorem inline_argument : Inline (argument fuel inner) :=
  (inline_accept rfl).bind fun _ => .ite (h.test.bind fun _ => inline_pure _) <|
    (inline_accept rfl).bind fun _ => .ite (h.test.bind fun _ => inline_pure _) <|
    h.test.bind fun _ => (inline_accept rfl).bind fun _ => .ite (h.test.bind fun _ => inline_pure _) <|
    inline_peek.bind fun _ => .ite (inline_clauses fuel h) (inline_pure _)

theorem inline_arguments : Inline (arguments fuel inner) := by
  refine (inline_accept rfl).bind fun _ => .ite (inline_pure _) <| (inline_argument fuel h).bind fun _ =>
    (Inline.loop ?_ fuel).bind fun _ => inline_expect rfl
  exact (inline_accept rfl).bind fun _ => .ite
    (inline_peek.bind fun _ => .ite (inline_pure _) ((inline_argument fuel h).bind fun _ => inline_pure _)) (inline_pure _)

theorem inline_optionalTest : Inline (optionalTest inner) :=
  inline_peek.bind fun _ => .ite (h.test.bind fun _ => inline_pure _) (inline_pure _)

theorem inline_subscript : Inline (subscript inner) :=
  (inline_optionalTest h).bind fun _ => (inline_accept rfl).bind fun _ => .ite
    ((inline_optionalTest h).bind fun _ => (inline_accept rfl).bind fun _ => .ite
      ((inline_optionalTest h).bind fun _ => inline_pure _) (inline_pure _)) (inline_pure _)

theorem inline_trailers (n : Nat) : ∀ shape, Inline (trailers fuel inner n shape) := by
  induction n with
  | zero => exact fun shape => inline_pure shape
  | succ n ih =>
    intro shape
    exact (inline_accept rfl).bind fun _ => .ite ((inline_arguments fuel h).bind fun _ => ih _) <|
      (inline_accept rfl).bind fun _ => .ite
        (inline_peek.bind fun _ => .ite
          ((inline_items (inline_subscript h) startsSubscript fuel).bind fun _ =>
            (inline_expect rfl).bind fun _ => ih _) inline_refuse) <|
      (inline_accept rfl).bind fun _ => .ite (inline_expectName.bind fun _ => ih _) (inline_pure shape)

theorem inline_operandWith : Inline (operandWith fuel inner) := by
  have hsign : Inline (acceptIf isUnary) := inline_acceptIf fun _ => inline_isUnary
  exact hsign.bind fun _ => .ite
    ((hsign.loop fuel).bind fun _ => (inline_atom fuel h).bind fun base =>
      (inline_trailers fuel h fuel base).bind fun _ => inline_pure _)
    ((inline_atom fuel h).bind fun base => inline_trailers fuel h fuel base)

theorem inline_testWith {operand : Reader Shape} (ho : Inline operand) : Inline (testWith fuel inner operand) :=
  (inline_accept rfl).bind fun _ => .ite (inline_lambdaRest fuel h) <|
    (inline_disjunction fuel ho).bind fun shape => (inline_accept rfl).bind fun _ => .ite
      ((inline_disjunction fuel ho).bind fun _ => (inline_expect rfl).bind fun _ => h.test.bind fun _ => inline_pure _)
      (inline_pure shape)

end Nested

/-- Expressions stay inside a line, however deep they are nested. -/
theorem inline_reader (fuel : Nat) (depth : Nat) : (reader fuel depth).Inline := by
  induction depth with
  | zero => exact ⟨inline_refuse, inline_refuse⟩
  | succ depth ih =>
    have hoperand := inline_operandWith fuel ih
    exact ⟨hoperand, inline_testWith fuel ih hoperand⟩

end Expression

namespace Statement

open Expression

section Simple

variable (fuel : Nat) {e : Inner} (h : e.Inline)

include h

theorem inline_testList : Inline (testList fuel e) :=
  (inline_items h.test startsTest fuel).bind fun _ => inline_pure _

theorem inline_starList : Inline (starList fuel e) :=
  (inline_items (inline_item fuel h) startsItem fuel).bind fun _ => inline_pure _

theorem inline_rightSide : Inline (rightSide fuel e) :=
  (inline_accept rfl).bind fun _ => .ite (inline_yieldRest fuel h) (inline_starList fuel h)

theorem inline_moreSides (n : Nat) : Inline (moreSides fuel e n) := by
  induction n with
  | zero => exact inline_pure []
  | succ n ih =>
    exact (inline_accept rfl).bind fun _ => .ite
      ((inline_rightSide fuel h).bind fun _ => ih.bind fun _ => inline_pure _) (inline_pure [])

omit h in
theorem inline_assignAll (shapes : List Shape) : Inline (assignAll shapes) := by
  induction shapes with
  | nil => exact inline_pure ()
  | cons shape rest ih => exact (inline_assignTo shape).bind fun _ => ih

omit h in
theorem inline_isAugmented {l : Lexis} (h : isAugmented l = true) : l.isInline = true := by
  cases l <;> first | rfl | cases h

theorem inline_expressionStatement : Inline (expressionStatement fuel e) :=
  (inline_starList fuel h).bind fun shape => (inline_acceptIf fun _ => inline_isAugmented).bind fun _ => .ite
    ((inline_accept rfl).bind fun _ => .ite
      ((inline_yieldRest fuel h).bind fun _ => inline_assignTo shape)
      ((inline_testList fuel h).bind fun _ => inline_assignTo shape))
    ((inline_moreSides fuel h fuel).bind fun _ => inline_assignAll _)

theorem inline_optionalList : Inline (optionalList fuel e) :=
  inline_peek.bind fun _ => .ite ((inline_testList fuel h).bind fun _ => inline_pure _) (inline_pure _)

theorem inline_deleteRest : Inline (deleteRest fuel e) := by
  refine (inline_items (inline_loopTarget fuel h) startsItem fuel).bind fun targets => ?_
  unfold delete
  split
  · exact inline_complain _
  · exact inline_pure ()

theorem inline_raiseRest : Inline (raiseRest e) :=
  inline_peek.bind fun _ => .ite
    (h.test.bind fun _ => (inline_accept rfl).bind fun _ => .ite (h.test.bind fun _ => inline_pure _) (inline_pure _))
    (inline_pure _)

theorem inline_assertRest : Inline (assertRest e) :=
  h.test.bind fun _ => (inline_accept rfl).bind fun _ => .ite (h.test.bind fun _ => inline_pure _) (inline_pure _)

omit h in
theorem inline_dottedName : Inline (dottedName fuel) :=
  inline_expectName.bind fun _ => Inline.loop
    ((inline_accept rfl).bind fun _ => .ite (inline_expectName.bind fun _ => inline_pure _) (inline_pure _)) fuel

omit h in
theorem inline_asName : Inline asName :=
  (inline_accept rfl).bind fun _ => .ite inline_expectName (inline_pure _)

omit h in
theorem inline_importRest : Inline (importRest fuel) :=
  (inline_dottedName fuel).bind fun _ => inline_asName.bind fun _ => Inline.loop
    ((inline_accept rfl).bind fun _ => .ite
      ((inline_dottedName fuel).bind fun _ => inline_asName.bind fun _ => inline_pure _) (inline_pure _)) fuel

omit h in
theorem inline_importedName : Inline importedName :=
  inline_expectName.bind fun _ => inline_asName.bind fun _ => inline_pure _

omit h in
theorem inline_fromRest : Inline (fromRest fuel) := by
  have hdots : Inline (acceptIf fun l => l == mark "." || l == mark "...") := by
    refine inline_acceptIf fun l hl => ?_
    simp only [Bool.or_eq_true, beq_iff_eq] at hl
    rcases hl with rfl | rfl <;> rfl
  refine hdots.bind fun _ => (hdots.loop fuel).bind fun _ => inline_peek.bind fun _ => .ite
    ((inline_dottedName fuel).bind fun _ => ?_) (.ite (inline_refuse.bind fun _ => ?_) ?_)
  all_goals
    exact (inline_expect rfl).bind fun _ => (inline_accept rfl).bind fun _ => .ite (inline_pure _) <|
      (inline_accept rfl).bind fun _ => .ite
        ((inline_items inline_importedName isName fuel).bind fun _ => inline_expect rfl)
        ((inline_items inline_importedName (fun _ => true) fuel).bind fun _ => inline_pure _)

omit h in
theorem inline_nameList : Inline (nameList fuel) :=
  inline_expectName.bind fun _ => Inline.loop
    ((inline_accept rfl).bind fun _ => .ite (inline_expectName.bind fun _ => inline_pure _) (inline_pure _)) fuel

/-- A statement that fits on a line stays inside it. -/
theorem inline_small : Inline (small fuel e) :=
  (inline_accept rfl).bind fun _ => .ite (inline_deleteRest fuel h) <|
  (inline_accept rfl).bind fun _ => .ite (inline_pure _) <|
  (inline_accept rfl).bind fun _ => .ite (inline_pure _) <|
  (inline_accept rfl).bind fun _ => .ite (inline_pure _) <|
  (inline_accept rfl).bind fun _ => .ite (inline_optionalList fuel h) <|
  (inline_accept rfl).bind fun _ => .ite (inline_raiseRest h) <|
  (inline_accept rfl).bind fun _ => .ite ((inline_yieldRest fuel h).bind fun _ => inline_pure _) <|
  (inline_accept rfl).bind fun _ => .ite (inline_importRest fuel) <|
  (inline_accept rfl).bind fun _ => .ite (inline_fromRest fuel) <|
  (inline_accept rfl).bind fun _ => .ite (inline_nameList fuel) <|
  (inline_accept rfl).bind fun _ => .ite (inline_nameList fuel) <|
  (inline_accept rfl).bind fun _ => .ite (inline_assertRest h) (inline_expressionStatement fuel h)

end Simple

end Statement

end EnglishScript.Python
