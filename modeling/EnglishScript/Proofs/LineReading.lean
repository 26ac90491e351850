import EnglishScript.Proofs.GeneratedLines
import EnglishScript.Proofs.InlineReading

namespace EnglishScript

namespace Python

namespace Reader

theorem expect_ok {l : Lexis} {c d : Cursor} {u : Unit} (h : expect l c = .ok (u, d)) :
    c.head.lexis = l ∧ d.symbols = c.symbols.tail := by
  unfold expect at h
  split at h
  next heq =>
    cases h
    exact ⟨heq, rfl⟩
  next => cases h

/-- The reader goes on with the second branch if the next symbol is another one. -/
theorem accept_other {α : Type} {l : Lexis} {yes no : Reader α} {c : Cursor} (hne : c.head.lexis ≠ l) :
    (do if ← accept l then yes else no : Reader α) c = no c := by
  have haccept : accept l c = .ok (false, c) := by simp [accept, hne]
  change (do let (b, d) ← accept l c; (if b = true then yes else no) d : Except Refusal (α × Cursor)) = _
  rw [haccept]
  rfl

/-- The reader goes on with the first branch if the next symbol is the given one. -/
theorem accept_same {α : Type} {l : Lexis} {yes no : Reader α} {c : Cursor} (heq : c.head.lexis = l) :
    (do if ← accept l then yes else no : Reader α) c = yes { c with symbols := c.symbols.tail } := by
  have haccept : accept l c = .ok (true, { c with symbols := c.symbols.tail }) := by simp [accept, heq]
  change (do let (b, d) ← accept l c; (if b = true then yes else no) d : Except Refusal (α × Cursor)) = _
  rw [haccept]
  rfl

theorem head_cons {c : Cursor} {s : Symbol} {rest : List Symbol} (h : c.symbols = s :: rest) : c.head = s := by
  simp [Cursor.head, h]

/-- What a reader inside a line leaves of symbols that end at one outside. -/
theorem Inline.stops {α : Type} {r : Reader α} (hr : Inline r) {c d : Cursor} {a : α} (h : r c = .ok (a, d))
    {front : List Symbol} {z : Symbol} {more : List Symbol} (hc : c.symbols = front ++ z :: more)
    (hz : z.lexis.isInline = false) : ∃ used left, front = used ++ left ∧ d.symbols = left ++ z :: more := by
  obtain ⟨used, hused, hin⟩ := hr c a d h
  rw [hc] at hused
  rcases List.append_eq_append_iff.mp hused with ⟨inner, rfl, hinner⟩ | ⟨left, rfl, hleft⟩
  · cases inner with
    | nil => exact ⟨front, [], by simp, by simpa using hinner.symm⟩
    | cons s inner =>
      cases (List.cons.inj hinner).1
      exact absurd (hin z (by simp)) (by simp [hz])
  · exact ⟨used, left, rfl, hleft⟩

end Reader

open Reader Expression Scan

namespace Expression

/-- A reader that does not start with the sign of an assignment. -/
def Bars {α : Type} (r : Reader α) : Prop :=
  ∀ c x, c.head.lexis = mark "=" → r c ≠ .ok x

theorem Bars.bind {α β : Type} {r : Reader α} (hr : Bars r) (f : α → Reader β) : Bars (r >>= f) := by
  intro c x hc h
  obtain ⟨a, d, hd, _⟩ := bind_ok h
  exact hr c (a, d) hc hd

theorem bars_accept {α : Type} {l : Lexis} (hl : l ≠ mark "=") {yes no : Reader α} (hno : Bars no) :
    Bars (do if ← accept l then yes else no) := by
  intro c x hc h
  rw [accept_other (by rw [hc]; exact hl.symm)] at h
  exact hno c x hc h

theorem bars_expect {l : Lexis} (hl : l ≠ mark "=") : Bars (expect l) := by
  intro c x hc h
  exact hl ((expect_ok h).1.symm.trans hc)

theorem bars_expectName : Bars expectName := by
  intro c x hc h
  obtain ⟨l, d, hpeek, h⟩ := bind_ok h
  cases hpeek
  rw [hc] at h
  cases h

theorem bars_chain {operand : Reader Shape} (h : Bars operand) (operator : Reader Bool) (whole : Shape) (fuel : Nat) :
    Bars (chain operand operator whole fuel) :=
  h.bind _

theorem bars_items {item : Reader Shape} (h : Bars item) (starts : Lexis → Bool) (fuel : Nat) :
    Bars (items item starts fuel) := by
  cases fuel with
  | zero => exact fun _ _ _ h => by cases h
  | succ fuel => exact h.bind _

theorem bars_disjunction {operand : Reader Shape} (h : Bars operand) (fuel : Nat) : Bars (disjunction fuel operand) :=
  bars_chain (bars_accept (by decide) (bars_chain (bars_chain h _ _ _) _ _ _)) _ _ _

theorem bars_atom (fuel : Nat) (inner : Inner) : Bars (atom fuel inner) := by
  intro c x hc h
  obtain ⟨l, d, hpeek, h⟩ := bind_ok h
  cases hpeek
  rw [hc] at h
  cases h

theorem bars_operandWith (fuel : Nat) (inner : Inner) : Bars (operandWith fuel inner) := by
  intro c x hc h
  obtain ⟨b, d, hsign, h⟩ := bind_ok h
  obtain ⟨l, d', hpeek, hsign⟩ := bind_ok hsign
  cases hpeek
  rw [hc] at hsign
  cases hsign
  exact (bars_atom fuel inner).bind _ c x hc h

/-- No expression starts with the sign of an assignment. -/
theorem bars_reader (fuel depth : Nat) : Bars (reader fuel depth).operand ∧ Bars (reader fuel depth).test := by
  cases depth with
  | zero => exact ⟨fun _ _ _ h => (by cases h), fun _ _ _ h => (by cases h)⟩
  | succ depth =>
    refine ⟨bars_operandWith fuel _, bars_accept (by decide) ?_⟩
    exact (bars_disjunction (bars_operandWith fuel _) fuel).bind _

end Expression

namespace Statement

theorem isInline_newline_or_flaw {l : Lexis} (h : l = .newline ∨ ∃ reason, l = .flaw reason) : l.isInline = false := by
  rcases h with rfl | ⟨reason, rfl⟩ <;> rfl

theorem ne_of_isPlain {l : Lexis} (h : l.isPlain = true) : l ≠ mark ";" ∧ l ≠ mark ":" ∧ l ≠ .newline := by
  refine ⟨?_, ?_, ?_⟩ <;> (rintro rfl; exact absurd h (by decide))

/-- A line of plain symbols is read as one statement, up to its end; a line with a flaw is not read. -/
theorem line_reads {fuel : Nat} {e : Inner} (he : e.Inline) {n count : Nat} {c c' : Cursor} {front : List Symbol}
    {z : Symbol} {more : List Symbol} (hfront : Plain front) (hc : c.symbols = front ++ z :: more)
    (hz : z.lexis = .newline ∨ ∃ reason, z.lexis = .flaw reason) (h : line fuel e n c = .ok (count, c')) :
    count = 1 ∧ z.lexis = .newline ∧ c'.symbols = more := by
  cases n with
  | zero => cases h
  | succ n =>
    obtain ⟨_, d, hsmall, h⟩ := bind_ok h
    obtain ⟨used, left, rfl, hd⟩ := (inline_small fuel he).stops hsmall hc (isInline_newline_or_flaw hz)
    have hsemicolon : d.head.lexis ≠ mark ";" := by
      cases left with
      | nil =>
        rw [head_cons hd]
        rcases hz with hz | ⟨reason, hz⟩ <;> (rw [hz]; simp)
      | cons s left =>
        rw [head_cons hd]
        exact (ne_of_isPlain (hfront s (by simp))).1
    rw [accept_other hsemicolon] at h
    obtain ⟨_, d', hexpect, h⟩ := bind_ok h
    cases h
    obtain ⟨hhead, htail⟩ := expect_ok hexpect
    cases left with
    | nil =>
      rw [head_cons hd] at hhead
      exact ⟨rfl, hhead, by rw [htail, hd]; rfl⟩
    | cons s left =>
      rw [head_cons hd] at hhead
      exact absurd hhead (ne_of_isPlain (hfront s (by simp))).2.2

/-- The condition of a head is read up to its colon; a head with a flaw is not read. -/
theorem test_reads {α : Type} {r : Reader α} (hr : Inline r) {c c' d : Cursor} {a : α} {u : Unit} {front : List Symbol}
    {z : Symbol} {more rest : List Symbol} (hfront : Plain front) (hc : c.symbols = front ++ z :: more)
    (hz : (∃ reason, z.lexis = .flaw reason) ∨ ∃ last, z.lexis = mark ":" ∧ last.lexis = .newline ∧
      more = last :: rest)
    (h : r c = .ok (a, d)) (hcolon : expect (mark ":") d = .ok (u, c')) :
    ∃ last, last.lexis = .newline ∧ c'.symbols = last :: rest := by
  obtain ⟨hhead, htail⟩ := expect_ok hcolon
  rcases hz with ⟨reason, hz⟩ | ⟨last, hz, hlast, rfl⟩
  · obtain ⟨used, left, rfl, hd⟩ := hr.stops h hc (by rw [hz]; rfl)
    cases left with
    | nil =>
      rw [head_cons hd, hz] at hhead
      cases hhead
    | cons s left =>
      rw [head_cons hd] at hhead
      exact absurd hhead (ne_of_isPlain (hfront s (by simp))).2.1
  · have hwhole : c.symbols = (front ++ [z]) ++ last :: rest := by simp [hc]
    obtain ⟨used, left, hsplit, hd⟩ := hr.stops h hwhole (by rw [hlast]; rfl)
    -- The colon is the last symbol of the head, so nothing but the end of the line is left behind it.
    rcases List.eq_nil_or_concat left with rfl | ⟨inner, s, rfl⟩
    · rw [head_cons hd, hlast] at hhead
      cases hhead
    · rw [List.concat_eq_append, ← List.append_assoc] at hsplit
      obtain ⟨rfl, hs⟩ := List.append_inj' hsplit rfl
      cases hs
      cases inner with
      | nil => exact ⟨last, hlast, by rw [htail, hd]; rfl⟩
      | cons s inner =>
        rw [head_cons hd] at hhead
        exact absurd hhead (ne_of_isPlain (hfront s (by simp))).2.1

section Compound

variable {fuel : Nat} {e : Inner} {statement : Reader Nat}

/-- The symbols that open a compound statement. -/
def openers : List Lexis :=
  [word "if", word "while", word "for", word "try", word "with", word "def", word "class", mark "@"]

theorem statementWith_line {c : Cursor} (h : c.head.lexis ∉ openers) :
    statementWith fuel e statement c = line fuel e fuel c := by
  simp only [openers, List.mem_cons, List.not_mem_nil, or_false, not_or] at h
  obtain ⟨hif, hwhile, hfor, htry, hwith, hdef, hclass, hat⟩ := h
  unfold statementWith
  rw [accept_other hif, accept_other hwhile, accept_other hfor, accept_other htry, accept_other hwith,
    accept_other hdef, accept_other hclass, accept_other hat]

theorem bars_forRest (h : Bars e.operand) : Bars (forRest fuel e statement) :=
  (bars_items (bars_accept (by decide) (bars_chain h _ _ _)) _ _).bind _

theorem bars_tryRest : Bars (tryRest fuel e statement) :=
  ((bars_expect (by decide)).bind _).bind _

theorem bars_defRest : Bars (defRest fuel e statement) :=
  bars_expectName.bind _

theorem bars_classRest : Bars (classRest fuel e statement) :=
  bars_expectName.bind _

/-- A word that could open a compound statement does not, if the sign of an assignment follows it. -/
theorem statementWith_assign (hbars : Bars e.operand) {c : Cursor} {s equals : Symbol} {rest : List Symbol}
    (hc : c.symbols = s :: equals :: rest) (hequals : equals.lexis = mark "=") (hif : s.lexis ≠ word "if")
    (hwhile : s.lexis ≠ word "while") (hwith : s.lexis ≠ word "with") (hat : s.lexis ≠ mark "@")
    {x : Nat × Cursor} (h : statementWith fuel e statement c = .ok x) : line fuel e fuel c = .ok x := by
  have hhead := head_cons hc
  have hnext : ({ c with symbols := c.symbols.tail } : Cursor).head.lexis = mark "=" := by
    rw [head_cons (c := { c with symbols := c.symbols.tail }) (by rw [hc]; rfl), hequals]
  rw [← hhead] at hif hwhile hwith hat
  by_cases hopen : c.head.lexis ∈ openers
  · simp only [openers, List.mem_cons, List.not_mem_nil, or_false] at hopen
    unfold statementWith at h
    rcases hopen with hopen | hopen | hopen | hopen | hopen | hopen | hopen | hopen
    · exact absurd hopen hif
    · exact absurd hopen hwhile
    · rw [accept_other hif, accept_other hwhile, accept_same hopen] at h
      exact absurd h ((bars_forRest hbars).bind _ _ _ hnext)
    · rw [accept_other hif, accept_other hwhile, accept_other (by rw [hopen]; decide), accept_same hopen] at h
      exact absurd h (bars_tryRest.bind _ _ _ hnext)
    · exact absurd hopen hwith
    · rw [accept_other hif, accept_other hwhile, accept_other (by rw [hopen]; decide),
        accept_other (by rw [hopen]; decide), accept_other hwith, accept_same hopen] at h
      exact absurd h (bars_defRest.bind _ _ _ hnext)
    · rw [accept_other hif, accept_other hwhile, accept_other (by rw [hopen]; decide),
        accept_other (by rw [hopen]; decide), accept_other hwith, accept_other (by rw [hopen]; decide),
        accept_same hopen] at h
      exact absurd h (bars_classRest.bind _ _ _ hnext)
    · exact absurd hopen hat
  · rwa [statementWith_line hopen] at h

end Compound

end Statement

end Python

end EnglishScript
