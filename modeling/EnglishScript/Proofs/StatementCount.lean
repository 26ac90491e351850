import EnglishScript.Compiler
import EnglishScript.Proofs.LineReading

namespace EnglishScript

namespace Python

open Reader Expression Scan

namespace Statement

/-- Readers of expressions that stay inside a line and do not start with the sign of an assignment. -/
structure Tame (e : Inner) : Prop where
  inline : e.Inline
  operand : Bars e.operand
  test : Bars e.test

theorem tame_reader (fuel depth : Nat) : Tame (Expression.reader fuel depth) :=
  ⟨inline_reader fuel depth, (bars_reader fuel depth).1, (bars_reader fuel depth).2⟩

theorem plain_of_wordLexis {s : Symbol} {t : Text} (h : s.lexis = wordLexis t) : s.lexis.isPlain = true := by
  rw [h]
  exact isPlain_wordLexis t

theorem wordLexis_ne {t : Text} {w : String} (h : t ≠ utf8 w) : wordLexis t ≠ word w := by
  unfold wordLexis
  split
  · intro heq
    exact h (Lexis.keyword.inj heq)
  · intro heq
    cases heq

section Reading

variable {fuel : Nat} {e : Inner} (he : Tame e) {n depth number count : Nat} {c c' : Cursor} {more : List Text}

include he

theorem row_reads {front middle rest : List Symbol} {z : Symbol} (hplain : Plain (front ++ middle))
    (hc : c.symbols = front ++ (middle ++ z :: rest))
    (hz : (z.lexis = .newline ∧ rest = linesAt depth (number + 1) more) ∨ ∃ reason, z.lexis = .flaw reason)
    (h : line fuel e n c = .ok (count, c')) : count = 1 ∧ ∃ k, c'.symbols = linesAt depth k more := by
  rw [← List.append_assoc] at hc
  obtain ⟨hcount, hnewline, hrest⟩ := line_reads he.inline hplain hc (hz.imp And.left id) h
  rcases hz with ⟨_, rfl⟩ | ⟨reason, hz⟩
  · exact ⟨hcount, _, hrest⟩
  · rw [hz] at hnewline
    cases hnewline

theorem assign_reads {name : Token} {value : Expr} (hname : name.Is .identifier) (hvalue : value.Sourced)
    (hclosing : ∀ n ∈ value.walk, n.SelfClosing)
    (hc : c.symbols = linesAt depth number (Python.line depth (name.lexeme ++ utf8 " = " ++ value.python) :: more))
    (h : reader fuel e n c = .ok (count, c')) : count = 1 ∧ ∃ k, c'.symbols = linesAt depth k more := by
  cases n with
  | zero => cases h
  | succ n =>
    obtain ⟨_, middle, z, rest, ⟨s, equals, rfl, hs, hequals⟩, hmiddle, hline, hz⟩ :=
      linesAt_simple (headed_assign hname value) (holds_assign hname hvalue hclosing) depth number more
    rw [hline] at hc
    have hkeyword (w : String) (hw : (Kind.keywords.lookup (utf8 w).lower).isSome = true) : s.lexis ≠ word w := by
      rw [hs]
      exact wordLexis_ne (ReadBack.lexeme_ne_keyword hname _ hw)
    have hat : s.lexis ≠ mark "@" := by
      rw [hs, wordLexis]
      split <;> simp
    have hread := statementWith_assign he.operand hc hequals (hkeyword "if" (by decide)) (hkeyword "while" (by decide))
      (hkeyword "with" (by decide)) hat h
    have hplain : Plain ([s, equals] ++ middle) := by
      refine Plain.append ?_ hmiddle
      simp only [Plain, List.mem_cons, List.not_mem_nil, or_false]
      rintro t (rfl | rfl)
      · exact plain_of_wordLexis hs
      · rw [hequals]
        decide
    exact row_reads he hplain hc hz hread

/-- A line that opens with a word of its own is one statement. -/
theorem word_reads {t w : Text} (hheaded : Headed t)
    (hholds : ∀ here, (restOfLine 0 here 0 t).Holds (OneWord w) (· = [])) (hw : wordLexis w ∉ openers)
    (hc : c.symbols = linesAt depth number (Python.line depth t :: more))
    (h : reader fuel e n c = .ok (count, c')) : count = 1 ∧ ∃ k, c'.symbols = linesAt depth k more := by
  cases n with
  | zero => cases h
  | succ n =>
    obtain ⟨_, middle, z, rest, ⟨s, rfl, hs⟩, hmiddle, hline, hz⟩ := linesAt_simple hheaded hholds depth number more
    rw [hline] at hc
    have hread : line fuel e fuel c = .ok (count, c') := by
      rw [← h]
      exact (statementWith_line (by rw [head_cons hc, hs]; exact hw)).symm
    have hplain : Plain ([s] ++ middle) := (plain_singleton (isPlain_wordLexis w) _ ⟨s, rfl, hs⟩).append hmiddle
    exact row_reads he hplain hc hz hread

omit he

/-- The first symbol of a statement: it stands inside its line, is no `else`, and if it is an `elif` then it is a variable
that is assigned to. -/
def Starts (symbols : List Symbol) : Prop :=
  ∃ s rest, symbols = s :: rest ∧ s.lexis.isInline = true ∧ s.lexis ≠ word "else" ∧
    (s.lexis = word "elif" → ∃ equals more, rest = equals :: more ∧ equals.lexis = mark "=")

theorem starts_word {w : Text} {front rest : List Symbol} (h : OneWord w front) (helse : w ≠ utf8 "else")
    (helif : w ≠ utf8 "elif") : Starts (front ++ rest) := by
  obtain ⟨s, rfl, hs⟩ := h
  refine ⟨s, rest, rfl, isInline_of_isPlain (plain_of_wordLexis hs), hs ▸ wordLexis_ne helse, fun heq => ?_⟩
  exact absurd (hs ▸ heq) (wordLexis_ne helif)

theorem assign_starts {name : Token} {value : Expr} (hname : name.Is .identifier) (hvalue : value.Sourced)
    (hclosing : ∀ n ∈ value.walk, n.SelfClosing) (depth number : Nat) (rest : List Text) :
    Starts (linesAt depth number (Python.line depth (name.lexeme ++ utf8 " = " ++ value.python) :: rest)) := by
  obtain ⟨front, middle, z, more, hfront, _, hline, _⟩ :=
    linesAt_simple (headed_assign hname value) (holds_assign hname hvalue hclosing) depth number rest
  rw [hline]
  obtain ⟨s, equals, rfl, hs, hequals⟩ := hfront
  refine ⟨s, equals :: _, rfl, isInline_of_isPlain (plain_of_wordLexis hs), ?_, fun _ => ⟨equals, _, rfl, hequals⟩⟩
  rw [hs]
  exact wordLexis_ne (ReadBack.lexeme_ne_keyword hname _ (by decide))

/-- The first line of a statement. -/
theorem stmt_line {s : Stmt} (h : s.Sourced) (hclosing : ∀ n ∈ s.walk, n.SelfClosing) (depth : Nat) :
    ∃ t lines, s.python depth = Python.line depth t :: lines ∧ Headed t ∧
      ∀ number rest, Starts (linesAt depth number (Python.line depth t :: rest)) := by
  cases s with
  | create name value =>
    exact ⟨_, [], Stmt.python.eq_def _ _, headed_assign h.1 value,
      assign_starts h.1 h.2 (fun n hn => hclosing n (by simp [Stmt.walk, hn])) depth⟩
  | assign name value =>
    exact ⟨_, [], Stmt.python.eq_def _ _, headed_assign h.1 value,
      assign_starts h.1 h.2 (fun n hn => hclosing n (by simp [Stmt.walk, hn])) depth⟩
  | print keyword value =>
    refine ⟨_, [], Stmt.python.eq_def _ _, headed_print value, fun number rest => ?_⟩
    obtain ⟨front, middle, z, more, hfront, _, hline, _⟩ := linesAt_simple (headed_print value)
      (holds_print h.2 fun n hn => hclosing n (by simp [Stmt.walk, hn])) depth number rest
    rw [hline]
    exact starts_word hfront (by decide) (by decide)
  | branch keyword cond yes no =>
    have hcond : cond.Sourced := by
      rw [Stmt.Sourced.eq_def] at h
      exact h.2.1
    refine ⟨_, _, Stmt.python.eq_def _ _, headed_if cond, fun number rest => ?_⟩
    obtain ⟨front, middle, z, more, hfront, _, hline, _⟩ := linesAt_head (headed_if cond)
      (holds_if hcond fun n hn => hclosing n (by cases no <;> simp [Stmt.walk, hn])) depth number rest
    rw [hline]
    exact starts_word hfront (by decide) (by decide)
  | loop keyword cond body =>
    refine ⟨_, _, Stmt.python.eq_def _ _, headed_while cond, fun number rest => ?_⟩
    obtain ⟨front, middle, z, more, hfront, _, hline, _⟩ := linesAt_head (headed_while cond)
      (holds_while h.2.1 fun n hn => hclosing n (by simp [Stmt.walk, hn])) depth number rest
    rw [hline]
    exact starts_word hfront (by decide) (by decide)
  | hole => exact h.elim

/-- What can stand behind a statement: nothing, a line of an outer block, or the next statement of its own block. -/
def Follows (depth : Nat) (lines : List Text) : Prop :=
  lines = [] ∨ (∃ j t rest, j < depth ∧ Headed t ∧ lines = Python.line j t :: rest) ∨
    ∃ (s : Stmt) (rest : List Text), s.Sourced ∧ (∀ n ∈ s.walk, n.SelfClosing) ∧ lines = s.python depth ++ rest

theorem Follows.shallow {depth : Nat} {lines : List Text} (h : Follows depth lines) : Shallow depth lines := by
  rcases h with rfl | ⟨j, t, rest, hj, ht, rfl⟩ | ⟨s, rest, hs, hclosing, rfl⟩
  · rintro _ ⟨⟩
  · rintro _ ⟨⟩
    exact ⟨j, t, Nat.le_of_lt hj, ht, rfl⟩
  · obtain ⟨t, lines, hpython, ht, _⟩ := stmt_line hs hclosing depth
    rw [hpython]
    rintro _ ⟨⟩
    exact ⟨depth, t, Nat.le_refl _, ht, rfl⟩

theorem follows_shallow {depth : Nat} {lines : List Text} (h : Shallow depth lines) : Follows (depth + 1) lines := by
  cases lines with
  | nil => exact Or.inl rfl
  | cons l lines =>
    obtain ⟨j, t, hj, ht, rfl⟩ := h l rfl
    exact Or.inr (Or.inl ⟨j, t, lines, Nat.lt_succ_of_le hj, ht, rfl⟩)

theorem follows_block {depth : Nat} {ss : List Stmt} (h : BlockSourced ss) (hclosing : ∀ n ∈ walkBlock ss, n.SelfClosing)
    {lines : List Text} (hlines : Follows depth lines) : Follows depth (pythonBlock depth ss ++ lines) := by
  cases ss with
  | nil => exact hlines
  | cons s rest =>
    refine Or.inr (Or.inr ⟨s, pythonBlock depth rest ++ lines, h.1, fun n hn => hclosing n (by simp [walkBlock, hn]), ?_⟩)
    rw [pythonBlock, List.append_assoc]

/-- No part of the statement before it goes on at the cursor. -/
def Barred (c : Cursor) : Prop :=
  c.head.lexis ≠ word "else" ∧
    (c.head.lexis = word "elif" → ({ c with symbols := c.symbols.tail } : Cursor).head.lexis = mark "=")

theorem barred_starts (h : Starts c.symbols) : Barred c := by
  obtain ⟨s, rest, hc, _, helse, helif⟩ := h
  rw [Barred, head_cons hc]
  refine ⟨helse, fun heq => ?_⟩
  obtain ⟨equals, more, rfl, hequals⟩ := helif heq
  rw [head_cons (c := { c with symbols := c.symbols.tail }) (by rw [hc]; rfl), hequals]

theorem barred_of_head (helse : c.head.lexis ≠ word "else") (helif : c.head.lexis ≠ word "elif") : Barred c :=
  ⟨helse, fun h => absurd h helif⟩

theorem Follows.barred {lines : List Text} (h : Follows depth lines) (hc : c.symbols = linesAt depth number lines) :
    Barred c := by
  have hdedent {d : Nat} (hshallow : Shallow d lines) (hdepth : depth = d + 1) : Barred c := by
    obtain ⟨z, hz, hline⟩ := linesAt_shallow hshallow number
    rw [hdepth, hline] at hc
    refine barred_of_head ?_ ?_ <;> (rw [head_cons hc, hz]; simp)
  rcases h with rfl | ⟨j, t, rest, hj, ht, rfl⟩ | ⟨s, rest, hs, hclosing, rfl⟩
  · cases depth with
    | zero => refine barred_of_head ?_ ?_ <;> (rw [head_cons hc]; simp)
    | succ depth => exact hdedent (by rintro _ ⟨⟩) rfl
  · obtain ⟨depth, rfl⟩ := Nat.exists_eq_add_one_of_ne_zero (Nat.ne_zero_of_lt hj)
    refine hdedent ?_ rfl
    rintro _ ⟨⟩
    exact ⟨j, t, Nat.le_of_lt_succ hj, ht, rfl⟩
  · obtain ⟨t, lines, hpython, _, hstarts⟩ := stmt_line hs hclosing depth
    rw [hpython] at hc
    exact barred_starts (hc ▸ hstarts number (lines ++ rest))

/-- A further branch of an `if`, if there is one. -/
abbrev elifStep (fuel : Nat) (e : Inner) (statement : Reader Nat) : Reader Bool := do
  if ← accept (word "elif") then
    let _ ← e.test
    block fuel e statement
    return true
  else return false

theorem elseBlock_barred {statement : Reader Nat} {u : Unit} (hc : Barred c)
    (h : elseBlock fuel e statement c = .ok (u, c')) : c' = c := by
  unfold elseBlock at h
  rw [accept_other hc.1] at h
  cases h
  rfl

theorem elif_other {statement : Reader Nat} {u : Unit} (hc : c.head.lexis ≠ word "elif") {m : Nat}
    (h : loop (elifStep fuel e statement) m c = .ok (u, c')) : c' = c := by
  cases m with
  | zero =>
    cases h
    rfl
  | succ m =>
    obtain ⟨b, d, hgo, h⟩ := bind_ok h
    rw [elifStep, accept_other hc] at hgo
    cases hgo
    cases h
    rfl

include he in
theorem elif_barred {statement : Reader Nat} {u : Unit} (hc : Barred c) {m : Nat}
    (h : loop (elifStep fuel e statement) m c = .ok (u, c')) : c' = c := by
  by_cases helif : c.head.lexis = word "elif"
  · cases m with
    | zero =>
      cases h
      rfl
    | succ m =>
      obtain ⟨b, d, hgo, h⟩ := bind_ok h
      rw [elifStep, accept_same helif] at hgo
      exact absurd hgo (he.test.bind _ _ _ (hc.2 helif))
  · exact elif_other helif h

/-- A head is read up to the end of its line, whatever reads its condition inside the line. -/
theorem head_reads {w t : Text} (hheaded : Headed t)
    (hholds : ∀ here, (restOfLine 0 here 0 t).Holds (OneWord w) OneColon) {lines : List Text}
    (hc : c.symbols = linesAt depth number (Python.line depth t :: lines)) :
    c.head.lexis = wordLexis w ∧ ∀ {α : Type} {r : Reader α} {a : α} {d d' : Cursor} {u : Unit}, Inline r →
      r { c with symbols := c.symbols.tail } = .ok (a, d) → expect (mark ":") d = .ok (u, d') →
      ∃ last, last.lexis = .newline ∧ d'.symbols = last :: linesAt depth (number + 1) lines := by
  obtain ⟨_, middle, z, more, ⟨s, rfl, hs⟩, hmiddle, hline, hz⟩ := linesAt_head hheaded hholds depth number lines
  rw [hline] at hc
  refine ⟨by rw [head_cons hc, hs], fun hr hread hcolon => ?_⟩
  exact test_reads hr hmiddle (by rw [hc]; rfl) hz hread hcolon

end Reading

/-- Whether the statements of a suite go on, and the next one if they do. -/
abbrev suiteStep (statement : Reader Nat) : Reader Bool := do
  if (← peek) = .dedent then return false
  else
    let _ ← statement
    return true

theorem suiteStep_dedent {statement : Reader Nat} {m : Nat} {c d : Cursor} {u : Unit} (hc : c.head.lexis = .dedent)
    (h : loop (suiteStep statement) m c = .ok (u, d)) : d = c := by
  cases m with
  | zero =>
    cases h
    rfl
  | succ m =>
    obtain ⟨b, d₁, hgo, h⟩ := bind_ok h
    obtain ⟨l, d₂, hpeek, hgo⟩ := bind_ok hgo
    cases hpeek
    rw [if_pos hc] at hgo
    cases hgo
    cases h
    rfl

theorem stmt_inline {s : Stmt} (hs : s.Sourced) (hclosing : ∀ n ∈ s.walk, n.SelfClosing) {depth number : Nat} {c : Cursor}
    {more : List Text} (hc : c.symbols = linesAt depth number (s.python depth ++ more)) :
    c.head.lexis.isInline = true := by
  obtain ⟨t, lines, hpython, _, hstarts⟩ := stmt_line hs hclosing depth
  obtain ⟨first, _, hfirst, hin, _⟩ := hstarts number (lines ++ more)
  rw [← List.cons_append, ← hpython, ← hc] at hfirst
  rwa [head_cons hfirst]

theorem suite_start {fuel : Nat} {e : Inner} {statement : Reader Nat} {depth number : Nat} {lines : List Text} {t : Text}
    {rest : List Text} (ht : Headed t) (hlines : lines = Python.line (depth + 1) t :: rest) {c c' : Cursor}
    {last : Symbol} {u : Unit} (hlast : last.lexis = .newline) (hc : c.symbols = last :: linesAt depth number lines)
    (h : suite fuel e statement c = .ok (u, c')) :
    ∃ count d d₁ d₂, d.symbols = linesAt (depth + 1) number lines ∧ statement d = .ok (count, d₁) ∧
      loop (suiteStep statement) fuel d₁ = .ok ((), d₂) ∧ expect .dedent d₂ = .ok (u, c') := by
  unfold suite at h
  rw [accept_same (by rw [head_cons hc, hlast])] at h
  obtain ⟨_, d, hindent, h⟩ := bind_ok h
  obtain ⟨count, d₁, hstatement, h⟩ := bind_ok h
  obtain ⟨_, d₂, hloop, h⟩ := bind_ok h
  obtain ⟨z, _, hdeeper⟩ := linesAt_deeper ht depth number rest
  refine ⟨count, d, d₁, d₂, ?_, hstatement, hloop, h⟩
  rw [(expect_ok hindent).2, hc, List.tail_cons, hlines, hdeeper, List.tail_cons]

section Trees

variable {fuel : Nat} {e : Inner} (he : Tame e)

include he

/-- An `if` is read up to the lines behind its first suite, if that is what reading the suite does. -/
theorem branch_start {cond : Expr} (hcond : cond.Sourced) (hclosing : ∀ n ∈ cond.walk, n.SelfClosing)
    {n depth number count : Nat} {c c' : Cursor} {lines rest : List Text}
    (hc : c.symbols = linesAt depth number (Python.line depth (utf8 "if " ++ cond.python ++ utf8 ":") :: lines))
    (hsuite : ∀ {d d' : Cursor} {last : Symbol} {u : Unit}, last.lexis = .newline →
      d.symbols = last :: linesAt depth (number + 1) lines → suite fuel e (reader fuel e n) d = .ok (u, d') →
        ∃ k, d'.symbols = linesAt depth k rest)
    (h : reader fuel e (n + 1) c = .ok (count, c')) :
    count = 1 ∧ ∃ k d d', d.symbols = linesAt depth k rest ∧
      loop (elifStep fuel e (reader fuel e n)) fuel d = .ok ((), d') ∧
      elseBlock fuel e (reader fuel e n) d' = .ok ((), c') := by
  obtain ⟨hword, hhead⟩ := head_reads (headed_if cond) (holds_if hcond hclosing) hc
  rw [reader] at h
  unfold statementWith at h
  rw [accept_same (by rw [hword]; decide)] at h
  obtain ⟨_, d, hif, h⟩ := bind_ok h
  cases h
  obtain ⟨_, d₁, htest, hif⟩ := bind_ok hif
  obtain ⟨_, d₂, hblock, hif⟩ := bind_ok hif
  obtain ⟨_, d₃, helif, helse⟩ := bind_ok hif
  obtain ⟨_, d₄, hcolon, hbody⟩ := bind_ok hblock
  obtain ⟨last, hlast, hd₄⟩ := hhead he.inline.test htest hcolon
  obtain ⟨k, hk⟩ := hsuite hlast hd₄ hbody
  exact ⟨rfl, k, d₂, d₃, hk, helif, helse⟩

/-- An `if` without an `else` ends behind its suite. -/
theorem branch_ends {n depth number : Nat} {c d c' : Cursor} {more : List Text} (hmore : Follows depth more)
    (hc : c.symbols = linesAt depth number more) (helif : loop (elifStep fuel e (reader fuel e n)) fuel c = .ok ((), d))
    (helse : elseBlock fuel e (reader fuel e n) d = .ok ((), c')) : c'.symbols = linesAt depth number more := by
  have hbarred := hmore.barred hc
  cases elif_barred he hbarred helif
  cases elseBlock_barred hbarred helse
  exact hc

end Trees

section Nesting

variable (fuel : Nat) (e : Inner)

/-- The statement is read as one, up to the lines behind it. -/
def StmtReads (s : Stmt) : Prop :=
  ∀ {n depth number count : Nat} {c c' : Cursor} {more : List Text}, Follows depth more →
    c.symbols = linesAt depth number (s.python depth ++ more) → reader fuel e n c = .ok (count, c') →
      count = 1 ∧ ∃ k, c'.symbols = linesAt depth k more

/-- The suite of the statements is read up to the lines behind it. -/
def SuiteReads (ss : List Stmt) : Prop :=
  ∀ {n depth number : Nat} {c c' : Cursor} {more : List Text} {last : Symbol} {u : Unit}, Shallow depth more →
    last.lexis = .newline →
    c.symbols = last :: linesAt depth number (Python.body (depth + 1) (pythonBlock (depth + 1) ss) ++ more) →
    suite fuel e (reader fuel e n) c = .ok (u, c') → ∃ k, c'.symbols = linesAt depth k more

/-- The statements of a suite are read up to the end of its indentation. -/
def BlockReads (ss : List Stmt) : Prop :=
  ∀ {n m depth number : Nat} {c d c' : Cursor} {more : List Text} {u v : Unit}, Shallow depth more →
    c.symbols = linesAt (depth + 1) number (pythonBlock (depth + 1) ss ++ more) →
    loop (suiteStep (reader fuel e n)) m c = .ok (v, d) → expect .dedent d = .ok (u, c') →
      ∃ k, c'.symbols = linesAt depth k more

variable {fuel e} (he : Tame e)

include he

theorem stmtReads_assign {s : Stmt} {name : Token} {value : Expr} (hname : name.Is .identifier) (hvalue : value.Sourced)
    (hclosing : ∀ n ∈ value.walk, n.SelfClosing)
    (hs : ∀ depth, s.python depth = [Python.line depth (name.lexeme ++ utf8 " = " ++ value.python)]) :
    StmtReads fuel e s := by
  intro n depth number count c c' more _ hc h
  rw [hs] at hc
  exact assign_reads he hname hvalue hclosing hc h

theorem stmtReads_print {keyword : Token} {value : Expr} (hvalue : value.Sourced)
    (hclosing : ∀ n ∈ value.walk, n.SelfClosing) : StmtReads fuel e (.print keyword value) := by
  intro n depth number count c c' more _ hc h
  rw [Stmt.python] at hc
  exact word_reads he (headed_print value) (holds_print hvalue hclosing) (by decide) hc h

theorem stmtReads_loop {keyword : Token} {cond : Expr} {body : List Stmt} (hcond : cond.Sourced)
    (hclosing : ∀ n ∈ cond.walk, n.SelfClosing) (hbody : SuiteReads fuel e body) :
    StmtReads fuel e (.loop keyword cond body) := by
  intro n depth number count c c' more hmore hc h
  cases n with
  | zero => cases h
  | succ n =>
    rw [Stmt.python, List.cons_append] at hc
    obtain ⟨hword, hhead⟩ := head_reads (headed_while cond) (holds_while hcond hclosing) hc
    rw [reader] at h
    unfold statementWith at h
    rw [accept_other (by rw [hword]; decide), accept_same (by rw [hword]; decide)] at h
    obtain ⟨_, d, hwhile, h⟩ := bind_ok h
    cases h
    obtain ⟨_, d₁, htest, hwhile⟩ := bind_ok hwhile
    obtain ⟨_, d₂, hblock, helse⟩ := bind_ok hwhile
    obtain ⟨_, d₃, hcolon, hsuite⟩ := bind_ok hblock
    obtain ⟨last, hlast, hd₃⟩ := hhead he.inline.test htest hcolon
    obtain ⟨k, hk⟩ := hbody hmore.shallow hlast hd₃ hsuite
    cases elseBlock_barred (hmore.barred hk) helse
    exact ⟨rfl, k, hk⟩

/-- An `if` whose text ends with its first suite. -/
theorem stmtReads_branch {keyword : Token} {cond : Expr} {yes : List Stmt} {no : Option (List Stmt)}
    (hcond : cond.Sourced) (hclosing : ∀ n ∈ cond.walk, n.SelfClosing) (hyes : SuiteReads fuel e yes)
    (hno : no = none ∨ no = some []) : StmtReads fuel e (.branch keyword cond yes no) := by
  intro n depth number count c c' more hmore hc h
  have hpython : (Stmt.branch keyword cond yes no).python depth =
      Python.line depth (utf8 "if " ++ cond.python ++ utf8 ":") ::
        Python.body (depth + 1) (pythonBlock (depth + 1) yes) := by
    rcases hno with rfl | rfl <;> simp only [Stmt.python, List.append_nil]
  cases n with
  | zero => cases h
  | succ n =>
    rw [hpython, List.cons_append] at hc
    obtain ⟨hcount, k, d, d', hd, helif, helse⟩ := branch_start he hcond hclosing hc (hyes hmore.shallow) h
    exact ⟨hcount, k, branch_ends he hmore hd helif helse⟩

theorem stmtReads_branchElse {keyword : Token} {cond : Expr} {yes : List Stmt} {s : Stmt} {ss : List Stmt}
    (hcond : cond.Sourced) (hclosing : ∀ n ∈ cond.walk, n.SelfClosing) (hyes : SuiteReads fuel e yes)
    (hno : SuiteReads fuel e (s :: ss)) : StmtReads fuel e (.branch keyword cond yes (some (s :: ss))) := by
  intro n depth number count c c' more hmore hc h
  cases n with
  | zero => cases h
  | succ n =>
    simp only [Stmt.python, List.cons_append, List.append_assoc] at hc
    have hshallow : Shallow depth (Python.line depth (utf8 "else:") ::
        (Python.body (depth + 1) (pythonBlock (depth + 1) (s :: ss)) ++ more)) := by
      rintro _ ⟨⟩
      exact ⟨depth, _, Nat.le_refl _, headed_else, rfl⟩
    obtain ⟨hcount, k, d, d', hd, helif, helse⟩ := branch_start he hcond hclosing hc (hyes hshallow) h
    obtain ⟨hword, hhead⟩ := head_reads headed_else holds_else hd
    -- The `else` is no further branch, so the loop over those leaves it to be read here.
    have helseword : d.head.lexis = word "else" := hword
    cases elif_other (by rw [helseword]; decide) helif
    unfold elseBlock at helse
    rw [accept_same helseword] at helse
    obtain ⟨_, d₁, hcolon, hsuite⟩ := bind_ok helse
    obtain ⟨last, hlast, hd₁⟩ := hhead (inline_pure ()) rfl hcolon
    exact ⟨hcount, hno hmore.shallow hlast hd₁ hsuite⟩

omit he in
theorem blockReads_nil : BlockReads fuel e [] := by
  intro n m depth number c d c' more u v hmore hc hloop h
  obtain ⟨z, hz, hline⟩ := linesAt_shallow hmore number
  rw [pythonBlock, List.nil_append, hline] at hc
  have hd := suiteStep_dedent (by rw [head_cons hc, hz]) hloop
  refine ⟨number, ?_⟩
  rw [(expect_ok h).2, hd, hc, List.tail_cons]

theorem suiteReads_nil : SuiteReads fuel e [] := by
  intro n depth number c c' more last u hmore hlast hc h
  obtain ⟨count, d, d₁, d₂, hd, hstatement, hloop, h⟩ := suite_start headed_pass rfl hlast hc h
  obtain ⟨_, k, hk⟩ := word_reads he headed_pass holds_pass (by decide) hd hstatement
  exact blockReads_nil hmore hk hloop h

omit he

variable {s : Stmt} {rest : List Stmt} (hs : s.Sourced) (hrest : BlockSourced rest)
  (hclosing : ∀ n ∈ s.walk, n.SelfClosing) (hclosings : ∀ n ∈ walkBlock rest, n.SelfClosing)

include hs hrest hclosing hclosings

theorem blockReads_cons (hread : StmtReads fuel e s) (hreads : BlockReads fuel e rest) :
    BlockReads fuel e (s :: rest) := by
  intro n m depth number c d c' more u v hmore hc hloop h
  rw [pythonBlock, List.append_assoc] at hc
  have hdedent : c.head.lexis ≠ .dedent := fun heq => by
    have hin := stmt_inline hs hclosing hc
    rw [heq] at hin
    cases hin
  cases m with
  | zero =>
    cases hloop
    exact absurd (expect_ok h).1 hdedent
  | succ m =>
    obtain ⟨b, d₁, hgo, hloop⟩ := bind_ok hloop
    obtain ⟨l, d₂, hpeek, hgo⟩ := bind_ok hgo
    cases hpeek
    rw [if_neg hdedent] at hgo
    obtain ⟨count, d₃, hstatement, hgo⟩ := bind_ok hgo
    cases hgo
    obtain ⟨_, k, hk⟩ := hread (follows_block hrest hclosings (follows_shallow hmore)) hc hstatement
    exact hreads hmore hk hloop h

theorem suiteReads_cons (hread : StmtReads fuel e s) (hreads : BlockReads fuel e rest) :
    SuiteReads fuel e (s :: rest) := by
  intro n depth number c c' more last u hmore hlast hc h
  obtain ⟨t, lines, hpython, ht, _⟩ := stmt_line hs hclosing (depth + 1)
  have hbody : Python.body (depth + 1) (pythonBlock (depth + 1) (s :: rest)) ++ more =
      s.python (depth + 1) ++ (pythonBlock (depth + 1) rest ++ more) := by
    simp [Python.body, pythonBlock, hpython]
  rw [hbody] at hc
  obtain ⟨count, d, d₁, d₂, hd, hstatement, hloop, h⟩ := suite_start ht (by rw [hpython]; rfl) hlast hc h
  obtain ⟨_, k, hk⟩ := hread (follows_block hrest hclosings (follows_shallow hmore)) hd hstatement
  exact hreads hmore hk hloop h

end Nesting

mutual

theorem stmt_reads {fuel : Nat} {e : Inner} (he : Tame e) : ∀ {s : Stmt}, s.Sourced → (∀ n ∈ s.walk, n.SelfClosing) →
    StmtReads fuel e s
  | .create _ _, hs, hclosing =>
    stmtReads_assign he hs.1 hs.2 (fun n hn => hclosing n (by simp [Stmt.walk, hn])) fun depth => Stmt.python.eq_def depth _
  | .assign _ _, hs, hclosing =>
    stmtReads_assign he hs.1 hs.2 (fun n hn => hclosing n (by simp [Stmt.walk, hn])) fun depth => Stmt.python.eq_def depth _
  | .print _ _, hs, hclosing => stmtReads_print he hs.2 fun n hn => hclosing n (by simp [Stmt.walk, hn])
  | .branch _ _ _ none, hs, hclosing =>
    stmtReads_branch he hs.2.1 (fun n hn => hclosing n (by simp [Stmt.walk, hn]))
      (suite_reads he hs.2.2.1 fun n hn => hclosing n (by simp [Stmt.walk, hn])) (Or.inl rfl)
  | .branch _ _ _ (some []), hs, hclosing =>
    stmtReads_branch he hs.2.1 (fun n hn => hclosing n (by simp [Stmt.walk, hn]))
      (suite_reads he hs.2.2.1 fun n hn => hclosing n (by simp [Stmt.walk, hn])) (Or.inr rfl)
  | .branch _ _ _ (some (_ :: _)), hs, hclosing =>
    stmtReads_branchElse he hs.2.1 (fun n hn => hclosing n (by simp [Stmt.walk, hn]))
      (suite_reads he hs.2.2.1 fun n hn => hclosing n (by simp [Stmt.walk, hn]))
      (suite_reads he hs.2.2.2 fun n hn => hclosing n (by simp [Stmt.walk, hn]))
  | .loop _ _ _, hs, hclosing =>
    stmtReads_loop he hs.2.1 (fun n hn => hclosing n (by simp [Stmt.walk, hn]))
      (suite_reads he hs.2.2 fun n hn => hclosing n (by simp [Stmt.walk, hn]))
  | .hole, hs, _ => hs.elim

theorem suite_reads {fuel : Nat} {e : Inner} (he : Tame e) : ∀ {ss : List Stmt}, BlockSourced ss →
    (∀ n ∈ walkBlock ss, n.SelfClosing) → SuiteReads fuel e ss
  | [], _, _ => suiteReads_nil he
  | _ :: _, hs, hclosing =>
    suiteReads_cons hs.1 hs.2 (fun n hn => hclosing n (by simp [walkBlock, hn]))
      (fun n hn => hclosing n (by simp [walkBlock, hn]))
      (stmt_reads he hs.1 fun n hn => hclosing n (by simp [walkBlock, hn]))
      (block_reads he hs.2 fun n hn => hclosing n (by simp [walkBlock, hn]))

theorem block_reads {fuel : Nat} {e : Inner} (he : Tame e) : ∀ {ss : List Stmt}, BlockSourced ss →
    (∀ n ∈ walkBlock ss, n.SelfClosing) → BlockReads fuel e ss
  | [], _, _ => blockReads_nil
  | _ :: _, hs, hclosing =>
    blockReads_cons hs.1 hs.2 (fun n hn => hclosing n (by simp [walkBlock, hn]))
      (fun n hn => hclosing n (by simp [walkBlock, hn]))
      (stmt_reads he hs.1 fun n hn => hclosing n (by simp [walkBlock, hn]))
      (block_reads he hs.2 fun n hn => hclosing n (by simp [walkBlock, hn]))

end

/-- The statements of a block at the outer depth are read one by one up to the end of the file. -/
theorem file_reads {fuel : Nat} {e : Inner} (he : Tame e) {m : Nat} : ∀ {ss : List Stmt}, BlockSourced ss →
    (∀ n ∈ walkBlock ss, n.SelfClosing) → ∀ {n number count : Nat} {c c' : Cursor},
    c.symbols = linesAt 0 number (pythonBlock 0 ss) → file (reader fuel e m) n c = .ok (count, c') → count = ss.length := by
  intro ss
  induction ss with
  | nil =>
    intro _ _ n number count c c' hc h
    cases n with
    | zero => cases h
    | succ n =>
      obtain ⟨l, d, hpeek, h⟩ := bind_ok h
      cases hpeek
      rw [if_pos (by rw [head_cons hc])] at h
      cases h
      rfl
  | cons s rest ih =>
    intro hs hclosing n number count c c' hc h
    have hfirst : ∀ n ∈ s.walk, n.SelfClosing := fun n hn => hclosing n (by simp [walkBlock, hn])
    have hrest : ∀ n ∈ walkBlock rest, n.SelfClosing := fun n hn => hclosing n (by simp [walkBlock, hn])
    rw [pythonBlock] at hc
    have hin := stmt_inline hs.1 hfirst hc
    cases n with
    | zero => cases h
    | succ n =>
      obtain ⟨l, d, hpeek, h⟩ := bind_ok h
      cases hpeek
      rw [if_neg (fun heq => by rw [heq] at hin; cases hin),
        accept_other (fun heq => by rw [heq] at hin; cases hin)] at h
      obtain ⟨first, d₁, hstatement, h⟩ := bind_ok h
      obtain ⟨others, d₂, hfile, h⟩ := bind_ok h
      cases h
      have hfollows : Follows 0 (pythonBlock 0 rest) := by
        have hnext : Follows 0 (pythonBlock 0 rest ++ []) := follows_block hs.2 hrest (Or.inl rfl)
        rwa [List.append_nil] at hnext
      obtain ⟨rfl, k, hk⟩ := stmt_reads he hs.1 hfirst hfollows hc hstatement
      rw [ih hs.2 hrest hk hfile, List.length_cons, Nat.add_comm]

end Statement

theorem symbols_python {p : Program} (h : BlockSourced p) :
    symbols (Program.python p) = linesAt 0 4 (pythonBlock 0 p) := by
  rw [symbols, h.splitLines_python]
  rfl

/-- A generated text whose literals close at their own quotes has as many statements as its program, if it is Python. -/
theorem check_python {p : Program} (h : BlockSourced p) (hclosing : ∀ n ∈ walkBlock p, n.SelfClosing) {count : Nat}
    (hcheck : check (Program.python p) = .ok count) : count = p.length := by
  unfold check at hcheck
  simp only at hcheck
  split at hcheck
  next => cases hcheck
  next found cursor hread =>
    split at hcheck
    next => cases hcheck
    next =>
      cases hcheck
      exact Statement.file_reads (Statement.tame_reader _ _) h hclosing (symbols_python h) hread

end Python

namespace Compiler

/-- A compilation that reports success has come to the code of a program. -/
theorem compile_emits [Python.Checker] {c : Compiler} {source : Text} (h : (c.compile source).1.success = true) :
    ∃ (d : Compiler) (p : Program), d.verify = c.verify ∧ parseSource source = .ok p ∧ c.compile source = d.emit p := by
  by_cases hblank : source.isBlank
  · simp [compile, hblank, fail] at h
  · cases hlex : lex source with
    | error e => simp [compile, hblank, hlex, fail] at h
    | ok tokens =>
      cases hparse : parseProgram tokens with
      | error e => simp [compile, hblank, hlex, hparse, fail] at h
      | ok p =>
        refine ⟨{ Compiler.new c.verify with tokens := tokens }, p, rfl, by simp [parseSource, hlex, hparse], ?_⟩
        simp [compile, hblank, hlex, hparse]

theorem emit_success [Python.Checker] {c : Compiler} {p : Program} (hverify : c.verify = true)
    (h : (c.emit p).1.success = true) : (c.emit p).2.program = some p ∧ (c.emit p).2.code = Program.python p ∧
      ∃ count, Python.Checker.verdict (Program.python p) = .ok count := by
  cases hcheck : Python.Checker.verdict (Program.python p) with
  | error e => simp [emit, hverify, hcheck, fail] at h
  | ok count => simp [emit, hverify, hcheck, succeed]

/-- A compilation that was verified and reports success has as many statements in Python as in its program, if every string
literal closes at its own quote. -/
theorem verified_statement_count {c : Compiler} {source : Text} (hverify : c.verify = true)
    (hsuccess : (c.compile source).1.success = true)
    (hclosing : ∀ p ∈ (c.compile source).2.program, ∀ n ∈ Program.walk p, n.SelfClosing) :
    ∃ p, (c.compile source).2.program = some p ∧ Python.check (c.compile source).2.code = .ok p.length := by
  obtain ⟨d, p, hd, hparse, hemit⟩ := compile_emits hsuccess
  rw [hemit] at hsuccess hclosing ⊢
  obtain ⟨hprogram, hcode, count, hverdict⟩ := emit_success (hd.trans hverify) hsuccess
  have hcount : Python.check (Program.python p) = .ok count := hverdict
  have hnodes : ∀ n ∈ walkBlock p, n.SelfClosing := fun n hn => hclosing p hprogram n (List.mem_cons_of_mem _ hn)
  refine ⟨p, hprogram, ?_⟩
  rw [hcode, hcount, Python.check_python (parseSource_sourced hparse) hnodes hcount]

/-- Texts of literals that look like code, next to a literal that ends in two backslashes. -/
theorem verified_statement_count_codelike :
    let source := Text.unlines [utf8 "IF x IS GREATER THAN 1 THEN", utf8 "PRINT \"a; b:\"", utf8 "ELSE", utf8 "END IF",
      utf8 "PRINT \"\\\\\" + \")); print(1) #\""]
    (Compiler.new true).verify = true ∧ ((Compiler.new true).compile source).1.success = true ∧
      ∃ p, ((Compiler.new true).compile source).2.program = some p ∧
        Python.check ((Compiler.new true).compile source).2.code = .ok p.length := by
  intro source
  have hsuccess : ((Compiler.new true).compile source).1.success = true := by decide +kernel
  have hclosing : (((Compiler.new true).compile source).2.program.all fun p => (Program.walk p).all Node.selfClosing) =
      true := by decide +kernel
  rw [Option.all_eq_true] at hclosing
  exact ⟨rfl, hsuccess, verified_statement_count rfl hsuccess
    fun p hp => List.all_eq_true.mp (hclosing p hp)⟩

/-- A literal that ends in one backslash goes on in Python up to the next quote, and what the next literal holds is read
as code: the one statement of the program becomes two. -/
theorem escaped_quote_adds_statement :
    let result := (Compiler.new true).compile (utf8 "PRINT \"\\\" + \")); print(1) #\"")
    result.1.success = true ∧ result.2.program.map List.length = some 1 ∧
      (Python.check result.2.code).toOption = some 2 := by
  decide +kernel

end Compiler

end EnglishScript
