import EnglishScript.Proofs.AcceptedReading
import EnglishScript.Proofs.StatementCount

namespace EnglishScript

namespace Python

open Reader Expression Scan

namespace Statement

/-- The symbols that a statement starts with in a generated text without keywords as names. -/
def StartsStatement (l : Lexis) : Prop :=
  (∃ t, l = .name t) ∨ l = word "if" ∨ l = word "while"

theorem StartsStatement.ne {l other : Lexis} (h : StartsStatement l) (hname : ∀ t, other ≠ .name t)
    (hother : other ∉ [word "if", word "while"]) : l ≠ other := by
  rintro rfl
  rcases h with ⟨t, rfl⟩ | rfl | rfl
  · exact hname t rfl
  · exact hother (by simp)
  · exact hother (by simp)

theorem stmt_first {s : Stmt} (h : s.Sourced) (haccepted : ∀ n ∈ s.walk, n.Accepted) (depth : Nat) :
    ∃ t lines l ls, s.python depth = Python.line depth t :: lines ∧ Headed t ∧ Gives (l :: ls) t [] 0 ∧
      StartsStatement l := by
  cases s with
  | create name value =>
    exact ⟨_, [], _, _, Stmt.python.eq_def _ _, headed_assign h.1 value,
      gives_assign h.1 (haccepted (.stmt (.create name value)) (by simp [Stmt.walk])) h.2
        fun n hn => haccepted n (by simp [Stmt.walk, hn]), Or.inl ⟨_, rfl⟩⟩
  | assign name value =>
    exact ⟨_, [], _, _, Stmt.python.eq_def _ _, headed_assign h.1 value,
      gives_assign h.1 (haccepted (.stmt (.assign name value)) (by simp [Stmt.walk])) h.2
        fun n hn => haccepted n (by simp [Stmt.walk, hn]), Or.inl ⟨_, rfl⟩⟩
  | print keyword value =>
    exact ⟨_, [], _, _, Stmt.python.eq_def _ _, headed_print value,
      gives_print h.2 fun n hn => haccepted n (by simp [Stmt.walk, hn]), Or.inl ⟨_, rfl⟩⟩
  | branch keyword cond yes no =>
    have hcond : cond.Sourced := by
      rw [Stmt.Sourced.eq_def] at h
      exact h.2.1
    exact ⟨_, _, _, _, Stmt.python.eq_def _ _, headed_if cond,
      gives_if hcond fun n hn => haccepted n (by cases no <;> simp [Stmt.walk, hn]), Or.inr (Or.inl rfl)⟩
  | loop keyword cond body =>
    exact ⟨_, _, _, _, Stmt.python.eq_def _ _, headed_while cond,
      gives_while h.2.1 fun n hn => haccepted n (by simp [Stmt.walk, hn]), Or.inr (Or.inr rfl)⟩
  | hole => exact h.elim

/-- What can stand behind a statement at a depth: it is not indented further, and it is no part of the statement. -/
structure Trails (depth : Nat) (lines : List Text) : Prop where
  shallow : Shallow depth lines
  head : ∀ number k, (Cursor.mk (linesAt depth number lines) k).head.lexis ≠ word "else" ∧
    (Cursor.mk (linesAt depth number lines) k).head.lexis ≠ word "elif"

theorem head_stmt {s : Stmt} (h : s.Sourced) (haccepted : ∀ n ∈ s.walk, n.Accepted) (depth number : Nat)
    (rest : List Text) (k : Option Text) :
    StartsStatement (Cursor.mk (linesAt depth number (s.python depth ++ rest)) k).head.lexis := by
  obtain ⟨t, lines, l, ls, hpython, ht, hgives, hl⟩ := stmt_first h haccepted depth
  obtain ⟨front, z, hfront, _, hline⟩ := linesAt_gives ht hgives depth number (lines ++ rest)
  obtain ⟨first, more, rfl, rfl, _⟩ := List.map_eq_cons_iff.mp hfront
  rw [hpython, List.cons_append, hline]
  exact hl

theorem trails_stmt {s : Stmt} (h : s.Sourced) (haccepted : ∀ n ∈ s.walk, n.Accepted) (depth : Nat) (rest : List Text) :
    Trails depth (s.python depth ++ rest) := by
  refine ⟨?_, fun number k => ?_⟩
  · obtain ⟨t, lines, _, _, hpython, ht, _, _⟩ := stmt_first h haccepted depth
    rw [hpython]
    rintro _ ⟨⟩
    exact ⟨depth, t, Nat.le_refl _, ht, rfl⟩
  · have hstarts := head_stmt h haccepted depth number rest k
    exact ⟨hstarts.ne (by simp) (by decide), hstarts.ne (by simp) (by decide)⟩

theorem trails_shallow {depth : Nat} {lines : List Text} (h : Shallow depth lines) : Trails (depth + 1) lines := by
  refine ⟨fun l hl => ?_, fun number k => ?_⟩
  · obtain ⟨j, t, hj, ht, rfl⟩ := h l hl
    exact ⟨j, t, Nat.le_succ_of_le hj, ht, rfl⟩
  · obtain ⟨z, hz, hline⟩ := linesAt_shallow h number
    rw [hline, head_cons rfl, hz]
    exact ⟨by simp, by simp⟩

theorem trails_nil : Trails 0 [] :=
  ⟨by rintro _ ⟨⟩, fun _ _ => ⟨by simp [linesFrom, endSymbols, levels, Cursor.head], by
    simp [linesFrom, endSymbols, levels, Cursor.head]⟩⟩

theorem trails_block {depth : Nat} {ss : List Stmt} (h : BlockSourced ss) (haccepted : ∀ n ∈ walkBlock ss, n.Accepted)
    {lines : List Text} (hlines : Trails depth lines) : Trails depth (pythonBlock depth ss ++ lines) := by
  cases ss with
  | nil => exact hlines
  | cons s rest =>
    rw [pythonBlock, List.append_assoc]
    exact trails_stmt h.1 (fun n hn => haccepted n (by simp [walkBlock, hn])) depth _

theorem nesting_lt_lexes {e : Expr} (h : e.Sourced) : nesting e < e.lexes.length := by
  induction e with
  | operation form left op right ihl ihr =>
    have hl := ihl h.1
    have hr := ihr h.2.2
    simp only [nesting, Expr.lexes, List.length_cons, List.length_append, List.length_nil]
    omega
  | hole => exact h.elim
  | _ => exact Nat.zero_lt_one

/-- The symbols of the lines are fewer than the fuel, and no more than the depth that the reader can go to. -/
structure Fits (fuel n depth number : Nat) (lines : List Text) : Prop where
  fuel : (linesAt depth number lines).length < fuel
  depth : (linesAt depth number lines).length ≤ n

theorem Fits.of_le {fuel n depth number depth' number' : Nat} {lines lines' : List Text}
    (h : Fits fuel n depth number lines)
    (hle : (linesAt depth' number' lines').length ≤ (linesAt depth number lines).length) :
    Fits fuel n depth' number' lines' :=
  ⟨Nat.lt_of_le_of_lt hle h.fuel, Nat.le_trans hle h.depth⟩

/-- With fewer symbols left, one level of nesting less is enough. -/
theorem Fits.of_lt {fuel n depth number depth' number' : Nat} {lines lines' : List Text}
    (h : Fits fuel (n + 1) depth number lines)
    (hlt : (linesAt depth' number' lines').length < (linesAt depth number lines).length) :
    Fits fuel n depth' number' lines' :=
  ⟨Nat.lt_trans hlt h.fuel, Nat.le_of_lt_succ (Nat.lt_of_lt_of_le hlt h.depth)⟩

theorem Fits.level {fuel n depth number : Nat} {t : Text} {ls : List Lexis} {lines : List Text} (ht : Headed t)
    (hgives : Gives ls t [] 0) (h : Fits fuel n depth number (Python.line depth t :: lines)) : ∃ m, n = m + 1 := by
  obtain ⟨front, z, _, _, hline⟩ := linesAt_gives ht hgives depth number lines
  have hdepth := h.depth
  rw [hline, List.length_append, List.length_cons] at hdepth
  exact Nat.exists_eq_add_one_of_ne_zero (by omega)

section Reading

variable (fuel : Nat)

/-- The reader takes one statement off the lines, so that fewer symbols are left. -/
def Takes (n depth number : Nat) (lines more : List Text) : Prop :=
  ∀ k, ∃ j, reader fuel (Expression.reader fuel fuel) n ⟨linesAt depth number lines, k⟩ =
      .ok (1, ⟨linesAt depth j more, k⟩) ∧
    (linesAt depth j more).length < (linesAt depth number lines).length

/-- The reader takes the suite behind the end of a head off the lines. -/
def TakesSuite (n depth number : Nat) (lines more : List Text) : Prop :=
  ∀ (last : Symbol) k, last.lexis = .newline →
    ∃ j, suite fuel (Expression.reader fuel fuel) (reader fuel (Expression.reader fuel fuel) n)
        ⟨last :: linesAt depth number lines, k⟩ = .ok ((), ⟨linesAt depth j more, k⟩) ∧
      (linesAt depth j more).length ≤ (linesAt depth number lines).length

/-- The reader takes the statements up to the end of an indentation off the lines. -/
def TakesBlock (n m depth number : Nat) (lines more : List Text) : Prop :=
  ∀ k, ∃ j, loop (suiteStep (reader fuel (Expression.reader fuel fuel) n)) m ⟨linesAt depth number lines, k⟩ =
        .ok ((), ⟨linesAt depth j more, k⟩) ∧
      (linesAt depth j more).length ≤ (linesAt depth number lines).length

/-- The statement is taken off the lines wherever it stands. -/
def StmtTaken (s : Stmt) : Prop :=
  ∀ {n depth number : Nat} {more : List Text}, Trails depth more → Fits fuel n depth number (s.python depth ++ more) →
    Takes fuel n depth number (s.python depth ++ more) more

/-- The suite of the statements is taken off the lines. -/
def SuiteTaken (ss : List Stmt) : Prop :=
  ∀ {n depth number : Nat} {more : List Text}, Shallow depth more →
    Fits fuel n depth number (Python.body (depth + 1) (pythonBlock (depth + 1) ss) ++ more) →
    TakesSuite fuel n depth number (Python.body (depth + 1) (pythonBlock (depth + 1) ss) ++ more) more

/-- The statements are taken off the lines of a suite. -/
def BlockTaken (ss : List Stmt) : Prop :=
  ∀ {n m depth number : Nat} {more : List Text}, Shallow depth more →
    Fits fuel n (depth + 1) number (pythonBlock (depth + 1) ss ++ more) →
    (linesAt (depth + 1) number (pythonBlock (depth + 1) ss ++ more)).length ≤ m →
    TakesBlock fuel n m (depth + 1) number (pythonBlock (depth + 1) ss ++ more) more

variable {fuel}

/-- A line without a body, by the reading of its symbols. -/
theorem takes_line {ls : List Lexis} {t : Text} (ht : Headed t) (hgives : Gives ls t [] 0)
    (hread : ∀ {front : List Symbol} {z : Symbol} {rest : List Symbol} {k : Option Text}, front.map (·.lexis) = ls →
      z.lexis = .newline → front.length < fuel →
      (Cursor.mk (front ++ z :: rest) k).head.lexis ∉ openers ∧
        line fuel (Expression.reader fuel fuel) fuel ⟨front ++ z :: rest, k⟩ = .ok (1, ⟨rest, k⟩))
    {n depth number : Nat} {more : List Text} (hfits : Fits fuel n depth number (Python.line depth t :: more)) :
    Takes fuel n depth number (Python.line depth t :: more) more := by
  intro k
  obtain ⟨n, rfl⟩ := hfits.level ht hgives
  obtain ⟨front, z, hfront, hz, hline⟩ := linesAt_gives ht hgives depth number more
  have hfuel := hfits.fuel
  rw [hline, List.length_append, List.length_cons] at hfuel
  obtain ⟨hopeners, hread⟩ := hread hfront hz (by omega)
  refine ⟨number + 1, ?_, ?_⟩
  · rw [hline]
    exact (statementWith_line hopeners).trans hread
  · rw [hline, List.length_append, List.length_cons]
    omega

theorem name_not_mem_openers (t : Text) : .name t ∉ openers := by
  simp [openers]

theorem takes_assign {name : Token} {value : Expr} (hname : name.Is .identifier) (hcheck : checkName name = none)
    (hvalue : value.Sourced) (haccepted : ∀ n ∈ value.walk, n.Accepted) {n depth number : Nat} {more : List Text}
    (hfits : Fits fuel n depth number (Python.line depth (name.lexeme ++ utf8 " = " ++ value.python) :: more)) :
    Takes fuel n depth number (Python.line depth (name.lexeme ++ utf8 " = " ++ value.python) :: more) more := by
  refine takes_line (headed_assign hname value) (gives_assign hname hcheck hvalue haccepted) ?_ hfits
  intro front z rest k hfront hz hlength
  obtain ⟨s, _, rfl, hs, hrest⟩ := List.map_eq_cons_iff.mp hfront
  obtain ⟨equals, values, rfl, hequals, hvalues⟩ := List.map_eq_cons_iff.mp hrest
  have hnesting := nesting_lt_lexes hvalue
  rw [← hvalues, List.length_map] at hnesting
  simp only [List.length_cons] at hlength
  refine ⟨?_, line_assign hvalue hs hz hvalues hequals (by omega)⟩
  rw [List.cons_append, head_cons rfl, hs]
  exact name_not_mem_openers _

theorem takes_print {value : Expr} (hvalue : value.Sourced) (haccepted : ∀ n ∈ value.walk, n.Accepted)
    {n depth number : Nat} {more : List Text}
    (hfits : Fits fuel n depth number (Python.line depth (utf8 "print(" ++ value.python ++ utf8 ")") :: more)) :
    Takes fuel n depth number (Python.line depth (utf8 "print(" ++ value.python ++ utf8 ")") :: more) more := by
  refine takes_line (headed_print value) (gives_print hvalue haccepted) ?_ hfits
  intro front z rest k hfront hz hlength
  obtain ⟨s, _, rfl, hs, hrest⟩ := List.map_eq_cons_iff.mp hfront
  obtain ⟨o, _, rfl, ho, hrest⟩ := List.map_eq_cons_iff.mp hrest
  obtain ⟨values, _, rfl, hvalues, hrest⟩ := List.map_eq_append_iff.mp hrest
  obtain ⟨y, _, rfl, hy, hnil⟩ := List.map_eq_cons_iff.mp hrest
  cases List.map_eq_nil_iff.mp hnil
  have hnesting := nesting_lt_lexes hvalue
  rw [← hvalues, List.length_map] at hnesting
  simp only [List.length_cons, List.length_append, List.length_nil] at hlength
  refine ⟨?_, ?_⟩
  · rw [List.cons_append, head_cons rfl, hs]
    exact name_not_mem_openers _
  · have hline : line fuel (Expression.reader fuel fuel) fuel ⟨s :: o :: (values ++ y :: z :: rest), k⟩ =
        .ok (1, ⟨rest, k⟩) := line_print hvalue hs hz hvalues ho hy (by omega)
    simpa using hline

theorem takes_pass {n depth number : Nat} {more : List Text}
    (hfits : Fits fuel n depth number (Python.line depth (utf8 "pass") :: more)) :
    Takes fuel n depth number (Python.line depth (utf8 "pass") :: more) more := by
  refine takes_line headed_pass gives_pass ?_ hfits
  intro front z rest k hfront hz hlength
  obtain ⟨s, _, rfl, hs, hnil⟩ := List.map_eq_cons_iff.mp hfront
  cases List.map_eq_nil_iff.mp hnil
  refine ⟨?_, line_pass (Nat.zero_lt_of_lt hlength) hs hz⟩
  rw [List.cons_append, head_cons rfl, hs]
  decide

theorem block_colon {e : Inner} {statement : Reader Nat} {colon : Symbol} (hcolon : colon.lexis = mark ":")
    (rest : List Symbol) (k : Option Text) :
    block fuel e statement ⟨colon :: rest, k⟩ = suite fuel e statement ⟨rest, k⟩ := by
  rw [block, bind_of_ok (expect_same (show (Cursor.mk (colon :: rest) k).head.lexis = mark ":" from hcolon))]
  rfl

/-- The symbols of a head and its body: the word, a condition that is read up to the colon, a suite that is taken. -/
theorem head_taken {w : Lexis} {t : Text} {cond : Expr} (ht : Headed t) (hcond : cond.Sourced)
    (hgives : Gives (w :: (cond.lexes ++ [mark ":"])) t [] 0) {n depth number : Nat} {lines more : List Text}
    (hfits : Fits fuel (n + 1) depth number (Python.line depth t :: lines))
    (hbody : Fits fuel n depth (number + 1) lines → TakesSuite fuel n depth (number + 1) lines more) :
    ∃ s rest, s.lexis = w ∧ linesAt depth number (Python.line depth t :: lines) = s :: rest ∧
      ∀ k, ∃ shape d j, (Expression.reader fuel fuel).test ⟨rest, k⟩ = .ok (shape, d) ∧
        block fuel (Expression.reader fuel fuel) (reader fuel (Expression.reader fuel fuel) n) d =
          .ok ((), ⟨linesAt depth j more, k⟩) ∧ (linesAt depth j more).length < rest.length := by
  obtain ⟨front, last, hfront, hlast, hline⟩ := linesAt_gives ht hgives depth number lines
  obtain ⟨s, _, rfl, hs, hrest⟩ := List.map_eq_cons_iff.mp hfront
  obtain ⟨conds, _, rfl, hconds, hrest⟩ := List.map_eq_append_iff.mp hrest
  obtain ⟨colon, _, rfl, hcolon, hnil⟩ := List.map_eq_cons_iff.mp hrest
  cases List.map_eq_nil_iff.mp hnil
  have hlength := congrArg List.length hline
  simp only [List.length_cons, List.length_append, List.length_nil] at hlength
  refine ⟨s, _, hs, hline, fun k => ?_⟩
  have hnesting := nesting_lt_lexes hcond
  rw [← hconds, List.length_map] at hnesting
  have hdepth : nesting cond < fuel := by
    have := hfits.fuel
    omega
  have hcloser : (Cursor.mk (colon :: last :: linesAt depth (number + 1) lines) k).head.lexis ∈ closers := by
    rw [head_cons rfl, hcolon]
    decide
  obtain ⟨shape, htest⟩ := test_accepts fuel hcond hdepth hconds hcloser
  obtain ⟨j, hsuite, hle⟩ := hbody (hfits.of_lt (by omega)) last k hlast
  refine ⟨shape, _, j, ?_, (block_colon hcolon _ k).trans hsuite, ?_⟩
  · simpa using htest
  · simp only [List.append_eq, List.length_append, List.length_cons, List.length_nil]
    omega

theorem suiteStep_goes {statement : Reader Nat} {c d : Cursor} {count : Nat} (hc : c.head.lexis ≠ .dedent)
    (h : statement c = .ok (count, d)) : suiteStep statement c = .ok (true, d) := by
  rw [suiteStep, bind_of_ok (show peek c = .ok (c.head.lexis, c) from rfl), if_neg hc, bind_of_ok h]
  rfl

theorem blockTaken_nil : BlockTaken fuel [] := by
  intro n m depth number more hmore _ _ k
  obtain ⟨z, hz, hline⟩ := linesAt_shallow hmore number
  refine ⟨number, loop_stops ?_ m, Nat.le_refl _⟩
  have hhead : (Cursor.mk (linesAt (depth + 1) number more) k).head.lexis = .dedent := by rw [hline, head_cons rfl, hz]
  rw [pythonBlock, List.nil_append, suiteStep, bind_of_ok (show peek _ = .ok (_, _) from rfl), if_pos hhead]
  rfl

/-- A suite is taken if its first statement is, and the others behind it are. -/
theorem takesSuite_cons {n depth number : Nat} {t : Text} {lines middle more : List Text} (ht : Headed t)
    (hmore : Shallow depth more) (hfits : Fits fuel n depth number (Python.line (depth + 1) t :: lines))
    (hfirst : Fits fuel n (depth + 1) number (Python.line (depth + 1) t :: lines) →
      Takes fuel n (depth + 1) number (Python.line (depth + 1) t :: lines) middle)
    (hrest : ∀ j, Fits fuel n (depth + 1) j middle → TakesBlock fuel n fuel (depth + 1) j middle more) :
    TakesSuite fuel n depth number (Python.line (depth + 1) t :: lines) more := by
  intro last k hlast
  obtain ⟨indent, hindent, hdeeper⟩ := linesAt_deeper ht depth number lines
  have hlength := congrArg List.length hdeeper
  rw [List.length_cons] at hlength
  obtain ⟨j, hread, hshorter⟩ := hfirst (hfits.of_le (by omega)) k
  obtain ⟨i, hloop, hle⟩ := hrest j (hfits.of_le (by omega)) k
  obtain ⟨dedent, hdedent, hshallow⟩ := linesAt_shallow hmore i
  have hcloses : expect .dedent ⟨linesAt (depth + 1) i more, k⟩ = .ok ((), ⟨linesAt depth i more, k⟩) := by
    rw [hshallow]
    exact expect_same hdedent
  rw [hshallow, List.length_cons] at hle
  refine ⟨i, ?_, by omega⟩
  rw [hdeeper, suite, accept_same (c := ⟨last :: _, k⟩) hlast, List.tail_cons,
    bind_of_ok (expect_same (c := ⟨indent :: _, k⟩) hindent), List.tail_cons, bind_of_ok hread, bind_of_ok hloop]
  exact hcloses

theorem suiteTaken_nil : SuiteTaken fuel [] := by
  intro n depth number more hmore hfits
  exact takesSuite_cons headed_pass hmore hfits takes_pass fun _ hfits =>
    blockTaken_nil hmore hfits (Nat.le_of_lt hfits.fuel)

section Blocks

variable {s : Stmt} {rest : List Stmt} (hs : s.Sourced) (hrest : BlockSourced rest)
  (haccepted : ∀ n ∈ s.walk, n.Accepted) (haccepteds : ∀ n ∈ walkBlock rest, n.Accepted)

include hs hrest haccepted haccepteds

theorem blockTaken_cons (hstmt : StmtTaken fuel s) (hblock : BlockTaken fuel rest) : BlockTaken fuel (s :: rest) := by
  intro n m depth number more hmore hfits hm k
  rw [pythonBlock, List.append_assoc] at *
  have htrails := trails_block hrest haccepteds (trails_shallow hmore)
  have hhead := head_stmt hs haccepted (depth + 1) number (pythonBlock (depth + 1) rest ++ more) k
  obtain ⟨j, hread, hshorter⟩ := hstmt htrails hfits k
  obtain ⟨m, rfl⟩ := Nat.exists_eq_add_one_of_ne_zero (show m ≠ 0 by omega)
  obtain ⟨i, hloop, hle⟩ := hblock hmore (hfits.of_le (Nat.le_of_lt hshorter))
    (Nat.le_of_lt_succ (Nat.lt_of_lt_of_le hshorter hm)) k
  refine ⟨i, ?_, by omega⟩
  rw [loop, bind_of_ok (suiteStep_goes (hhead.ne (by simp) (by decide)) hread)]
  exact hloop

theorem suiteTaken_cons (hstmt : StmtTaken fuel s) (hblock : BlockTaken fuel rest) : SuiteTaken fuel (s :: rest) := by
  intro n depth number more hmore hfits
  obtain ⟨t, lines, _, _, hpython, ht, _, _⟩ := stmt_first hs haccepted (depth + 1)
  have hlines : Python.body (depth + 1) (pythonBlock (depth + 1) (s :: rest)) ++ more =
      s.python (depth + 1) ++ (pythonBlock (depth + 1) rest ++ more) := by
    simp [Python.body, pythonBlock, hpython]
  have hfirst : Fits fuel n (depth + 1) number (s.python (depth + 1) ++ (pythonBlock (depth + 1) rest ++ more)) →
      Takes fuel n (depth + 1) number (s.python (depth + 1) ++ (pythonBlock (depth + 1) rest ++ more))
        (pythonBlock (depth + 1) rest ++ more) :=
    hstmt (trails_block hrest haccepteds (trails_shallow hmore))
  rw [hlines] at hfits ⊢
  rw [hpython, List.cons_append] at hfits hfirst ⊢
  exact takesSuite_cons ht hmore hfits hfirst fun _ hfits => hblock hmore hfits (Nat.le_of_lt hfits.fuel)

end Blocks

theorem elseBlock_none {depth : Nat} {more : List Text} (hmore : Trails depth more) (statement : Reader Nat) (j : Nat)
    (k : Option Text) : elseBlock fuel (Expression.reader fuel fuel) statement ⟨linesAt depth j more, k⟩ =
      .ok ((), ⟨linesAt depth j more, k⟩) := by
  rw [elseBlock, accept_other (hmore.head j k).1]
  rfl

theorem elif_none {statement : Reader Nat} {c : Cursor} (hc : c.head.lexis ≠ word "elif") :
    loop (elifStep fuel (Expression.reader fuel fuel) statement) fuel c = .ok ((), c) := by
  refine loop_stops ?_ fuel
  rw [elifStep, accept_other hc]
  rfl

theorem stmtTaken_loop {keyword : Token} {cond : Expr} {body : List Stmt} (hcond : cond.Sourced)
    (haccepted : ∀ n ∈ cond.walk, n.Accepted) (hbody : SuiteTaken fuel body) :
    StmtTaken fuel (.loop keyword cond body) := by
  intro n depth number more hmore hfits k
  rw [Stmt.python, List.cons_append] at *
  obtain ⟨n, rfl⟩ := hfits.level (headed_while cond) (gives_while hcond haccepted)
  obtain ⟨s, rest, hs, hline, htaken⟩ := head_taken (headed_while cond) hcond (gives_while hcond haccepted) hfits
    (hbody hmore.shallow)
  obtain ⟨shape, d, j, htest, hblock, hlt⟩ := htaken k
  refine ⟨j, ?_, by rw [hline, List.length_cons]; omega⟩
  have hrest : whileRest fuel (Expression.reader fuel fuel) (reader fuel (Expression.reader fuel fuel) n) ⟨rest, k⟩ =
      .ok ((), ⟨linesAt depth j more, k⟩) := by
    rw [whileRest, bind_of_ok htest, bind_of_ok hblock]
    exact elseBlock_none hmore _ j k
  rw [hline, reader, statementWith, accept_other (by rw [head_cons rfl, hs]; decide),
    accept_same (by rw [head_cons rfl, hs]), List.tail_cons, bind_of_ok hrest]
  rfl

/-- A branch is taken if its suite is, and what is behind the suite is read up to the lines behind the branch. -/
theorem takes_if {cond : Expr} (hcond : cond.Sourced) (haccepted : ∀ n ∈ cond.walk, n.Accepted) {n depth number : Nat}
    {lines middle more : List Text}
    (hfits : Fits fuel n depth number (Python.line depth (utf8 "if " ++ cond.python ++ utf8 ":") :: lines))
    (hyes : ∀ {n}, Fits fuel n depth (number + 1) lines → TakesSuite fuel n depth (number + 1) lines middle)
    (helse : ∀ n j k, Fits fuel n depth j middle → (Cursor.mk (linesAt depth j middle) k).head.lexis ≠ word "elif" ∧
      ∃ i, elseBlock fuel (Expression.reader fuel fuel) (reader fuel (Expression.reader fuel fuel) n)
          ⟨linesAt depth j middle, k⟩ = .ok ((), ⟨linesAt depth i more, k⟩) ∧
        (linesAt depth i more).length ≤ (linesAt depth j middle).length) :
    Takes fuel n depth number (Python.line depth (utf8 "if " ++ cond.python ++ utf8 ":") :: lines) more := by
  intro k
  obtain ⟨n, rfl⟩ := hfits.level (headed_if cond) (gives_if hcond haccepted)
  obtain ⟨s, rest, hs, hline, htaken⟩ := head_taken (headed_if cond) hcond (gives_if hcond haccepted) hfits hyes
  obtain ⟨shape, d, j, htest, hblock, hlt⟩ := htaken k
  have hlength : (linesAt depth number (Python.line depth (utf8 "if " ++ cond.python ++ utf8 ":") :: lines)).length =
      rest.length + 1 := by rw [hline, List.length_cons]
  obtain ⟨helif, i, helse, hle⟩ := helse n j k (hfits.of_lt (by omega))
  refine ⟨i, ?_, by omega⟩
  have hrest : ifRest fuel (Expression.reader fuel fuel) (reader fuel (Expression.reader fuel fuel) n) ⟨rest, k⟩ =
      .ok ((), ⟨linesAt depth i more, k⟩) := by
    rw [ifRest, bind_of_ok htest, bind_of_ok hblock, bind_of_ok (elif_none helif)]
    exact helse
  rw [hline, reader, statementWith, accept_same (by rw [head_cons rfl, hs]), List.tail_cons, bind_of_ok hrest]
  rfl

theorem stmtTaken_branch {keyword : Token} {cond : Expr} {yes : List Stmt} {no : Option (List Stmt)}
    (hcond : cond.Sourced) (haccepted : ∀ n ∈ cond.walk, n.Accepted) (hyes : SuiteTaken fuel yes)
    (hno : no = none ∨ no = some []) :
    StmtTaken fuel (.branch keyword cond yes no) := by
  intro n depth number more hmore hfits
  have hpython : (Stmt.branch keyword cond yes no).python depth ++ more =
      Python.line depth (utf8 "if " ++ cond.python ++ utf8 ":") ::
        (Python.body (depth + 1) (pythonBlock (depth + 1) yes) ++ more) := by
    rcases hno with rfl | rfl <;> simp [Stmt.python]
  rw [hpython] at hfits ⊢
  exact takes_if hcond haccepted hfits (hyes hmore.shallow) fun _ j k _ =>
    ⟨(hmore.head j k).2, j, elseBlock_none hmore _ j k, Nat.le_refl _⟩

theorem stmtTaken_branchElse {keyword : Token} {cond : Expr} {yes no : List Stmt} (hcond : cond.Sourced)
    (haccepted : ∀ n ∈ cond.walk, n.Accepted) (hyes : SuiteTaken fuel yes) (hno : SuiteTaken fuel no) (hne : no ≠ []) :
    StmtTaken fuel (.branch keyword cond yes (some no)) := by
  intro n depth number more hmore hfits
  have hpython : (Stmt.branch keyword cond yes (some no)).python depth ++ more =
      Python.line depth (utf8 "if " ++ cond.python ++ utf8 ":") ::
        (Python.body (depth + 1) (pythonBlock (depth + 1) yes) ++ Python.line depth (utf8 "else:") ::
          (Python.body (depth + 1) (pythonBlock (depth + 1) no) ++ more)) := by
    cases no with
    | nil => exact absurd rfl hne
    | cons s rest => simp [Stmt.python]
  rw [hpython] at hfits ⊢
  have hshallow : Shallow depth (Python.line depth (utf8 "else:") ::
      (Python.body (depth + 1) (pythonBlock (depth + 1) no) ++ more)) := by
    rintro _ ⟨⟩
    exact ⟨depth, _, Nat.le_refl _, headed_else, rfl⟩
  refine takes_if hcond haccepted hfits (hyes hshallow) fun n j k hfits => ?_
  obtain ⟨front, last, hfront, hlast, hline⟩ := linesAt_gives headed_else gives_else depth j
    (Python.body (depth + 1) (pythonBlock (depth + 1) no) ++ more)
  obtain ⟨s, _, rfl, hs, hrest⟩ := List.map_eq_cons_iff.mp hfront
  obtain ⟨colon, _, rfl, hcolon, hnil⟩ := List.map_eq_cons_iff.mp hrest
  cases List.map_eq_nil_iff.mp hnil
  have hlength := congrArg List.length hline
  simp only [List.length_cons, List.length_append, List.length_nil] at hlength
  have hfits : Fits fuel n depth (j + 1) (Python.body (depth + 1) (pythonBlock (depth + 1) no) ++ more) :=
    hfits.of_le (by omega)
  obtain ⟨i, hsuite, hle⟩ := hno hmore.shallow hfits last k hlast
  rw [hline]
  refine ⟨by rw [List.cons_append, head_cons rfl, hs]; decide, i, ?_, by simp; omega⟩
  rw [elseBlock, List.cons_append, accept_same (by rw [head_cons rfl, hs])]
  exact (block_colon hcolon _ k).trans hsuite

end Reading

mutual

theorem stmt_taken {fuel : Nat} : ∀ {s : Stmt}, s.Sourced → (∀ n ∈ s.walk, n.Accepted) → StmtTaken fuel s
  | .create name value, hs, haccepted => fun _ hfits =>
    takes_assign hs.1 (haccepted (.stmt (.create name value)) (by simp [Stmt.walk])) hs.2
      (fun n hn => haccepted n (by simp [Stmt.walk, hn])) hfits
  | .assign name value, hs, haccepted => fun _ hfits =>
    takes_assign hs.1 (haccepted (.stmt (.assign name value)) (by simp [Stmt.walk])) hs.2
      (fun n hn => haccepted n (by simp [Stmt.walk, hn])) hfits
  | .print _ _, hs, haccepted => fun _ hfits =>
    takes_print hs.2
      (fun n hn => haccepted n (by simp [Stmt.walk, hn])) hfits
  | .branch _ _ _ none, hs, haccepted =>
    stmtTaken_branch hs.2.1 (fun n hn => haccepted n (by simp [Stmt.walk, hn]))
      (suite_taken hs.2.2.1 fun n hn => haccepted n (by simp [Stmt.walk, hn])) (Or.inl rfl)
  | .branch _ _ _ (some []), hs, haccepted =>
    stmtTaken_branch hs.2.1 (fun n hn => haccepted n (by simp [Stmt.walk, hn]))
      (suite_taken hs.2.2.1 fun n hn => haccepted n (by simp [Stmt.walk, hn])) (Or.inr rfl)
  | .branch _ _ _ (some (_ :: _)), hs, haccepted =>
    stmtTaken_branchElse hs.2.1 (fun n hn => haccepted n (by simp [Stmt.walk, hn]))
      (suite_taken hs.2.2.1 fun n hn => haccepted n (by simp [Stmt.walk, hn]))
      (suite_taken hs.2.2.2 fun n hn => haccepted n (by simp [Stmt.walk, hn])) (List.cons_ne_nil _ _)
  | .loop _ _ _, hs, haccepted =>
    stmtTaken_loop hs.2.1 (fun n hn => haccepted n (by simp [Stmt.walk, hn]))
      (suite_taken hs.2.2 fun n hn => haccepted n (by simp [Stmt.walk, hn]))
  | .hole, hs, _ => hs.elim

theorem suite_taken {fuel : Nat} : ∀ {ss : List Stmt}, BlockSourced ss → (∀ n ∈ walkBlock ss, n.Accepted) →
    SuiteTaken fuel ss
  | [], _, _ => suiteTaken_nil
  | _ :: _, hs, haccepted =>
    suiteTaken_cons hs.1 hs.2 (fun n hn => haccepted n (by simp [walkBlock, hn]))
      (fun n hn => haccepted n (by simp [walkBlock, hn]))
      (stmt_taken hs.1 fun n hn => haccepted n (by simp [walkBlock, hn]))
      (block_taken hs.2 fun n hn => haccepted n (by simp [walkBlock, hn]))

theorem block_taken {fuel : Nat} : ∀ {ss : List Stmt}, BlockSourced ss → (∀ n ∈ walkBlock ss, n.Accepted) →
    BlockTaken fuel ss
  | [], _, _ => blockTaken_nil
  | _ :: _, hs, haccepted =>
    blockTaken_cons hs.1 hs.2 (fun n hn => haccepted n (by simp [walkBlock, hn]))
      (fun n hn => haccepted n (by simp [walkBlock, hn]))
      (stmt_taken hs.1 fun n hn => haccepted n (by simp [walkBlock, hn]))
      (block_taken hs.2 fun n hn => haccepted n (by simp [walkBlock, hn]))

end

/-- The statements at the outer depth are taken one by one, up to the end of the file. -/
theorem file_taken {fuel n : Nat} {ss : List Stmt} (hs : BlockSourced ss) (haccepted : ∀ n ∈ walkBlock ss, n.Accepted)
    {m number : Nat} (hfits : Fits fuel n 0 number (pythonBlock 0 ss))
    (hm : (linesAt 0 number (pythonBlock 0 ss)).length ≤ m) (k : Option Text) :
    ∃ rest, file (reader fuel (Expression.reader fuel fuel) n) m ⟨linesAt 0 number (pythonBlock 0 ss), k⟩ =
      .ok (ss.length, ⟨rest, k⟩) := by
  induction ss generalizing m number with
  | nil =>
    obtain ⟨m, rfl⟩ := Nat.exists_eq_add_one_of_ne_zero (n := m) (by
      rintro rfl
      cases hm)
    exact ⟨_, rfl⟩
  | cons s ss ih =>
    have hfirst : ∀ n ∈ s.walk, n.Accepted := fun n hn => haccepted n (by simp [walkBlock, hn])
    have hothers : ∀ n ∈ walkBlock ss, n.Accepted := fun n hn => haccepted n (by simp [walkBlock, hn])
    have htrails : Trails 0 (pythonBlock 0 ss) := by
      have hnext := trails_block hs.2 hothers trails_nil
      rwa [List.append_nil] at hnext
    rw [pythonBlock] at hfits hm ⊢
    have hhead := head_stmt hs.1 hfirst 0 number (pythonBlock 0 ss) k
    obtain ⟨j, hread, hshorter⟩ := stmt_taken hs.1 hfirst htrails hfits k
    obtain ⟨m, rfl⟩ := Nat.exists_eq_add_one_of_ne_zero (show m ≠ 0 by omega)
    obtain ⟨rest, hrest⟩ := ih hs.2 hothers (hfits.of_le (Nat.le_of_lt hshorter)) (by omega : _ ≤ m)
    refine ⟨rest, ?_⟩
    rw [file, bind_of_ok (show peek _ = .ok (_, _) from rfl), if_neg (hhead.ne (by simp) (by decide)),
      accept_other (hhead.ne (by simp) (by decide)), bind_of_ok hread, bind_of_ok hrest, List.length_cons,
      Nat.add_comm]
    rfl

end Statement

/-- A text in whose program nothing is refused is Python, with as many statements as the program. -/
theorem check_accepted {p : Program} (h : BlockSourced p) (haccepted : Program.refusal? p = none) :
    check (Program.python p) = .ok p.length := by
  have hsymbols := symbols_python h
  have hfits : Statement.Fits ((symbols (Program.python p)).length + 1) ((symbols (Program.python p)).length + 1) 0 4
      (pythonBlock 0 p) := by
    rw [hsymbols]
    exact ⟨Nat.lt_succ_self _, Nat.le_succ _⟩
  obtain ⟨rest, hfile⟩ := Statement.file_taken h (Program.accepted haccepted) hfits hfits.depth none
  rw [← hsymbols] at hfile
  simp only [check, StateT.run, hfile]

end Python

theorem BlockSourced.refused {p : Program} (h : BlockSourced p) {e : RunError}
    (hrefusal : Program.refusal? p = some e) : ∃ t c, e = .raised t c ∧ c.isSyntaxError = true := by
  obtain ⟨n, hn, hrefused⟩ := List.exists_of_findSome?_eq_some hrefusal
  have hhole : n.isHole = false := by
    have hsourced := h.node hn
    cases n with
    | program p => rfl
    | stmt s => cases s <;> first | rfl | exact hsourced.elim
    | expr e => cases e <;> first | rfl | exact hsourced.elim
  rcases Node.refusal_cases hhole with ⟨_, hnone⟩ | ⟨_, t, c, _, hraised, hc⟩
  · rw [hnone] at hrefused
    cases hrefused
  · rw [hraised] at hrefused
    exact ⟨t, c, (Option.some.inj hrefused).symm, hc⟩

namespace Evaluator

/-- If Python refuses the text of a program that was read from a source, every evaluator refuses the program with a
`SyntaxError` before anything is printed or assigned; the text of a program that ends otherwise, at the horizon as well, is
Python, with one statement for each of the program. -/
theorem run_refuses_invalid_python {source : Text} {p : Program} (h : parseSource source = .ok p) (ev : Evaluator)
    (ctx : Context) :
    (∀ invalid, Python.check (Program.python p) = .error invalid →
      ∃ t, (ev.run ctx p).SyntaxErrorAt t ∧ (ev.run ctx p).stdout = [] ∧ (ev.run ctx p).evaluator = ev) ∧
    ((∀ t, ¬(ev.run ctx p).SyntaxErrorAt t) → Python.check (Program.python p) = .ok p.length) := by
  have hsourced := parseSource_sourced h
  cases hrefusal : Program.refusal? p with
  | none =>
    have hcheck := Python.check_accepted hsourced hrefusal
    refine ⟨fun invalid hinvalid => ?_, fun _ => hcheck⟩
    rw [hcheck] at hinvalid
    cases hinvalid
  | some e =>
    obtain ⟨t, c, rfl, hc⟩ := hsourced.refused hrefusal
    have herror : (ev.run ctx p).SyntaxErrorAt t := by
      rw [run_refused hrefusal]
      exact ⟨c, rfl, (Cause.kind_eq_syntaxError c).mpr hc⟩
    refine ⟨fun _ _ => ⟨t, herror, ?_, ?_⟩, fun hnone => absurd herror (hnone t)⟩
    · rw [run_refused hrefusal]
    · rw [run_refused hrefusal]

/-- The quote of a literal is escaped in a branch that is never taken, behind a statement that would print. -/
theorem run_refuses_invalid_python_untaken :
    let source := Text.unlines [utf8 "PRINT 1", utf8 "IF 1 IS GREATER THAN 2 THEN", utf8 "PRINT \"\\\"", utf8 "END IF"]
    ∃ p invalid, parseSource source = .ok p ∧ Python.check (Program.python p) = .error invalid ∧
      ∃ t, (new.run .background p).SyntaxErrorAt t ∧ (new.run .background p).stdout = [] ∧
        (new.run .background p).evaluator = new := by
  intro source
  have hrefused : ((parseSource source).toOption.any fun p => (Python.check (Program.python p)).toOption.isNone) =
      true := by decide +kernel
  cases hp : parseSource source with
  | error e =>
    rw [hp] at hrefused
    cases hrefused
  | ok p =>
    rw [hp] at hrefused
    cases hcheck : Python.check (Program.python p) with
    | ok count =>
      simp only [Except.toOption, Option.any_some, hcheck, Option.isNone] at hrefused
      cases hrefused
    | error invalid =>
      exact ⟨p, invalid, rfl, hcheck, (run_refuses_invalid_python hp new .background).1 invalid hcheck⟩

end Evaluator

end EnglishScript
