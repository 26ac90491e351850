import EnglishScript.Proofs.GeneratedSymbols

namespace EnglishScript

namespace Python

namespace Scan

/-- The line has leading symbols, plain ones and closing ones, or it breaks off behind plain ones. -/
def Line.Holds (lead tail : List Symbol → Prop) (line : Line) : Prop :=
  ∃ front middle, lead front ∧ Plain middle ∧
    ((∃ back, tail back ∧ line = ⟨front ++ middle ++ back, 0, .plain⟩) ∨
      ∃ flaw, (∃ reason, flaw.lexis = .flaw reason) ∧ line.symbols = front ++ middle ++ [flaw] ∧ line.ending = .broken)

theorem holds_parts {lead tail : List Symbol → Prop} {t u v : Text} {a b c : Int} (ht : Passes lead t (u ++ v) a)
    (hu : Scans u v b) (hv : Passes tail v [] c) (hchange : a + b + c = 0) (here : Spot) :
    (restOfLine 0 here 0 (t ++ (u ++ v))).Holds lead tail := by
  obtain ⟨front, there, hfront, heq⟩ := ht here 0
  rw [heq]
  rcases hu there (0 + a) with ⟨middle, next, hmiddle, heq'⟩ | ⟨middle, flaw, hmiddle, hflaw, hsymbols, hending⟩
  · obtain ⟨back, last, hback, hlast⟩ := hv next (0 + a + b)
    rw [List.append_nil] at hlast
    refine ⟨front, middle, hfront, hmiddle, Or.inl ⟨back, hback, ?_⟩⟩
    have hdepth : 0 + a + b + c = 0 := by omega
    rw [heq', hlast, hdepth]
    simp [Line.after, restOfLine]
  · refine ⟨front, middle, hfront, hmiddle, Or.inr ⟨flaw, hflaw, ?_, hending⟩⟩
    simp only [Line.after, hsymbols, List.append_assoc]

theorem passes_nil : Passes (· = []) [] [] 0 := by
  intro here depth
  exact ⟨[], here, rfl, by simp [Line.after]⟩

/-- A line that has been closed: its symbols, then an end of line and what follows, or a flaw. -/
theorem Line.Holds.close {lead tail : List Symbol → Prop} {line : Line} (h : line.Holds lead tail) (spot : Spot)
    (stack : List Nat) (next : Between → List Symbol) : ∃ front middle, lead front ∧ Plain middle ∧
      ((∃ back z, tail back ∧ z.lexis = .newline ∧
          close line spot stack next = front ++ (middle ++ (back ++ z :: next ⟨0, stack, none⟩))) ∨
        ∃ flaw, (∃ reason, flaw.lexis = .flaw reason) ∧ close line spot stack next = front ++ (middle ++ [flaw])) := by
  obtain ⟨front, middle, hfront, hmiddle, ⟨back, hback, rfl⟩ | ⟨flaw, hflaw, hsymbols, hending⟩⟩ := h
  · exact ⟨front, middle, hfront, hmiddle, Or.inl ⟨back, ⟨.newline, spot⟩, hback, rfl, by simp [Scan.close]⟩⟩
  · exact ⟨front, middle, hfront, hmiddle, Or.inr ⟨flaw, hflaw, by simp [Scan.close, hsymbols, hending]⟩⟩

/-- The open indentations at a depth of nesting. -/
def levels : Nat → List Nat
  | 0 => []
  | depth + 1 => 4 * (depth + 1) :: levels depth

theorem headD_levels (depth : Nat) : (levels depth).headD 0 = 4 * depth := by
  cases depth <;> rfl

theorem length_levels (depth : Nat) : (levels depth).length = depth := by
  induction depth with
  | zero => rfl
  | succ depth ih => rw [levels, List.length_cons, ih]

theorem dropWhile_levels {j depth : Nat} (h : j ≤ depth) : (levels depth).dropWhile (4 * j < ·) = levels j := by
  induction depth with
  | zero =>
    cases Nat.le_zero.mp h
    rfl
  | succ depth ih =>
    rcases Nat.lt_or_eq_of_le h with hlt | rfl
    · have hdeeper : 4 * j < 4 * (depth + 1) := by omega
      rw [levels, List.dropWhile_cons_of_pos (by simpa using hdeeper), ih (by omega)]
    · rw [levels, List.dropWhile_cons_of_neg (by simp)]

theorem indentation_close {j depth : Nat} (h : j ≤ depth) (spot : Spot) :
    indentation (levels depth) (4 * j) spot = (List.replicate (depth - j) ⟨.dedent, spot⟩, levels j) := by
  have hle : ¬ 4 * depth < 4 * j := by omega
  simp only [indentation, headD_levels, dropWhile_levels h, length_levels, hle, ↓reduceIte]

theorem indentation_open (depth : Nat) (spot : Spot) :
    indentation (levels depth) (4 * (depth + 1)) spot = ([⟨.indent, spot⟩], levels (depth + 1)) := by
  have hlt : 4 * depth < 4 * (depth + 1) := by omega
  simp only [indentation, headD_levels, hlt, ↓reduceIte, levels]

theorem indentWidth_spaces (n : Nat) : indentWidth (List.replicate n Text.space) = n := by
  have hfold (m : Nat) : (List.replicate n Text.space).foldl
      (fun n b => if b = Text.tab then (n / 8 + 1) * 8 else n + 1) m = m + n := by
    induction n generalizing m with
    | zero => rfl
    | succ n ih =>
      rw [List.replicate_succ, List.foldl_cons, if_neg (by decide), ih]
      omega
  rw [indentWidth, hfold, Nat.zero_add]

/-- The text of a line without its indentation: it starts with neither a blank nor a comment. -/
def Headed (t : Text) : Prop :=
  ∃ c rest, t = c :: rest ∧ c ≠ Text.space ∧ c ≠ Text.tab ∧ c ≠ 35

/-- The symbols of the lines at a depth of nesting, outside brackets and literals. -/
abbrev linesAt (depth : Nat) (number : Nat) (lines : List Text) : List Symbol :=
  linesFrom ⟨0, levels depth, none⟩ number lines

theorem linesAt_cons (j : Nat) {t : Text} (ht : Headed t) (number : Nat) (rest : List Text) :
    ∃ here spot, ∀ depth, linesAt depth number (Python.line j t :: rest) = (indentation (levels depth) (4 * j) here).1 ++
      close (restOfLine 0 here 0 t) spot (indentation (levels depth) (4 * j) here).2
        fun s => linesFrom s (number + 1) rest := by
  obtain ⟨c, more, rfl, hspace, htab, hcomment⟩ := ht
  have hblanks : (Python.line j (c :: more)).takeWhile (fun b => b == Text.space || b == Text.tab) =
      List.replicate (4 * j) Text.space :=
    ReadBack.takeWhile_append_stop (by simp) (by rintro _ ⟨⟩; simp [hspace, htab])
  have hbody : (Python.line j (c :: more)).drop (4 * j) = c :: more := by simp [Python.line]
  refine ⟨⟨number, 4 * j, Python.line j (c :: more) ++ [Text.lf]⟩,
    ⟨number, (Python.line j (c :: more)).length, Python.line j (c :: more) ++ [Text.lf]⟩, fun depth => ?_⟩
  simp only [linesAt, linesFrom, hblanks, List.length_replicate, hbody, indentWidth_spaces, List.isEmpty_cons,
    List.head?_cons, Bool.false_or, beq_iff_eq, Option.some.injEq, hcomment, ↓reduceIte]

/-- A line at the depth of its block changes no indentation. -/
theorem linesAt_same {t : Text} (ht : Headed t) (depth number : Nat) (rest : List Text) :
    ∃ here spot, linesAt depth number (Python.line depth t :: rest) =
      close (restOfLine 0 here 0 t) spot (levels depth) fun s => linesFrom s (number + 1) rest := by
  obtain ⟨here, spot, heq⟩ := linesAt_cons depth ht number rest
  refine ⟨here, spot, ?_⟩
  rw [heq, indentation_close (Nat.le_refl depth), Nat.sub_self]
  rfl

/-- A line one level deeper opens an indentation. -/
theorem linesAt_deeper {t : Text} (ht : Headed t) (depth number : Nat) (rest : List Text) :
    ∃ z, z.lexis = .indent ∧ linesAt depth number (Python.line (depth + 1) t :: rest) =
      z :: linesAt (depth + 1) number (Python.line (depth + 1) t :: rest) := by
  obtain ⟨here, spot, heq⟩ := linesAt_cons (depth + 1) ht number rest
  refine ⟨⟨.indent, here⟩, rfl, ?_⟩
  rw [heq, heq, indentation_open, indentation_close (Nat.le_refl _), Nat.sub_self]
  rfl

/-- The lines do not go on at a deeper level. -/
def Shallow (depth : Nat) (lines : List Text) : Prop :=
  ∀ l ∈ lines.head?, ∃ j t, j ≤ depth ∧ Headed t ∧ l = Python.line j t

/-- Lines that do not go on at the deeper level close its indentation. -/
theorem linesAt_shallow {depth : Nat} {lines : List Text} (h : Shallow depth lines) (number : Nat) :
    ∃ z, z.lexis = .dedent ∧ linesAt (depth + 1) number lines = z :: linesAt depth number lines := by
  cases lines with
  | nil =>
    refine ⟨⟨.dedent, ⟨number, 0, []⟩⟩, rfl, ?_⟩
    simp only [linesAt, linesFrom, endSymbols, length_levels, List.replicate_succ, List.cons_append]
  | cons l lines =>
    obtain ⟨j, t, hj, ht, rfl⟩ := h l rfl
    obtain ⟨here, spot, heq⟩ := linesAt_cons j ht number lines
    refine ⟨⟨.dedent, here⟩, rfl, ?_⟩
    rw [heq, heq, indentation_close hj, indentation_close (Nat.le_succ_of_le hj), Nat.succ_sub hj,
      List.replicate_succ, List.cons_append]

/-- One word stands in front. -/
def OneWord (t : Text) (front : List Symbol) : Prop :=
  ∃ s, front = [s] ∧ s.lexis = wordLexis t

/-- A word and the sign of an assignment stand in front. -/
def Assigns (t : Text) (front : List Symbol) : Prop :=
  ∃ s equals, front = [s, equals] ∧ s.lexis = wordLexis t ∧ equals.lexis = mark "="

/-- A colon ends the line. -/
def OneColon (back : List Symbol) : Prop :=
  ∃ s, back = [s] ∧ s.lexis = mark ":"

theorem Passes.append {first second : List Symbol → Prop} {t u rest : Text} {a b : Int}
    (ht : Passes first t (u ++ rest) a) (hu : Passes second u rest b) :
    Passes (fun front => ∃ f g, front = f ++ g ∧ first f ∧ second g) (t ++ u) rest (a + b) := by
  intro here depth
  obtain ⟨f, there, hf, heq⟩ := ht here depth
  obtain ⟨g, next, hg, heq'⟩ := hu there (depth + a)
  refine ⟨f ++ g, next, ⟨f, g, rfl, hf, hg⟩, ?_⟩
  rw [List.append_assoc, heq, heq', Line.after_after, Int.add_assoc]

theorem scans_nil (rest : Text) : Scans [] rest 0 := by
  intro here depth
  exact Or.inl ⟨[], here, by simp [Plain], by simp [Line.after]⟩

theorem passes_assign {t : Text} (ht : t.IsName) (rest : Text) : Passes (Assigns t) (t ++ utf8 " = ") rest 0 := by
  have hsigns := (passes_space (utf8 "=" ++ utf8 " " ++ rest)).append ((passes_equals rest).append (passes_space rest))
  refine ((passes_word ht (stops_space (utf8 "= " ++ rest))).append (u := utf8 " = ") hsigns).imp ?_
  rintro _ ⟨_, _, rfl, ⟨s, rfl, hs⟩, _, _, rfl, rfl, _, _, rfl, ⟨equals, rfl, hequals⟩, rfl⟩
  exact ⟨s, equals, rfl, hs, hequals⟩

/-- A keyword or a name with a space behind it. -/
theorem passes_wordSpace {t : Text} (ht : t.IsName) (rest : Text) : Passes (OneWord t) (t ++ utf8 " ") rest 0 := by
  refine ((passes_word ht (stops_space rest)).append (passes_space rest)).imp ?_
  rintro _ ⟨_, _, rfl, ⟨s, rfl, hs⟩, rfl⟩
  exact ⟨s, rfl, hs⟩

end Scan

open Scan

theorem holds_assign {name : Token} {value : Expr} (hname : name.Is .identifier) (hvalue : value.Sourced)
    (hclosing : ∀ n ∈ value.walk, n.SelfClosing) (here : Spot) :
    (restOfLine 0 here 0 (name.lexeme ++ utf8 " = " ++ value.python)).Holds (Assigns name.lexeme) (· = []) := by
  have hparts := holds_parts (passes_assign hname.2.1 (value.python ++ [])) (hvalue.scans hclosing stops_nil) passes_nil
    rfl here
  rwa [List.append_nil] at hparts

theorem holds_print {value : Expr} (hvalue : value.Sourced) (hclosing : ∀ n ∈ value.walk, n.SelfClosing) (here : Spot) :
    (restOfLine 0 here 0 (utf8 "print(" ++ value.python ++ utf8 ")")).Holds (OneWord (utf8 "print")) (· = []) := by
  have hopen := ((passes_open (value.python ++ utf8 ")")).imp (plain_singleton (by decide))).scans
  have hclose := ((passes_close []).imp (plain_singleton (by decide))).scans
  have hvalue := (hvalue.scans hclosing (stops_close [])).append hclose
  have hwhole : Scans (utf8 "(" ++ (value.python ++ utf8 ")")) [] (1 + (0 + -1)) :=
    Scans.append (by simpa only [List.append_nil] using hopen) hvalue
  have hstops : Stops (utf8 "(" ++ (value.python ++ utf8 ")") ++ []) := stops_open _
  have hword : (utf8 "print").IsName := ⟨112, [114, 105, 110, 116], rfl, rfl, List.all_eq_true.mp rfl⟩
  have hparts := holds_parts (passes_word hword hstops) hwhole passes_nil rfl here
  rw [List.append_nil, ← List.append_assoc, ← List.append_assoc] at hparts
  exact hparts

theorem holds_head {word : Text} (hword : word.IsName) {cond : Expr} (hcond : cond.Sourced)
    (hclosing : ∀ n ∈ cond.walk, n.SelfClosing) (here : Spot) :
    (restOfLine 0 here 0 (word ++ utf8 " " ++ cond.python ++ utf8 ":")).Holds (OneWord word) OneColon := by
  have hparts := holds_parts (passes_wordSpace hword (cond.python ++ utf8 ":"))
    (hcond.scans hclosing (stops_colon [])) (passes_colon []) rfl here
  rwa [← List.append_assoc] at hparts

theorem holds_if {cond : Expr} (hcond : cond.Sourced) (hclosing : ∀ n ∈ cond.walk, n.SelfClosing) (here : Spot) :
    (restOfLine 0 here 0 (utf8 "if " ++ cond.python ++ utf8 ":")).Holds (OneWord (utf8 "if")) OneColon :=
  holds_head ⟨105, [102], rfl, rfl, List.all_eq_true.mp rfl⟩ hcond hclosing here

theorem holds_while {cond : Expr} (hcond : cond.Sourced) (hclosing : ∀ n ∈ cond.walk, n.SelfClosing) (here : Spot) :
    (restOfLine 0 here 0 (utf8 "while " ++ cond.python ++ utf8 ":")).Holds (OneWord (utf8 "while")) OneColon :=
  holds_head ⟨119, [104, 105, 108, 101], rfl, rfl, List.all_eq_true.mp rfl⟩ hcond hclosing here

theorem holds_pass (here : Spot) : (restOfLine 0 here 0 (utf8 "pass")).Holds (OneWord (utf8 "pass")) (· = []) :=
  holds_parts (passes_word ⟨112, [97, 115, 115], rfl, rfl, List.all_eq_true.mp rfl⟩ stops_nil) (scans_nil []) passes_nil
    rfl here

theorem holds_else (here : Spot) : (restOfLine 0 here 0 (utf8 "else:")).Holds (OneWord (utf8 "else")) OneColon :=
  holds_parts (t := utf8 "else") (u := []) (v := utf8 ":")
    (passes_word ⟨101, [108, 115, 101], rfl, rfl, List.all_eq_true.mp rfl⟩ (stops_colon [])) (scans_nil _)
    (passes_colon []) rfl here

/-- A line without a head at the depth of its block. -/
theorem linesAt_simple {lead : List Symbol → Prop} {t : Text} (ht : Headed t)
    (hholds : ∀ here, (restOfLine 0 here 0 t).Holds lead (· = [])) (depth number : Nat) (rest : List Text) :
    ∃ front middle z more, lead front ∧ Plain middle ∧
      linesAt depth number (Python.line depth t :: rest) = front ++ (middle ++ z :: more) ∧
      ((z.lexis = .newline ∧ more = linesAt depth (number + 1) rest) ∨ ∃ reason, z.lexis = .flaw reason) := by
  obtain ⟨here, spot, heq⟩ := linesAt_same ht depth number rest
  obtain ⟨front, middle, hfront, hmiddle, ⟨_, z, rfl, hz, hclose⟩ | ⟨flaw, hflaw, hclose⟩⟩ :=
    (hholds here).close spot (levels depth) fun s => linesFrom s (number + 1) rest
  · exact ⟨front, middle, z, _, hfront, hmiddle, heq.trans hclose, Or.inl ⟨hz, rfl⟩⟩
  · exact ⟨front, middle, flaw, [], hfront, hmiddle, heq.trans hclose, Or.inr hflaw⟩

/-- A head at the depth of its block: a colon and the end of the line stand behind its condition. -/
theorem linesAt_head {lead : List Symbol → Prop} {t : Text} (ht : Headed t)
    (hholds : ∀ here, (restOfLine 0 here 0 t).Holds lead OneColon) (depth number : Nat) (rest : List Text) :
    ∃ front middle z more, lead front ∧ Plain middle ∧
      linesAt depth number (Python.line depth t :: rest) = front ++ (middle ++ z :: more) ∧
      ((∃ reason, z.lexis = .flaw reason) ∨ ∃ last, z.lexis = mark ":" ∧ last.lexis = .newline ∧
        more = last :: linesAt depth (number + 1) rest) := by
  obtain ⟨here, spot, heq⟩ := linesAt_same ht depth number rest
  obtain ⟨front, middle, hfront, hmiddle, ⟨_, z, ⟨colon, rfl, hcolon⟩, hz, hclose⟩ | ⟨flaw, hflaw, hclose⟩⟩ :=
    (hholds here).close spot (levels depth) fun s => linesFrom s (number + 1) rest
  · exact ⟨front, middle, colon, _, hfront, hmiddle, heq.trans hclose, Or.inr ⟨z, hcolon, hz, rfl⟩⟩
  · exact ⟨front, middle, flaw, [], hfront, hmiddle, heq.trans hclose, Or.inl hflaw⟩

theorem headed_assign {name : Token} (hname : name.Is .identifier) (value : Expr) :
    Headed (name.lexeme ++ utf8 " = " ++ value.python) := by
  obtain ⟨c, more, hlexeme, hc, _⟩ := hname.2.1
  rw [hlexeme]
  refine ⟨c, _, rfl, ?_, ?_, ?_⟩ <;> (rintro rfl; exact absurd hc (by decide))

theorem headed_print (value : Expr) : Headed (utf8 "print(" ++ value.python ++ utf8 ")") :=
  ⟨112, _, rfl, by decide, by decide, by decide⟩

theorem headed_if (cond : Expr) : Headed (utf8 "if " ++ cond.python ++ utf8 ":") :=
  ⟨105, _, rfl, by decide, by decide, by decide⟩

theorem headed_while (cond : Expr) : Headed (utf8 "while " ++ cond.python ++ utf8 ":") :=
  ⟨119, _, rfl, by decide, by decide, by decide⟩

theorem headed_pass : Headed (utf8 "pass") :=
  ⟨112, _, rfl, by decide, by decide, by decide⟩

theorem headed_else : Headed (utf8 "else:") :=
  ⟨101, _, rfl, by decide, by decide, by decide⟩

end Python

end EnglishScript
