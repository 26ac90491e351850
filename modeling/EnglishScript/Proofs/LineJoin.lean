import EnglishScript.Pipeline
import EnglishScript.Proofs.LineLexing
import EnglishScript.Proofs.Relabel
import EnglishScript.Proofs.SourceTree

namespace EnglishScript

section Above

variable (base : List Stmt)

/-- The statements of a block inside the given open blocks: in the outermost block they stand on `base`. -/
def lay (outer : List OpenBlock) (ss : List Stmt) : List Stmt :=
  match outer with
  | [] => ss ++ base
  | _ :: _ => ss

/-- Open blocks whose outermost one stands behind the statements of `base`. -/
def underlay : List OpenBlock → List OpenBlock
  | [] => []
  | .yes before keyword cond :: outer => .yes (lay base outer before) keyword cond :: underlay outer
  | .no before keyword cond first :: outer => .no (lay base outer before) keyword cond first :: underlay outer
  | .body before keyword cond :: outer => .body (lay base outer before) keyword cond :: underlay outer

namespace ParseState

/-- The state if the statements of `base` had been read before. -/
def above (s : ParseState) : ParseState :=
  ⟨underlay base s.blocks, lay base s.blocks s.statements, s.progress⟩

theorem add_above (s : ParseState) (stmt : Stmt) : (s.above base).add stmt = (s.add stmt).above base := by
  obtain ⟨blocks, ss, progress⟩ := s
  cases blocks <;> rfl

theorem attain_above (s : ParseState) (goal : Goal) (e : Expr) :
    (s.above base).attain goal e = (s.attain goal e).above base := by
  cases goal with
  | branch keyword => rfl
  | loop keyword => rfl
  | _ => exact add_above base s _

theorem settle_above (s : ParseState) (t : Token) : (s.above base).settle t = (s.settle t).above base := by
  obtain ⟨blocks, ss, progress⟩ := s
  cases progress with
  | reading goal draft =>
    simp only [settle, above]
    cases draft.finished? t with
    | none => rfl
    | some e => exact attain_above base ⟨blocks, ss, .reading goal draft⟩ goal e
  | _ => rfl

theorem require_above (kind : Kind) (t : Token) (next : ParseState) :
    require kind t (next.above base) = (require kind t next).map (above base) := by
  unfold require
  split <;> rfl

theorem begin_above (s : ParseState) (t : Token) : (s.above base).begin t = (s.begin t).map (above base) := by
  obtain ⟨blocks, ss, progress⟩ := s
  unfold begin
  split
  case h_7 =>
    cases blocks with
    | nil => rfl
    | cons b outer => cases b <;> rfl
  case h_8 =>
    cases blocks with
    | nil => rfl
    | cons b outer => cases b <;> rfl
  all_goals rfl

theorem consume_above (s : ParseState) (t : Token) : (s.above base).consume t = (s.consume t).map (above base) := by
  obtain ⟨blocks, ss, progress⟩ := s
  cases progress with
  | between => exact begin_above base ⟨blocks, ss, .between⟩ t
  | reading goal draft =>
    simp only [consume, above]
    cases draft.step t <;> rfl
  | closing word done =>
    simp only [consume]
    rw [← require_above, ← add_above]
    rfl
  | _ =>
    simp only [consume]
    rw [← require_above]
    rfl

theorem step_above (s : ParseState) (t : Token) : (s.above base).step t = (s.step t).map (above base) := by
  rw [step, settle_above, consume_above]
  rfl

theorem finish_above (s : ParseState) (t : Token) : (s.above base).finish t = (s.finish t).map (base.reverse ++ ·) := by
  unfold finish
  rw [settle_above]
  obtain ⟨blocks, ss, progress⟩ := s.settle t
  have hconsume := consume_above base ⟨blocks, ss, progress⟩ t
  cases progress with
  | between =>
    cases blocks with
    | nil => exact congrArg Except.ok (List.reverse_append)
    | cons b outer => cases b <;> rfl
  | _ =>
    simp only [above] at hconsume ⊢
    rw [hconsume]
    cases consume _ t <;> rfl

/-- The statements read before everything stand before everything in the program, and errors do not change. -/
theorem foldlM_above (final : Token) (tokens : List Token) (s : ParseState) :
    ((tokens.foldlM step (s.above base)).bind fun s => s.finish final) =
      ((tokens.foldlM step s).bind fun s => s.finish final).map (base.reverse ++ ·) := by
  induction tokens generalizing s with
  | nil => exact finish_above base s final
  | cons t rest ih =>
    rw [List.foldlM_cons, List.foldlM_cons, step_above]
    cases s.step t with
    | error e => rfl
    | ok s' => exact ih s'

end ParseState

end Above

/-- A line end behind a complete program leaves its statements and nothing else. -/
theorem foldlM_newline {ts : List Token} {p : Program} (h : Grammar.Program ts p) {t : Token} (ht : t.kind = .newline) :
    (ts ++ [t]).foldlM ParseState.step .initial = .ok (ParseState.initial.above p.reverse) := by
  obtain ⟨s, hrun, hrests⟩ := Grammar.Block.read h (ParseState.rests_between [] [])
  have hstep : s.step t = .ok (ParseState.initial.above p.reverse) := by
    rw [hrests.step_eq (by rw [ht]; rfl)]
    simp [ParseState.consume, ParseState.begin, ht, ParseState.above, ParseState.initial, lay, underlay]
  rw [ParseState.initial, foldlM_append_ok hrun, foldlM_cons_ok hstep]
  rfl

theorem parseProgram_line {ts us : List Token} (hts : Endless ts) (hus : Endless us) {p : Program}
    (h : Grammar.Program ts p) {t final : Token} (ht : t.kind = .newline) (hfinal : final.kind = .eof) :
    parseProgram (ts ++ t :: (us ++ [final])) = (parseProgram (us ++ [final])).map (p ++ ·) := by
  have hall : Endless (ts ++ [t] ++ us) := by simp [hts, hus, ht]
  have htokens : ts ++ t :: (us ++ [final]) = (ts ++ [t] ++ us) ++ [final] := by simp
  rw [htokens, parseProgram_endless hall hfinal, parseProgram_endless hus hfinal,
    foldlM_append_ok (foldlM_newline h ht), ParseState.foldlM_above, List.reverse_reverse]

theorem Relabels.endless {f : Token → Token} (hf : Relabels f) {ts : List Token} (hts : Endless ts) : Endless (ts.map f) := by
  intro t ht
  obtain ⟨u, hu, rfl⟩ := List.mem_map.mp ht
  rw [hf.kind]
  exact hts u hu

theorem parseProgram_relabel {f : Token → Token} (hf : Relabels f) {ts : List Token} (hts : Endless ts) {final : Token}
    (hfinal : final.kind = .eof) :
    parseProgram (ts.map f ++ [f final]) = relabelled f (relabelBlock f) (parseProgram (ts ++ [final])) := by
  rw [parseProgram_endless (hf.endless hts) ((hf.kind final).trans hfinal), parseProgram_endless hts hfinal,
    ← hf.foldlM_finish]
  rfl

theorem moves_down (n : Int) : Moves (Token.down n) :=
  ⟨fun _ => rfl, fun _ => rfl⟩

/-- The error `n` lines further down. -/
def SourceError.down (n : Int) : SourceError → SourceError
  | .lex e => .lex (e.down n)
  | .parse e => .parse (e.relabel (Token.down n))

/-- A source behind a complete one is read as it is alone, that many lines further down. -/
theorem parseSource_line {a : Text} {p : Program} (h : parseSource a = .ok p) (b : Text) :
    parseSource (a ++ Text.lf :: b) =
      match parseSource b with
      | .ok q => .ok (p ++ relabelBlock (Token.down (1 + a.lineFeeds)) q)
      | .error e => .error (e.down (1 + a.lineFeeds)) := by
  obtain ⟨tokens, hlex, hparse⟩ := parseSource_ok h
  obtain ⟨ts, q, rfl, hts, hjoined⟩ := lex_line hlex b
  have hp : Grammar.Program ts p := by
    have hderived := parseProgram_derived hparse
    rwa [bodyTokens_endless hts rfl] at hderived
  have hdown := (moves_down (1 + a.lineFeeds)).relabels
  unfold parseSource
  rw [hjoined]
  cases hb : lex b with
  | error e => rfl
  | ok more =>
    obtain ⟨us, r, rfl, hus⟩ := lex_endless hb
    simp only [lexedDown, List.map_append, List.map_singleton, Except.map]
    rw [parseProgram_line hts (hdown.endless hus) hp rfl rfl, parseProgram_relabel hdown hus rfl]
    cases parseProgram (us ++ [Token.endAt r]) <;> rfl

theorem pythonBlock_append (depth : Nat) (p q : List Stmt) :
    pythonBlock depth (p ++ q) = pythonBlock depth p ++ pythonBlock depth q := by
  induction p with
  | nil => rfl
  | cons s rest ih => rw [List.cons_append, pythonBlock, ih, pythonBlock, List.append_assoc]

theorem Text.unlines_append (lines more : List Text) :
    Text.unlines (lines ++ more) = Text.unlines lines ++ Text.unlines more :=
  List.flatMap_append

theorem Program.python_eq (p : Program) :
    Program.python p = Text.unlines Python.header ++ Text.unlines (pythonBlock 0 p) := by
  rw [Program.python, Program.pythonLines, Text.unlines_append]

theorem compile_ok {source code : Text} (h : compile source = .ok code) :
    ∃ p, parseSource source = .ok p ∧ code = Program.python p := by
  unfold compile at h
  cases hp : parseSource source with
  | error e =>
    rw [hp] at h
    cases h
  | ok p =>
    rw [hp] at h
    exact ⟨p, rfl, (Except.ok.inj h).symm⟩

/-- A source behind a complete one: its Python text goes behind the other one without the header, and its error moves
down by the lines before it. -/
theorem compile_line {a code : Text} (h : compile a = .ok code) (b : Text) :
    (∀ more, compile b = .ok more → ∃ body, more = Text.unlines Python.header ++ body ∧
      compile (a ++ Text.lf :: b) = .ok (code ++ body)) ∧
    ∀ e, compile b = .error e → compile (a ++ Text.lf :: b) = .error (e.down (1 + a.lineFeeds)) := by
  obtain ⟨p, hp, rfl⟩ := compile_ok h
  have hline := parseSource_line hp b
  unfold compile
  rw [hline]
  cases parseSource b with
  | error e =>
    refine ⟨?_, ?_⟩
    · intro more hmore
      cases hmore
    · intro found hfound
      cases hfound
      rfl
  | ok q =>
    refine ⟨?_, ?_⟩
    · intro more hmore
      obtain rfl : Program.python q = more := Except.ok.inj hmore
      refine ⟨Text.unlines (pythonBlock 0 q), Program.python_eq q, ?_⟩
      rw [Except.map, Program.python_eq, Program.python_eq, pythonBlock_append, (moves_down _).python_block,
        Text.unlines_append, List.append_assoc]
    · intro found hfound
      cases hfound

/-- An error behind three lines, on the second line of its own source. -/
theorem compile_line_moved :
    compile (utf8 "print \"é\"\r\n\n") = .ok (utf8 "#!/usr/bin/env python3\n# Generated from EBPL\n\nprint(\"é\")\n") ∧
      compile (utf8 "set x to y\nprint )") = .error (.parse (.unexpected .expression ⟨.rparen, utf8 ")", ⟨2, 7⟩⟩)) ∧
      compile (utf8 "print \"é\"\r\n\n" ++ Text.lf :: utf8 "set x to y\nprint )") =
        .error (.parse (.unexpected .expression ⟨.rparen, utf8 ")", ⟨5, 7⟩⟩)) := by
  have ha : compile (utf8 "print \"é\"\r\n\n") =
      .ok (utf8 "#!/usr/bin/env python3\n# Generated from EBPL\n\nprint(\"é\")\n") := by
    decide +kernel
  have hb : compile (utf8 "set x to y\nprint )") =
      .error (.parse (.unexpected .expression ⟨.rparen, utf8 ")", ⟨2, 7⟩⟩)) := by
    decide +kernel
  have hdown : (SourceError.parse (.unexpected .expression ⟨.rparen, utf8 ")", ⟨2, 7⟩⟩)).down
      (1 + (utf8 "print \"é\"\r\n\n").lineFeeds) = .parse (.unexpected .expression ⟨.rparen, utf8 ")", ⟨5, 7⟩⟩) := by
    decide +kernel
  refine ⟨ha, hb, ?_⟩
  rw [← hdown]
  exact (compile_line ha _).2 _ hb

end EnglishScript
