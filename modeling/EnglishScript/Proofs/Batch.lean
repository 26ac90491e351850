import EnglishScript.Proofs.LineJoin
import EnglishScript.Proofs.RunFrame
import EnglishScript.Proofs.StatementCount
import EnglishScript.Session

namespace EnglishScript

namespace Session

/-- The session runs programs in process and neither lists nor checks anything. -/
structure InProcess (s : Session) : Prop where
  eval : s.options.eval = true
  tokens : s.options.tokens = false
  ast : s.options.ast = false
  json : s.options.json = false
  verify : (s.options.verify || s.config.verify) = false

/-- Sources given to a session one after the other. -/
def runEach (s : Session) (m : Machine) : List Text → List Step
  | [] => []
  | source :: rest =>
    let step := s.runSource m source
    step :: step.session.runEach step.machine rest

/-- The steps that a source takes in a session. -/
def stepsOf (s : Session) (source : Text) : Nat :=
  match parseSource source with
  | .ok p => (execBlock ⟨s.evaluator.maxSteps, .background⟩ p ⟨s.evaluator.env, [], 0⟩).1.steps
  | .error _ => 0

/-- The steps of all sources given to a session one after the other. -/
def stepsOfEach (s : Session) (m : Machine) : List Text → Nat
  | [] => 0
  | source :: rest =>
    let step := s.runSource m source
    s.stepsOf source + step.session.stepsOfEach step.machine rest

/-- The source is that of a program which Python accepts and which runs to its end and stops in a state. -/
structure Runs (s : Session) (source : Text) (p : Program) (state : RunState) : Prop where
  visible : source.isBlank = false
  parsed : parseSource source = .ok p
  accepted : Program.refusal? p = none
  ran : execBlock ⟨s.evaluator.maxSteps, .background⟩ p ⟨s.evaluator.env, [], 0⟩ = (state, none)

/-- The session with the variables of a state. -/
def keep (s : Session) (state : RunState) : Session :=
  { s with evaluator := { s.evaluator with env := state.env } }

end Session

namespace Compiler

theorem compile_unchecked {source : Text} {p : Program} (hvisible : source.isBlank = false)
    (h : parseSource source = .ok p) : ((Compiler.new false).compile source).1.success = true ∧
      ((Compiler.new false).compile source).2.program = some p := by
  obtain ⟨tokens, hlex, hparse⟩ := parseSource_ok h
  simp [compile, hvisible, hlex, hparse, emit, succeed, new]

theorem visible_of_success {c : Compiler} {source : Text} (h : (c.compile source).1.success = true) :
    source.isBlank = false := by
  by_cases hblank : source.isBlank = true
  · simp [compile, hblank, fail] at h
  · simpa using hblank

end Compiler

namespace Session

variable {s : Session} {source : Text} {p : Program} {state : RunState}

theorem Runs.stepsOf_eq (h : s.Runs source p state) : s.stepsOf source = state.steps := by
  simp only [stepsOf, h.parsed, h.ran]

theorem runSource_of_parsed (hs : s.InProcess) (m : Machine) (hvisible : source.isBlank = false)
    (h : parseSource source = .ok p) :
    s.runSource m source = preceded (s.log [s.compiledLine true]) (s.evaluate m p) := by
  obtain ⟨hsuccess, hprogram⟩ := Compiler.compile_unchecked hvisible h
  unfold runSource
  simp only [hs.verify, hs.json, hsuccess, hprogram, Bool.false_eq_true, ↓reduceIte]
  simp only [act, hs.eval, ↓reduceIte, listings, hs.tokens, hs.ast, Bool.false_eq_true]
  rfl

theorem Runs.runSource_eq (h : s.Runs source p state) (hs : s.InProcess) (m : Machine) :
    s.runSource m source = ⟨s.keep state, m, s.log [s.compiledLine true] ++ .stdout state.stdout, none⟩ := by
  rw [runSource_of_parsed hs m h.visible h.parsed]
  have hrun : s.evaluator.run (fun _ => false) p = ⟨{ s.evaluator with env := state.env }, state.stdout, none⟩ := by
    have hran : execBlock ⟨s.evaluator.maxSteps, fun _ => false⟩ p ⟨s.evaluator.env, [], 0⟩ = (state, none) := h.ran
    simp only [Evaluator.run, h.accepted, hran]
  rw [evaluate, hrun]
  rfl

theorem Runs.runEach_cons (h : s.Runs source p state) (hs : s.InProcess) (m : Machine) (rest : List Text) :
    s.runEach m (source :: rest) = s.runSource m source :: (s.keep state).runEach m rest := by
  rw [runEach, h.runSource_eq hs m]

theorem Runs.stepsOfEach_cons (h : s.Runs source p state) (hs : s.InProcess) (m : Machine) (rest : List Text) :
    s.stepsOfEach m (source :: rest) = state.steps + (s.keep state).stepsOfEach m rest := by
  rw [stepsOfEach, h.stepsOf_eq, h.runSource_eq hs m]

theorem Runs.written_out (h : s.Runs source p state) (hs : s.InProcess) (m : Machine) :
    (s.runSource m source).written.out = state.stdout := by
  have hlog : (s.log [s.compiledLine true]).out = [] := by
    unfold log
    split <;> rfl
  rw [h.runSource_eq hs m]
  change (s.log [s.compiledLine true]).out ++ state.stdout = state.stdout
  rw [hlog, List.nil_append]

theorem Runs.written_err (h : s.Runs source p state) (hs : s.InProcess) (m : Machine) (hquiet : s.options.verbose = false) :
    (s.runSource m source).written.err = [] := by
  rw [h.runSource_eq hs m]
  simp only [log, hquiet, Bool.false_eq_true, ↓reduceIte]
  rfl

theorem runs_of_runSource (hs : s.InProcess) {m : Machine} (h : (s.runSource m source).error = none) :
    ∃ p state, s.Runs source p state := by
  have hsuccess : ((Compiler.new false).compile source).1.success = true := by
    by_cases hsuccess : ((Compiler.new false).compile source).1.success = true
    · exact hsuccess
    · simp [runSource, hs.verify, hs.json, hsuccess, preceded] at h
  have hvisible := Compiler.visible_of_success hsuccess
  obtain ⟨_, p, _, hp, _⟩ := Compiler.compile_emits hsuccess
  rw [runSource_of_parsed hs m hvisible hp] at h
  have herror : (s.evaluator.run (fun _ => false) p).error = none := by simpa [preceded, evaluate] using h
  unfold Evaluator.run at herror
  cases hrefusal : Program.refusal? p with
  | some e => simp [hrefusal] at herror
  | none =>
    simp only [hrefusal] at herror
    exact ⟨p, _, hvisible, hp, hrefusal, Prod.ext rfl herror⟩

theorem InProcess.keep (hs : s.InProcess) (state : RunState) : (s.keep state).InProcess :=
  ⟨hs.eval, hs.tokens, hs.ast, hs.json, hs.verify⟩

end Session

theorem Text.isBlank_line {a : Text} (h : a.isBlank = false) (b : Text) : (a ++ lf :: b).isBlank = false := by
  unfold Text.isBlank at h ⊢
  rw [Text.glyphs_append a (Text.ascii_head (show lf < 128 by decide) b), List.all_append, h, Bool.false_and]

/-- A source behind an empty line keeps its normal form. -/
theorem parseSource_empty_line {a b : Text} {p q : Program} (hp : parseSource a = .ok p) (hq : parseSource b = .ok q) :
    ∃ q', parseSource (a ++ Text.lf :: Text.lf :: b) = .ok (p ++ q') ∧ bareBlock q' = bareBlock q := by
  have hempty : parseSource [] = .ok [] := rfl
  have hline : parseSource (Text.lf :: b) = .ok (relabelBlock (Token.down 1) q) := by
    have := parseSource_line hempty b
    rw [hq] at this
    exact this
  have hlines := parseSource_line hp (Text.lf :: b)
  rw [hline] at hlines
  exact ⟨_, hlines, by rw [(moves_down _).bare_block, (moves_down _).bare_block]⟩

theorem walkBlock_append (p q : List Stmt) : walkBlock (p ++ q) = walkBlock p ++ walkBlock q := by
  induction p with
  | nil => rfl
  | cons s rest ih => rw [List.cons_append, walkBlock, ih, walkBlock, List.append_assoc]

theorem Program.refusal_append {p q : Program} (hp : Program.refusal? p = none) (hq : Program.refusal? q = none) :
    Program.refusal? (p ++ q) = none := by
  have hnode (r : Program) : Program.refusal? r = (walkBlock r).findSome? Node.refusal? := rfl
  rw [hnode] at hp hq ⊢
  rw [walkBlock_append, List.findSome?_append, hp, hq]
  rfl

theorem Program.refusal_of_bare {p q : Program} (h : bareBlock p = bareBlock q) (hq : Program.refusal? q = none) :
    Program.refusal? p = none := by
  have hp := Program.refusal_bare p
  rw [show Program.bare p = Program.bare q from h, Program.refusal_bare q, hq] at hp
  exact Option.map_eq_none_iff.mp hp.symm

theorem execBlock_of_bare {b : Bound} {p q : List Stmt} (h : bareBlock p = bareBlock q) {s s' : RunState}
    (hq : execBlock b q s = (s', none)) : execBlock b p s = (s', none) := by
  obtain ⟨hstate, herror⟩ := alike_execBlock b p s
  obtain ⟨hstate', herror'⟩ := alike_execBlock b q s
  rw [h] at hstate herror
  rw [hstate', hq] at hstate
  rw [herror', hq] at herror
  exact Prod.ext hstate.symm (Option.map_eq_none_iff.mp herror.symm)

namespace Session

variable {s : Session}

theorem Runs.join {a b : Text} {p q : Program} {first second : RunState} (ha : s.Runs a p first)
    (hb : (s.keep first).Runs b q second)
    (hroom : 0 < s.evaluator.maxSteps → ((first.steps + second.steps : Nat) : Int) ≤ s.evaluator.maxSteps) :
    ∃ r, s.Runs (a ++ Text.lf :: Text.lf :: b) r (first.behind second) := by
  obtain ⟨q', hparsed, hbare⟩ := parseSource_empty_line ha.parsed hb.parsed
  refine ⟨p ++ q', Text.isBlank_line ha.visible _, hparsed, ?_, ?_⟩
  · exact Program.refusal_append ha.accepted (Program.refusal_of_bare hbare hb.accepted)
  · exact execBlock_behind ha.ran (execBlock_of_bare hbare hb.ran) hroom

/-- Sources that run without an error one after the other run so as one text, which prints all that they print, takes all
their steps and leaves the variables of the last one. -/
theorem runs_joined (m : Machine) (rest : List Text) : ∀ {s : Session} (first : Text), s.InProcess →
    (∀ step ∈ s.runEach m (first :: rest), step.error = none) →
    (0 < s.evaluator.maxSteps → (s.stepsOfEach m (first :: rest) : Int) ≤ s.evaluator.maxSteps) →
    ∃ p state, s.Runs (Text.join (utf8 "\n\n") (first :: rest)) p state ∧
      state.steps = s.stepsOfEach m (first :: rest) ∧
      state.stdout = (s.runEach m (first :: rest)).flatMap (fun step => step.written.out) ∧
      (s.options.verbose = false → (s.runEach m (first :: rest)).flatMap (fun step => step.written.err) = []) ∧
      (s.runEach m (first :: rest)).getLast?.map (fun step => step.session.evaluator) =
        some (s.keep state).evaluator := by
  induction rest with
  | nil =>
    intro s first hs herror hroom
    obtain ⟨p, state, hruns⟩ := runs_of_runSource hs (herror _ (List.mem_cons_self ..))
    refine ⟨p, state, hruns, ?_, ?_, ?_, ?_⟩
    · rw [hruns.stepsOfEach_cons hs m, stepsOfEach, Nat.add_zero]
    · rw [hruns.runEach_cons hs m, runEach, List.flatMap_cons, hruns.written_out hs m, List.flatMap_nil, List.append_nil]
    · intro hquiet
      rw [hruns.runEach_cons hs m, runEach, List.flatMap_cons, hruns.written_err hs m hquiet]
      rfl
    · rw [hruns.runEach_cons hs m, runEach, hruns.runSource_eq hs m]
      rfl
  | cons second rest ih =>
    intro s first hs herror hroom
    obtain ⟨p, state, hruns⟩ := runs_of_runSource hs (herror _ (List.mem_cons_self ..))
    rw [hruns.runEach_cons hs m] at herror ⊢
    rw [hruns.stepsOfEach_cons hs m] at hroom ⊢
    obtain ⟨q, last, hlast, hcount, hout, herr, hvars⟩ := ih second (hs.keep state)
      (fun step hstep => herror step (List.mem_cons_of_mem _ hstep))
      (fun hlimit => by
        have : s.evaluator.maxSteps = (s.keep state).evaluator.maxSteps := rfl
        have := hroom hlimit
        omega)
    rw [← hcount] at hroom ⊢
    obtain ⟨r, hjoined⟩ := hruns.join hlast hroom
    refine ⟨r, state.behind last, ?_, rfl, ?_, ?_, ?_⟩
    · have hgap : utf8 "\n\n" = [Text.lf, Text.lf] := by decide
      simpa [Text.join, hgap] using hjoined
    · rw [RunState.stdout_behind, List.flatMap_cons, hruns.written_out hs m, hout]
    · intro hquiet
      rw [List.flatMap_cons, hruns.written_err hs m hquiet, herr hquiet, List.append_nil]
    · rw [runEach, List.getLast?_cons_cons]
      exact hvars

/-- Sources run one after the other and the text that they make together, with an empty line between each two, come to
the same: no error, the same output, the same variables. The log apart, nothing is written to the standard error. -/
theorem runSource_joined {s : Session} (hs : s.InProcess) (m : Machine) (first : Text) (rest : List Text)
    (herror : ∀ step ∈ s.runEach m (first :: rest), step.error = none)
    (hroom : 0 < s.evaluator.maxSteps → (s.stepsOfEach m (first :: rest) : Int) ≤ s.evaluator.maxSteps) :
    let whole := s.runSource m (Text.join (utf8 "\n\n") (first :: rest))
    whole.error = none ∧
      whole.written.out = (s.runEach m (first :: rest)).flatMap (fun step => step.written.out) ∧
      (s.options.verbose = false →
        whole.written.err = (s.runEach m (first :: rest)).flatMap (fun step => step.written.err)) ∧
      (s.runEach m (first :: rest)).getLast?.map (fun step => step.session.evaluator) = some whole.session.evaluator := by
  obtain ⟨p, state, hruns, _, hout, herr, hvars⟩ := runs_joined m rest first hs herror hroom
  refine ⟨?_, ?_, ?_, ?_⟩
  · rw [hruns.runSource_eq hs m]
  · rw [hruns.written_out hs m, hout]
  · intro hquiet
    rw [hruns.written_err hs m hquiet, herr hquiet]
  · rw [hruns.runSource_eq hs m, hvars]

/-- Three sources, a loop among them, that take all the steps there are. -/
theorem runSource_joined_loop :
    let s := Session.new { Config.default [] with maxSteps := 7 } { Options.none with eval := true } ⟨[], []⟩
    let m : Machine := ⟨⟨[], []⟩, [], [], false⟩
    let first := utf8 "create variable x with value \"a\""
    let second := utf8 "while x is not equal to \"aaa\" do\nset x to x + \"a\"\nend while"
    let third := utf8 "print x"
    s.InProcess ∧ (∀ step ∈ s.runEach m [first, second, third], step.error = none) ∧
      s.stepsOfEach m [first, second, third] = 7 ∧
      (s.runSource m (Text.join (utf8 "\n\n") [first, second, third])).error = none ∧
      (s.runSource m (Text.join (utf8 "\n\n") [first, second, third])).written.out = utf8 "aaa\n" := by
  intro s m first second third
  have hs : s.InProcess := ⟨rfl, rfl, rfl, rfl, rfl⟩
  have herror : ∀ step ∈ s.runEach m [first, second, third], step.error = none := by decide +kernel
  have hsteps : s.stepsOfEach m [first, second, third] = 7 := by decide +kernel
  have hout : (s.runEach m [first, second, third]).flatMap (fun step => step.written.out) = utf8 "aaa\n" := by
    decide +kernel
  obtain ⟨hnone, hsame, _⟩ := runSource_joined hs m first [second, third] herror (fun _ => by rw [hsteps]; decide)
  exact ⟨hs, herror, hsteps, hnone, hsame.trans hout⟩

end Session

end EnglishScript
