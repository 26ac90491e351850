import Mathlib.Data.List.Forall2
import EnglishScript.Runner
import EnglishScript.Proofs.WrittenFile

namespace EnglishScript

/-- Once a run is told to end, it is told so again for the same reason. -/
def Steady (asks : Nat → Option Ending) : Prop :=
  ∀ n reason, asks n = some reason → asks (n + 1) = some reason

namespace Runner

/-- Why an interpreter at a place is passed over: it cannot be started, or it is only a shell that does not find it. -/
inductive PassedOver (host : Host) (program : Text) : Text × Nat → Setback → Prop
  | unstartable {name reason : Text} {place : Nat} (h : host place name program = .error reason) :
    PassedOver host program (name, place) (.unstartable name reason)
  | absent {name : Text} {place : Nat} {f : Finished} (h : host place name program = .ok f) (hstatus : f.status ≠ 0)
    (hshell : Text.hasInfix (utf8 "not found") f.stderr = true) :
    PassedOver host program (name, place) (.absent name f.stderr.trim)

/-- The interpreter at a place runs the program, and this is what comes of it. -/
def Completes (host : Host) (program name : Text) (place : Nat) (output : RunOutput) : Prop :=
  ∃ f, host place name program = .ok f ∧ (f.status = 0 ∨ Text.hasInfix (utf8 "not found") f.stderr = false) ∧
    output = ⟨name, f.stdout, f.stderr, f.status⟩

/-- All that a run says that stops at an interpreter without giving its output. -/
def silentError (host : Host) (program name : Text) (place : Nat) : Option RunnerError :=
  match host place name program with
  | .ok _ => none
  | .error reason => some (.setback (.unstartable name reason))

/-- What a run reports that goes no further than the interpreter at a place, about which it asks twice whether it is to
end. If it hears so only the second time, it reports nothing of it. -/
inductive Stops (host : Host) (asks : Nat → Option Ending) (program name : Text) (place : Nat) :
    RunOutput → Option RunnerError → Prop
  | completed {output : RunOutput} (h : Completes host program name place output) :
    Stops host asks program name place output none
  | ended {reason : Ending} (h : asks (2 * place) = some reason) :
    Stops host asks program name place .none (some (.setback (.ended name reason)))
  | cut (hfirst : asks (2 * place) = none) (hsecond : asks (2 * place + 1) ≠ none) :
    Stops host asks program name place .none (silentError host program name place)

variable {asks : Nat → Option Ending}

theorem saysNotFound_iff (name : Text) (f : Finished) :
    RunOutput.saysNotFound ⟨name, f.stdout, f.stderr, f.status⟩ = true ↔
      f.status ≠ 0 ∧ Text.hasInfix (utf8 "not found") f.stderr = true := by
  simp [RunOutput.saysNotFound]

/-- One interpreter: it is passed over and the run goes on, or the run stops there. -/
theorem tryEach_cons (host : Host) (hasks : Steady asks) (program path : Text) (setbacks : List Setback) (name : Text)
    (place : Nat) (rest : List (Text × Nat)) :
    (∃ s line, PassedOver host program (name, place) s ∧ tryEach host asks program path setbacks ((name, place) :: rest) =
      let r := tryEach host asks program path (setbacks ++ [s]) rest
      { r with log := line :: r.log, tried := name :: r.tried }) ∨
    ∃ output error log, Stops host asks program name place output error ∧
      tryEach host asks program path setbacks ((name, place) :: rest) = ⟨output, error, log, [name]⟩ := by
  -- the first answer takes the place of what the interpreter gave, the second only stops the run
  cases hfirst : asks (2 * place) with
  | some reason =>
    have hsecond := hasks (2 * place) reason hfirst
    refine Or.inr ⟨_, _, [], .ended hfirst, ?_⟩
    simp only [tryEach, attempt, hfirst, hsecond]
  | none =>
    cases hsecond : asks (2 * place + 1) with
    | some reason =>
      have hheard : asks (2 * place + 1) ≠ none := by simp [hsecond]
      refine Or.inr ⟨_, _, [], .cut hfirst hheard, ?_⟩
      cases hrun : host place name program with
      | error reason => simp only [tryEach, attempt, silentError, hfirst, hsecond, hrun]
      | ok f => simp only [tryEach, attempt, silentError, hfirst, hsecond, hrun]
    | none =>
      cases hrun : host place name program with
      | error reason =>
        refine Or.inl ⟨_, name ++ utf8 ": " ++ (Setback.unstartable name reason).message, .unstartable hrun, ?_⟩
        simp only [tryEach, attempt, hfirst, hsecond, hrun]
      | ok f =>
        by_cases hshell : RunOutput.saysNotFound ⟨name, f.stdout, f.stderr, f.status⟩ = true
        · obtain ⟨hstatus, hinfix⟩ := (saysNotFound_iff name f).mp hshell
          refine Or.inl ⟨_, (Setback.absent name f.stderr.trim).message, .absent hrun hstatus hinfix, ?_⟩
          simp only [tryEach, attempt, hfirst, hsecond, hrun, hshell, ↓reduceIte]
        · have hran : f.status = 0 ∨ Text.hasInfix (utf8 "not found") f.stderr = false := by
            rwa [saysNotFound_iff, not_and_or, not_not, Bool.not_eq_true] at hshell
          refine Or.inr ⟨_, _, [utf8 "ran " ++ path ++ utf8 " with " ++ name ++ utf8 " (exit " ++ Text.ofInt f.status ++
            utf8 ")"], .completed ⟨f, hrun, hran, rfl⟩, ?_⟩
          simp only [tryEach, attempt, hfirst, hsecond, hrun, hshell, Bool.false_eq_true, ↓reduceIte]

/-- The interpreters before this one, with their places from `k` on, are passed over. -/
def ComesTo (host : Host) (program : Text) (k : Nat) (names before : List Text) (name : Text) : Prop :=
  (∃ after, names = before ++ name :: after) ∧ ∃ passed, List.Forall₂ (PassedOver host program) (before.zipIdx k) passed

/-- A run passes over interpreters until it stops at one or none is left. -/
theorem tryEach_stops (host : Host) (hasks : Steady asks) (program path : Text) (names : List Text) :
    ∀ (k : Nat) (setbacks : List Setback), let r := tryEach host asks program path setbacks (names.zipIdx k)
    (∃ more, List.Forall₂ (PassedOver host program) (names.zipIdx k) more ∧
      r.error = some (.noInterpreter (setbacks ++ more))) ∨
    ∃ before name, ComesTo host program k names before name ∧ r.tried = before ++ [name] ∧
      Stops host asks program name (k + before.length) r.output r.error := by
  induction names with
  | nil =>
    intro k setbacks
    exact Or.inl ⟨[], .nil, by rw [List.append_nil]; rfl⟩
  | cons name rest ih =>
    intro k setbacks
    rw [List.zipIdx_cons]
    rcases tryEach_cons host hasks program path setbacks name k (rest.zipIdx (k + 1)) with
      ⟨s, line, hs, hrest⟩ | ⟨output, error, log, hstops, hrecord⟩
    · rw [hrest]
      rcases ih (k + 1) (setbacks ++ [s]) with ⟨more, hmore, herror⟩ |
        ⟨before, last, ⟨⟨after, hnames⟩, passed, hpassed⟩, htried, hstops⟩
      · refine Or.inl ⟨s :: more, .cons hs hmore, ?_⟩
        rw [herror, List.append_assoc]
        rfl
      · refine Or.inr ⟨name :: before, last, ⟨⟨after, ?_⟩, s :: passed, ?_⟩, ?_, ?_⟩
        · rw [hnames, List.cons_append]
        · rw [List.zipIdx_cons]
          exact .cons hs hpassed
        · exact congrArg (name :: ·) htried
        · have hplace : k + (name :: before).length = k + 1 + before.length := by
            rw [List.length_cons]
            omega
          rw [hplace]
          exact hstops
    · rw [hrecord]
      exact Or.inr ⟨[], name, ⟨⟨rest, rfl⟩, [], .nil⟩, rfl, hstops⟩

/-- The run is told to end between its two questions about an interpreter. It stops there without saying so. -/
def CutShort (host : Host) (asks : Nat → Option Ending) (program : Text) (names : List Text) (r : RunRecord) : Prop :=
  ∃ before name, ComesTo host program 0 names before name ∧ asks (2 * before.length) = none ∧
    asks (2 * before.length + 1) ≠ none ∧ r.output = .none ∧ r.error = silentError host program name before.length ∧
    r.tried = before ++ [name]

def programPath (r : Runner) (tempRoot tempName : Text) : Text :=
  tempPath (if r.tempDir.isEmpty then tempRoot else r.tempDir) tempName

theorem run_of_write {r : Runner} {tempRoot tempName program : Text} {files made : FileTree} (host : Host)
    (asks : Nat → Option Ending) (h : files.write (r.programPath tempRoot tempName) program = .ok made) :
    r.run host asks tempRoot tempName program files =
      (tryEach host asks program (r.programPath tempRoot tempName) [] r.interpreters.zipIdx,
        made.remove (r.programPath tempRoot tempName)) := by
  unfold programPath at h ⊢
  simp only [run, h]

/-- What a run reports that is not cut short. Without an error it reports the first interpreter that is not passed over,
and tries none after it. It finds no interpreter only if all are passed over, and names each of them. Any other error is
that it was told to end. -/
structure Reports (host : Host) (asks : Nat → Option Ending) (program : Text) (names : List Text) (r : RunRecord) :
    Prop where
  first : r.error = none → ∃ before name, ComesTo host program 0 names before name ∧
    Completes host program name before.length r.output ∧ r.tried = before ++ [name]
  missing : ∀ setbacks, r.error = some (.noInterpreter setbacks) →
    List.Forall₂ (PassedOver host program) names.zipIdx setbacks
  ended : ∀ e, r.error = some e → (∃ setbacks, e = .noInterpreter setbacks) ∨
    ∃ n name reason, asks n = some reason ∧ e = .setback (.ended name reason)

theorem reports_of_passedOver {host : Host} {program : Text} {names : List Text} {r : RunRecord} {setbacks : List Setback}
    (h : List.Forall₂ (PassedOver host program) names.zipIdx setbacks) (herror : r.error = some (.noInterpreter setbacks)) :
    Reports host asks program names r where
  first hnone := nomatch herror.symm.trans hnone
  missing others hothers := by
    cases herror.symm.trans hothers
    exact h
  ended e he := by
    cases herror.symm.trans he
    exact Or.inl ⟨setbacks, rfl⟩

theorem Stops.reports {host : Host} {program : Text} {names before : List Text} {name : Text} {r : RunRecord}
    (h : Stops host asks program name before.length r.output r.error)
    (hcomes : ComesTo host program 0 names before name) (htried : r.tried = before ++ [name]) :
    CutShort host asks program names r ∨ Reports host asks program names r := by
  obtain ⟨output, error, log, tried⟩ := r
  cases h with
  | completed hran =>
    refine Or.inr ⟨fun _ => ⟨before, name, hcomes, hran, htried⟩, fun setbacks herror => ?_, fun e herror => ?_⟩
    · cases herror
    · cases herror
  | ended hreason =>
    refine Or.inr ⟨fun herror => ?_, fun setbacks herror => ?_, fun e herror => ?_⟩
    · cases herror
    · cases herror
    · cases herror
      exact Or.inr ⟨_, name, _, hreason, rfl⟩
  | cut hfirst hsecond => exact Or.inl ⟨before, name, hcomes, hfirst, hsecond, rfl, rfl, htried⟩

theorem tryEach_reports (host : Host) (hasks : Steady asks) (program path : Text) (names : List Text) :
    CutShort host asks program names (tryEach host asks program path [] names.zipIdx) ∨
      Reports host asks program names (tryEach host asks program path [] names.zipIdx) := by
  rcases tryEach_stops host hasks program path names 0 [] with ⟨setbacks, hpassed, herror⟩ |
    ⟨before, name, hcomes, htried, hstops⟩
  · exact Or.inr (reports_of_passedOver hpassed herror)
  · rw [Nat.zero_add] at hstops
    exact hstops.reports hcomes htried

/-- A run with a file of its own gives one of the two reports, and leaves every file as it was. -/
theorem run_reports (r : Runner) (host : Host) (tempRoot tempName program : Text) {files made : FileTree}
    (hasks : Steady asks) (hfree : files.find (r.programPath tempRoot tempName) = .error .noSuchFile)
    (hmade : files.write (r.programPath tempRoot tempName) program = .ok made) :
    let (record, left) := r.run host asks tempRoot tempName program files
    (CutShort host asks program r.interpreters record ∨ Reports host asks program r.interpreters record) ∧
      ∀ path, left.find path = files.find path := by
  rw [run_of_write host asks hmade]
  exact ⟨tryEach_reports host hasks program _ r.interpreters, FileTree.find_remove_write hfree hmade⟩

/-- A deadline that has passed when the run asks for the `k`-th time, counted from zero. -/
def deadlineAt (k : Nat) : Nat → Option Ending := fun n =>
  if n < k then none else some .deadlineExceeded

theorem steady_deadlineAt (k : Nat) : Steady (deadlineAt k) := by
  intro n reason h
  unfold deadlineAt at h ⊢
  split at h
  next => cases h
  next hn => rwa [if_neg (by omega)]

/-- A host without `python`, where `python3` is a shell that does not find it. -/
def pypyOnly : Host := fun _ name _ =>
  if name = utf8 "python" then .error (utf8 "exec: \"python\": executable file not found in $PATH")
  else if name = utf8 "python3" then .ok ⟨[], utf8 "sh: 1: python3: not found\n", 127⟩
  else .ok ⟨utf8 "1\n", [], 0⟩

def pythonOrPypy : Runner := ⟨[utf8 "python", utf8 "python3", utf8 "pypy"], 10000000000, utf8 "/d/tmp"⟩

/-- A tree that holds only the directory for the program's file. -/
def tempOnly : FileTree := ⟨utf8 "/d", [([utf8 "tmp"], .directory)]⟩

def pypyRun (asks : Nat → Option Ending) : RunRecord × FileTree :=
  pythonOrPypy.run pypyOnly asks [] (utf8 "ebpl_1.py") (utf8 "print(1)\n") tempOnly

/-- The deadline passes after the third interpreter was asked about twice: the run reports it. -/
theorem run_reports_third :
    Steady (deadlineAt 6) ∧ tempOnly.find (utf8 "/d/tmp/ebpl_1.py") = .error .noSuchFile ∧
    (pypyRun (deadlineAt 6)).1.error = none ∧
    (∃ before name, ComesTo pypyOnly (utf8 "print(1)\n") 0 pythonOrPypy.interpreters before name ∧
      Completes pypyOnly (utf8 "print(1)\n") name before.length (pypyRun (deadlineAt 6)).1.output ∧
      (pypyRun (deadlineAt 6)).1.tried = before ++ [name]) ∧
    ∀ path, (pypyRun (deadlineAt 6)).2.find path = tempOnly.find path := by
  have hfree : tempOnly.find (utf8 "/d/tmp/ebpl_1.py") = .error .noSuchFile := by decide +kernel
  have herror : (pypyRun (deadlineAt 6)).1.error = none := by decide +kernel
  obtain ⟨hcut | hreports, hleft⟩ := run_reports pythonOrPypy pypyOnly [] (utf8 "ebpl_1.py") (utf8 "print(1)\n")
    (steady_deadlineAt 6) hfree rfl
  · obtain ⟨_, _, _, _, _, hout, _⟩ := hcut
    exact absurd hout (by decide +kernel)
  · exact ⟨steady_deadlineAt 6, hfree, herror, hreports.first herror, hleft⟩

/-- The deadline passes one question earlier: the interpreter ran, and the run reports neither its output nor an error. -/
theorem cut_short_silent :
    Steady (deadlineAt 5) ∧ tempOnly.find (utf8 "/d/tmp/ebpl_1.py") = .error .noSuchFile ∧
    (pypyRun (deadlineAt 5)).1.error = none ∧
    ¬∃ before name, ComesTo pypyOnly (utf8 "print(1)\n") 0 pythonOrPypy.interpreters before name ∧
      Completes pypyOnly (utf8 "print(1)\n") name before.length (pypyRun (deadlineAt 5)).1.output := by
  refine ⟨steady_deadlineAt 5, by decide +kernel, by decide +kernel, ?_⟩
  rintro ⟨before, name, ⟨⟨after, hnames⟩, _⟩, f, _, _, hout⟩
  have hnone : (pypyRun (deadlineAt 5)).1.output = .none := by decide +kernel
  have hname : name = [] := congrArg RunOutput.interpreter (hout.symm.trans hnone)
  have hmem : name ∈ pythonOrPypy.interpreters := by simp [hnames]
  rw [hname] at hmem
  exact absurd hmem (by decide +kernel)

end Runner

end EnglishScript
