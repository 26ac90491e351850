import EnglishScript.Pipeline
import EnglishScript.Proofs.WholeArithmetic

namespace EnglishScript

open Whole

/-- A result with the whole numbers that were computed on the way to it. -/
abbrev Traced (α : Type) := List Int × α

namespace Traced

/-- The result as it is, with nothing computed on the way. -/
def silent {α : Type} (a : α) : Traced α := ([], a)

/-- Goes on with a value, unless there is an error. -/
def bind {α β : Type} (t : Traced (Except RunError α)) (f : α → Traced (Except RunError β)) :
    Traced (Except RunError β) :=
  match t.2 with
  | .ok a => (t.1 ++ (f a).1, (f a).2)
  | .error e => (t.1, .error e)

/-- The given result is the one that was traced, if all whole numbers on the way fit. -/
def Agrees {α : Type} (t : Traced α) (a : α) : Prop :=
  (∀ k ∈ t.1, Whole.Fits k) → t.2 = a

theorem agrees_silent {α : Type} (a : α) : (silent a).Agrees a :=
  fun _ => rfl

theorem Agrees.bind {α β : Type} {t : Traced (Except RunError α)} {x : Except RunError α} (ht : t.Agrees x)
    {f : α → Traced (Except RunError β)} {g : α → Except RunError β} (hf : ∀ a, x = .ok a → (f a).Agrees (g a)) :
    (t.bind f).Agrees (x.bind g) := by
  intro h
  unfold Traced.bind at h ⊢
  obtain ⟨ns, y⟩ := t
  cases y with
  | error e =>
    rw [← ht h]
    rfl
  | ok a =>
    dsimp only at h ⊢
    have hx : .ok a = x := ht fun k hk => h k (List.mem_append_left _ hk)
    rw [← hx]
    exact hf a hx.symm fun k hk => h k (List.mem_append_right _ hk)

end Traced

namespace Exact

open Traced

/-- Arithmetic with Python's whole numbers. -/
def arithmetic (op : Token) (l r : Value) : Traced (Except RunError Value) :=
  match l.whole?, r.whole? with
  | some m, some n =>
    match result? op.lexeme m n with
    | some k => ([k], .ok (.int k))
    | none => silent (Evaluation.arithmetic op l r)
  | _, _ => silent (Evaluation.arithmetic op l r)

/-- A comparison with Python's whole numbers. -/
def comparison (op : Token) (l r : Value) : Except RunError Value :=
  match l.whole?, r.whole? with
  | some m, some n => .ok (.bool (compares (Form.comparison.symbol op) m n))
  | _, _ => Evaluation.comparison op l r

/-- The value of an expression with Python's whole numbers. -/
def value [Python.Decoder] (env : Env) : Expr → Traced (Except RunError Value)
  | .operation form left op right => (value env left).bind fun l =>
    if form = .logic then
      if (op.kind == .and) != l.truthy then silent (.ok l) else value env right
    else (value env right).bind fun r =>
      if form = .arithmetic then arithmetic op l r else silent (comparison op l r)
  | e => silent (e.eval env)

theorem arithmetic_agrees {op : Token} {l r : Value} (hl : l.Fits) (hr : r.Fits) :
    (arithmetic op l r).Agrees (Evaluation.arithmetic op l r) := by
  unfold arithmetic
  split
  next m n hm hn =>
    split
    next k hk =>
      intro h
      obtain ⟨j, hj, hexact⟩ := Evaluation.arithmetic_whole hl hr hm hn hk
      have hfits : Whole.Fits k := h k (List.mem_singleton_self k)
      rw [hj, (hexact hfits.range).mpr hfits.short]
    next => exact agrees_silent _
  next => exact agrees_silent _

theorem comparison_eq {op : Token} {l r : Value} (hl : l.Fits) (hr : r.Fits) :
    comparison op l r = Evaluation.comparison op l r := by
  unfold comparison
  split
  next m n hm hn => rw [Evaluation.comparison_whole hl hr hm hn]
  next => rfl

theorem value_agrees [Python.Decoder] {env : Env} (henv : env.Fits) (e : Expr) : (value env e).Agrees (e.eval env) := by
  induction e with
  | operation form left op right ihl ihr =>
    rw [value, Expr.eval_operation]
    refine ihl.bind fun l hl => ?_
    split
    · split
      · exact agrees_silent _
      · exact ihr
    · refine ihr.bind fun r hr => ?_
      split
      · exact arithmetic_agrees (Expr.eval_fits henv hl) (Expr.eval_fits henv hr)
      · rw [comparison_eq (Expr.eval_fits henv hl) (Expr.eval_fits henv hr)]
        exact agrees_silent _
  | _ => exact agrees_silent _

/-- A piece of a run with Python's whole numbers. -/
abbrev Action := RunState → Traced (RunState × Option RunError)

/-- An action that computes nothing. -/
def lift (a : EnglishScript.Action) : Action := fun s => silent (a s)

/-- One action after the other, unless the first one stops. -/
def andThen (first second : Action) : Action := fun s =>
  match (first s).2 with
  | (s', none) => ((first s).1 ++ (second s').1, (second s').2)
  | (s', some e) => ((first s).1, (s', some e))

/-- Evaluates an expression and goes on with its value. -/
def withValue [Python.Decoder] (e : Expr) (next : Value → Action) : Action := fun s =>
  match (value s.env e).2 with
  | .ok v => ((value s.env e).1 ++ (next v s).1, (next v s).2)
  | .error err => ((value s.env e).1, (s, some err))

/-- Repeats a body while a condition holds, at most `turns` times. -/
def repeatWhile [Python.Decoder] (cond : Expr) (body : Action) : Nat → Action
  | 0 => withValue cond fun v => if v.truthy then lift (.stop .horizon) else lift .done
  | turns + 1 => withValue cond fun v => if v.truthy then andThen body (repeatWhile cond body turns) else lift .done

mutual

/-- Runs a statement. -/
def stmt [Python.Decoder] (b : Bound) : Stmt → Action
  | .create name e => withValue e fun v => lift fun s => (s.assign name.lexeme v, none)
  | .assign name e => withValue e fun v => lift fun s => (s.assign name.lexeme v, none)
  | .print _ e => withValue e fun v => lift fun s => (s.print v, none)
  | .branch _ cond yes no => withValue cond fun v =>
    if v.truthy then block b yes
    else
      match no with
      | some ss => block b ss
      | none => lift .done
  | .loop _ cond ss => repeatWhile cond (andThen (lift b.step) (block b ss)) b.turns
  | .hole => lift (.stop (.fault .missingStatement))

/-- Runs the statements of a block in order, each one a step. -/
def block [Python.Decoder] (b : Bound) : List Stmt → Action
  | [] => lift .done
  | s :: rest => andThen (lift b.step) (andThen (stmt b s) (block b rest))

end

/-- Runs a program, unless Python would refuse it. -/
def run [Python.Decoder] (ev : Evaluator) (ctx : Context) (p : Program) : Traced Evaluator.Outcome :=
  match Program.refusal? p with
  | some e => silent ⟨ev, [], some e⟩
  | none =>
    let (ns, s, error) := block ⟨ev.maxSteps, ctx⟩ p ⟨ev.env, [], 0⟩
    (ns, ⟨{ ev with env := s.env }, s.stdout, error⟩)

/-- From variables that fit, the action leaves such variables, and it is what was traced if every number fits. -/
def Follows (t : Action) (a : EnglishScript.Action) : Prop :=
  ∀ s : RunState, s.env.Fits → (a s).1.env.Fits ∧ (t s).Agrees (a s)

theorem follows_lift {a : EnglishScript.Action} (h : ∀ s : RunState, s.env.Fits → (a s).1.env.Fits) :
    Follows (lift a) a :=
  fun s hs => ⟨h s hs, agrees_silent _⟩

theorem follows_done : Follows (lift .done) .done :=
  follows_lift fun _ => id

theorem follows_stop (e : RunError) : Follows (lift (.stop e)) (.stop e) :=
  follows_lift fun _ => id

theorem follows_step (b : Bound) : Follows (lift b.step) b.step :=
  follows_lift fun s hs => by rwa [Bound.step, Action.step_env]

theorem Follows.andThen {t u : Action} {a b : EnglishScript.Action} (ht : Follows t a) (hu : Follows u b) :
    Follows (andThen t u) (a.andThen b) := by
  intro s hs
  obtain ⟨hfits, hagrees⟩ := ht s hs
  unfold Exact.andThen EnglishScript.Action.andThen
  generalize a s = result at hfits hagrees
  obtain ⟨s', error⟩ := result
  refine ⟨?_, fun h => ?_⟩
  · cases error with
    | none => exact (hu s' hfits).1
    | some e => exact hfits
  · unfold Traced.Agrees at hagrees
    generalize t s = traced at h hagrees
    obtain ⟨ns, s₁, error₁⟩ := traced
    cases error₁ with
    | none =>
      cases hagrees fun k hk => h k (List.mem_append_left _ hk)
      exact (hu s' hfits).2 fun k hk => h k (List.mem_append_right _ hk)
    | some e =>
      cases hagrees h
      rfl

theorem follows_withValue [Python.Decoder] (e : Expr) {t : Value → Action} {a : Value → EnglishScript.Action}
    (h : ∀ v, v.Fits → Follows (t v) (a v)) : Follows (withValue e t) (.withValue e a) := by
  intro s hs
  have hagrees := value_agrees hs e
  have hfits : ∀ v, e.eval s.env = .ok v → v.Fits := fun v => Expr.eval_fits hs
  unfold Exact.withValue EnglishScript.Action.withValue
  unfold Traced.Agrees at hagrees
  generalize e.eval s.env = result at hagrees hfits
  refine ⟨?_, fun hall => ?_⟩
  · cases result with
    | error err => exact hs
    | ok v => exact (h v (hfits v rfl) s hs).1
  · generalize value s.env e = traced at hall hagrees
    obtain ⟨ns, result₁⟩ := traced
    cases result₁ with
    | error err =>
      cases hagrees hall
      rfl
    | ok v =>
      cases hagrees fun k hk => hall k (List.mem_append_left _ hk)
      exact (h v (hfits v rfl) s hs).2 fun k hk => hall k (List.mem_append_right _ hk)

theorem follows_repeatWhile [Python.Decoder] (cond : Expr) {t : Action} {a : EnglishScript.Action} (h : Follows t a)
    (turns : Nat) : Follows (repeatWhile cond t turns) (.repeatWhile cond a turns) := by
  induction turns with
  | zero =>
    refine follows_withValue cond fun v _ => ?_
    split
    · exact follows_stop .horizon
    · exact follows_done
  | succ turns ih =>
    refine follows_withValue cond fun v _ => ?_
    split
    · exact h.andThen ih
    · exact follows_done

theorem follows_assign (name : Text) {v : Value} (hv : v.Fits) :
    Follows (lift fun s => (s.assign name v, none)) fun s => (s.assign name v, none) :=
  follows_lift fun _ hs => hs.set name hv

mutual

theorem follows_stmt [Python.Decoder] (b : Bound) : ∀ s : Stmt, Follows (stmt b s) (s.exec b)
  | .create name e => follows_withValue e fun _ hv => follows_assign name.lexeme hv
  | .assign name e => follows_withValue e fun _ hv => follows_assign name.lexeme hv
  | .print _ e => follows_withValue e fun _ _ => follows_lift fun _ => id
  | .branch _ cond yes none => by
    refine follows_withValue cond fun v _ => ?_
    split
    · exact follows_block b yes
    · exact follows_done
  | .branch _ cond yes (some no) => by
    refine follows_withValue cond fun v _ => ?_
    split
    · exact follows_block b yes
    · exact follows_block b no
  | .loop _ cond ss => follows_repeatWhile cond ((follows_step b).andThen (follows_block b ss)) b.turns
  | .hole => follows_stop _

theorem follows_block [Python.Decoder] (b : Bound) : ∀ ss : List Stmt, Follows (block b ss) (execBlock b ss)
  | [] => follows_done
  | s :: rest => (follows_step b).andThen ((follows_stmt b s).andThen (follows_block b rest))

end

theorem run_agrees [Python.Decoder] {ev : Evaluator} (hev : ev.env.Fits) (ctx : Context) (p : Program) :
    (ev.run ctx p).evaluator.env.Fits ∧ (run ev ctx p).Agrees (ev.run ctx p) := by
  obtain ⟨hfits, hagrees⟩ := follows_block ⟨ev.maxSteps, ctx⟩ p ⟨ev.env, [], 0⟩ hev
  unfold run Evaluator.run
  cases Program.refusal? p with
  | some e => exact ⟨hev, agrees_silent _⟩
  | none =>
    exact ⟨hfits, fun h => congrArg (fun r : RunState × Option RunError =>
      (⟨{ ev with env := r.1.env }, r.1.stdout, r.2⟩ : Evaluator.Outcome)) (hagrees h)⟩

end Exact

namespace Evaluator

/-- The evaluators that runs lead to, with any limits in between. -/
inductive Reachable [Python.Decoder] : Evaluator → Prop
  | new : Reachable new
  | limited {ev : Evaluator} (maxSteps : Int) : Reachable ev → Reachable { ev with maxSteps }
  | run {ev : Evaluator} (ctx : Context) (p : Program) : Reachable ev → Reachable (ev.run ctx p).evaluator

theorem Reachable.fits [Python.Decoder] {ev : Evaluator} (h : Reachable ev) : ev.env.Fits := by
  induction h with
  | new => exact Env.fits_empty
  | limited _ _ ih => exact ih
  | run ctx p _ ih => exact (Exact.run_agrees ih ctx p).1

end Evaluator

/-- The value of an expression in some evaluator that runs lead to. -/
def Value.Occurs [Python.Decoder] (v : Value) : Prop :=
  ∃ (ev : Evaluator) (e : Expr), ev.Reachable ∧ ev.eval e = .ok v

theorem Value.Occurs.fits [Python.Decoder] {v : Value} (h : v.Occurs) : v.Fits := by
  obtain ⟨ev, e, hev, he⟩ := h
  exact Expr.eval_fits hev.fits he

/-- Whatever whole numbers an evaluator that runs lead to may hold: a sum, a difference or a product of 64 bits is exact
if and only if it has at most 53 binary digits with zeros behind them, and a run in which all whole numbers of Python are
such numbers goes the way Python goes, up to the horizon if no limit stops it. -/
theorem whole_arithmetic_exact [Python.Decoder] :
    (∀ (op : Token) (l r : Value), l.Occurs → r.Occurs →
      ∀ m n k : Int, l.whole? = some m → r.whole? = some n → result? op.lexeme m n = some k →
        ∃ j, Evaluation.arithmetic op l r = .ok (.int j) ∧ (InRange k → (j = k ↔ Short k.natAbs))) ∧
    ∀ ev : Evaluator, ev.Reachable → ∀ (ctx : Context) (p : Program),
      (∀ k ∈ (Exact.run ev ctx p).1, InRange k ∧ Short k.natAbs) → ev.run ctx p = (Exact.run ev ctx p).2 := by
  constructor
  · intro op l r hl hr m n k hm hn hk
    exact Evaluation.arithmetic_whole hl.fits hr.fits hm hn hk
  · intro ev hev ctx p h
    exact ((Exact.run_agrees hev.fits ctx p).2 fun k hk => ⟨(h k hk).1, (h k hk).2⟩).symm

/-- The source of a program that comes from a comparison to two to the power of 53 and prints it with something added. -/
def sourceOfPower (addend : Text) : Text :=
  Text.unlines [utf8 "CREATE VARIABLE one WITH VALUE 2 IS GREATER THAN 1", utf8 "CREATE VARIABLE a WITH VALUE one + one",
    utf8 "CREATE VARIABLE b WITH VALUE a * a", utf8 "CREATE VARIABLE c WITH VALUE b * b",
    utf8 "CREATE VARIABLE d WITH VALUE c * c", utf8 "CREATE VARIABLE e WITH VALUE d * d",
    utf8 "CREATE VARIABLE f WITH VALUE e * e", utf8 "CREATE VARIABLE g WITH VALUE f * e * c * a",
    utf8 "PRINT g + " ++ addend]

/-- Two can be added, and the run prints what Python prints; the sum with one has 54 digits. -/
theorem whole_arithmetic_exact_power :
    ∃ p, parseSource (sourceOfPower (utf8 "a")) = .ok p ∧
      (∀ k ∈ (Exact.run .new .background p).1, InRange k ∧ Short k.natAbs) ∧
      Evaluator.new.run .background p = (Exact.run .new .background p).2 ∧
      (Value.int (2 ^ 53)).Occurs ∧ (Value.bool true).Occurs ∧
      ∃ j, Evaluation.arithmetic ⟨.plus, utf8 "+", ⟨1, 1⟩⟩ (.int (2 ^ 53)) (.bool true) = .ok (.int j) ∧
        (InRange (2 ^ 53 + 1) → (j = 2 ^ 53 + 1 ↔ Short (2 ^ 53 + 1 : Int).natAbs)) := by
  have hrun : ((parseSource (sourceOfPower (utf8 "a"))).toOption.any fun p =>
      (Exact.run .new .background p).1.all fun k => InRange k ∧ Short k.natAbs) = true := by decide +kernel
  have hvalues : ((parseSource (sourceOfPower (utf8 "a"))).toOption.map fun p =>
      ((Evaluator.new.run .background p).evaluator.env.get? (utf8 "g"),
        (Evaluator.new.run .background p).evaluator.env.get? (utf8 "one"))) =
      some (some (.int (2 ^ 53)), some (.bool true)) := by decide +kernel
  cases hp : parseSource (sourceOfPower (utf8 "a")) with
  | error e =>
    rw [hp] at hrun
    cases hrun
  | ok p =>
    rw [hp] at hrun hvalues
    obtain ⟨hg, hone⟩ := Prod.mk.inj (Option.some.inj hvalues)
    have occurs {name : Text} {v : Value} (h : (Evaluator.new.run .background p).evaluator.env.get? name = some v) :
        v.Occurs := by
      refine ⟨_, .var ⟨.identifier, name, ⟨1, 1⟩⟩, .run .background p .new, ?_⟩
      rw [Evaluator.eval, Expr.eval, h]
    have hshort : ∀ k ∈ (Exact.run .new .background p).1, InRange k ∧ Short k.natAbs := fun k hk =>
      of_decide_eq_true (List.all_eq_true.mp hrun k hk)
    have hsum := whole_arithmetic_exact.1 ⟨.plus, utf8 "+", ⟨1, 1⟩⟩ _ _ (occurs hg) (occurs hone) _ _ _ rfl rfl rfl
    have hpython := whole_arithmetic_exact.2 .new .new .background p hshort
    exact ⟨p, rfl, hshort, hpython, occurs hg, occurs hone, hsum⟩

/-- One more than two to the power of 53 is printed without the one. -/
theorem power_plus_one_rounded :
    ((parseSource (sourceOfPower (utf8 "one"))).toOption.map fun p =>
      ((Evaluator.new.run .background p).stdout, (Exact.run .new .background p).2.stdout)) =
        some (utf8 "9007199254740992\n", utf8 "9007199254740993\n") := by
  decide +kernel

end EnglishScript
