import EnglishScript.Proofs.RunInduction

namespace EnglishScript

/-- The state if what `base` printed and its steps had come before. -/
def RunState.behind (base s : RunState) : RunState :=
  ⟨s.env, s.printed ++ base.printed, base.steps + s.steps⟩

theorem RunState.stdout_behind (base s : RunState) : (base.behind s).stdout = base.stdout ++ s.stdout := by
  simp [RunState.stdout, RunState.behind]

namespace Action

/-- The counter is never above the number of steps; it is below it once it has wrapped around. -/
theorem counter_le (steps : Nat) : (counter steps).toInt ≤ steps := by
  rw [counter, Int64.toInt_ofNat', Int.bmod, Int64.size]
  split <;> omega

/-- The action never takes a step back, and if it ends well, it does so behind every run that leaves it room. -/
def Frames (limit : Int) (a : Action) : Prop :=
  ∀ s s', a s = (s', none) → s.steps ≤ s'.steps ∧
    ∀ base : RunState, (0 < limit → ((base.steps + s'.steps : Nat) : Int) ≤ limit) →
      a (base.behind s) = (base.behind s', none)

variable {limit : Int}

theorem Frames.andThen {a b : Action} (ha : a.Frames limit) (hb : b.Frames limit) : (a.andThen b).Frames limit := by
  intro s s' h
  unfold Action.andThen at h ⊢
  cases hfirst : a s with
  | mk middle error =>
    rw [hfirst] at h
    cases error with
    | some e => cases h
    | none =>
      obtain ⟨hle, hframe⟩ := ha s middle hfirst
      obtain ⟨hle', hframe'⟩ := hb middle s' h
      refine ⟨Nat.le_trans hle hle', fun base hroom => ?_⟩
      -- the first action has room, since the second one takes no step back
      rw [hframe base fun hlimit => by have := hroom hlimit; omega]
      exact hframe' base hroom

theorem frames_withValue (e : Expr) {next : Value → Action} (h : ∀ v, (next v).Frames limit) :
    (withValue e next).Frames limit := by
  intro s s' hs
  unfold withValue at hs ⊢
  have henv (base : RunState) : (base.behind s).env = s.env := rfl
  simp only [henv]
  cases hv : e.eval s.env with
  | error err =>
    rw [hv] at hs
    cases hs
  | ok v =>
    rw [hv] at hs
    exact h v s s' hs

theorem frames_step (limit : Int) : (step limit .background).Frames limit := by
  intro s s' h
  simp only [step, Context.background, Bool.false_eq_true, ↓reduceIte] at h ⊢
  split at h
  next => cases h
  next =>
    cases h
    refine ⟨Nat.le_succ _, fun base hroom => ?_⟩
    have hsteps : 0 < limit → ((base.steps + (s.steps + 1) : Nat) : Int) ≤ limit := hroom
    split
    next hover =>
      obtain ⟨hlimit, hover⟩ := Bool.and_eq_true_iff.mp hover
      have hroom := hsteps (of_decide_eq_true hlimit)
      have hpast : limit < ((base.steps + s.steps + 1 : Nat) : Int) :=
        Int.lt_of_lt_of_le (of_decide_eq_true hover) (counter_le _)
      omega
    next => rfl

theorem keeps_frames (limit : Int) : Keeps ⟨limit, .background⟩ (fun _ => True) (Frames limit) where
  done := by
    rintro s _ ⟨⟩
    exact ⟨Nat.le_refl _, fun _ _ => rfl⟩
  horizon := by rintro s s' ⟨⟩
  hole _ := by rintro s s' ⟨⟩
  step := frames_step limit
  assign _ _ v := by
    rintro s _ ⟨⟩
    exact ⟨Nat.le_refl _, fun _ _ => rfl⟩
  print v := by
    rintro s _ ⟨⟩
    exact ⟨Nat.le_refl _, fun _ _ => rfl⟩
  andThen := Frames.andThen
  withValue _ := frames_withValue _

end Action

theorem execBlock_frames (limit : Int) (ss : List Stmt) : (execBlock ⟨limit, .background⟩ ss).Frames limit :=
  (Action.keeps_frames limit).block fun _ _ => trivial

theorem Action.andThen_assoc (a b c : Action) : (a.andThen b).andThen c = a.andThen (b.andThen c) := by
  funext s
  unfold Action.andThen
  cases a s with
  | mk s' error => cases error <;> rfl

theorem execBlock_append (b : Bound) (p q : List Stmt) :
    execBlock b (p ++ q) = (execBlock b p).andThen (execBlock b q) := by
  induction p with
  | nil => rfl
  | cons s rest ih => rw [List.cons_append, execBlock, ih, execBlock, Action.andThen_assoc, Action.andThen_assoc]

/-- A program and one behind it, both ending well alone, end well together if the limit leaves room for the steps of
both. -/
theorem execBlock_behind {limit : Int} {p q : List Stmt} {env : Env} {first second : RunState}
    (hp : execBlock ⟨limit, .background⟩ p ⟨env, [], 0⟩ = (first, none))
    (hq : execBlock ⟨limit, .background⟩ q ⟨first.env, [], 0⟩ = (second, none))
    (hroom : 0 < limit → ((first.steps + second.steps : Nat) : Int) ≤ limit) :
    execBlock ⟨limit, .background⟩ (p ++ q) ⟨env, [], 0⟩ = (first.behind second, none) := by
  rw [execBlock_append, Action.andThen, hp]
  exact (execBlock_frames limit q _ second hq).2 first hroom

end EnglishScript
