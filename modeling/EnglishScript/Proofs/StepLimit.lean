import EnglishScript.Proofs.Course
import EnglishScript.Proofs.RunFrame
import EnglishScript.Session

namespace EnglishScript

/-- Whether the error is one of the program, and not of what bounds its run. -/
def RunError.isOwn : RunError → Bool
  | .raised _ _ => true
  | .fault _ => true
  | _ => false

theorem Node.refusal_isOwn {n : Node} {e : RunError} (h : n.refusal? = some e) : e.isOwn = true := by
  have named {name : Token} (hname : checkName name = some e) : e.isOwn = true := by
    rcases checkName_cases name with ⟨_, hnone⟩ | ⟨_, hsome⟩
    · cases hnone.symm.trans hname
    · cases hsome.symm.trans hname
      rfl
  unfold Node.refusal? at h
  split at h
  next => exact named h
  next => exact named h
  next => exact named h
  next =>
    split at h
    next => cases h
    next hliteral =>
      cases h
      obtain ⟨c, rfl, _⟩ := Evaluation.literal_error hliteral
      rfl
  next => cases h; rfl
  next => cases h; rfl
  next => cases h

theorem Expr.eval_isOwn {env : Env} {x : Expr} {e : RunError} (h : x.eval env = .error e) : e.isOwn = true := by
  rcases Expr.eval_error h with hop | ⟨n, _, hn⟩
  · cases e with
    | raised | fault => rfl
    | _ => cases hop
  · exact Node.refusal_isOwn hn

theorem Program.refusal_isOwn {p : Program} {e : RunError} (h : Program.refusal? p = some e) : e.isOwn = true := by
  obtain ⟨n, _, hn⟩ := List.exists_of_findSome?_eq_some h
  exact Node.refusal_isOwn hn

def RunState.store (s : RunState) : Store :=
  ⟨s.env, s.printed⟩

namespace Action

theorem andThen_ended {a c : Action} {s : RunState} (h : (a s).2 = none) : a.andThen c s = c (a s).1 := by
  unfold andThen
  split
  next t ht => rw [ht]
  next t e ht => rw [ht] at h; cases h

theorem andThen_stopped {a c : Action} {s : RunState} {e : RunError} (h : (a s).2 = some e) :
    a.andThen c s = a s := by
  unfold andThen
  split
  next t ht => rw [ht] at h; cases h
  next t e ht => exact ht.symm

end Action

namespace Bound

theorem stops_iff {b : Bound} : b.stops = true ↔ 0 < b.limit ∧ b.limit < Int64.maxValue.toInt := by
  simp [stops]

/-- A counter above a limit shows that the limit stops runs. -/
theorem stops_of_counter_lt {b : Bound} {n : Nat} (hb : 0 < b.limit) (hn : b.limit < (Action.counter n).toInt) :
    b.stops = true :=
  stops_iff.mpr ⟨hb, Int.lt_of_lt_of_le hn (Int64.toInt_le _)⟩

/-- As long as a limit that stops runs is not passed, the counter shows the number of steps. -/
theorem counter_eq {b : Bound} (hb : b.stops = true) {n : Nat} (hn : (n : Int) ≤ b.limit) :
    (Action.counter (n + 1)).toInt = ((n + 1 : Nat) : Int) := by
  have hlimit := (stops_iff.mp hb).2
  rw [Int64.toInt_maxValue] at hlimit
  exact Int64.toInt_ofNat_of_lt (by omega)

end Bound

/-- The error of a run under a bound where `n` have been started and the course stands so. Only a run that no limit stops
comes to the horizon. -/
def Standing.Gives (b : Bound) (n : Nat) (error : Option RunError) : Standing → Prop
  | .ended => error = none
  | .failed e => error = some e ∧ e.isOwn = true
  | .due => (b.ctx n = true ∧ error = some .canceled) ∨
      (b.stops = true ∧ b.ctx n = false ∧ (n : Int) = b.limit ∧ error = some (.stepLimit b.limit)) ∨
      (b.stops = false ∧ b.turns ≤ n ∧ error = some .horizon)

theorem Standing.Gives.stopped {b : Bound} {n : Nat} {error : Option RunError} {standing : Standing}
    (h : standing.Gives b n error) (hs : standing ≠ .ended) : ∃ e, error = some e := by
  cases standing with
  | ended => exact absurd rfl hs
  | failed e => exact ⟨e, h.1⟩
  | due =>
    rcases h with ⟨_, he⟩ | ⟨_, _, _, he⟩ | ⟨_, _, he⟩
    · exact ⟨_, he⟩
    · exact ⟨_, he⟩
    · exact ⟨_, he⟩

/-- The limit shows only where it is used up and one more is due. -/
theorem Standing.Gives.due_of_stepLimit {b : Bound} {n : Nat} {limit : Int} {standing : Standing}
    (h : standing.Gives b n (some (.stepLimit limit))) : standing = .due ∧ (n : Int) = b.limit := by
  cases standing with
  | ended => cases h
  | failed e =>
    cases h.1
    cases h.2
  | due =>
    rcases h with ⟨_, he⟩ | ⟨_, _, hn, _⟩ | ⟨_, _, he⟩
    · cases he
    · exact ⟨rfl, hn⟩
    · cases he

theorem Standing.Gives.ne_horizon {b : Bound} {n : Nat} {error : Option RunError} {standing : Standing}
    (h : standing.Gives b n error) (hb : b.stops = true) : error ≠ some .horizon := by
  rintro rfl
  cases standing with
  | ended => cases h
  | failed e =>
    cases h.1
    cases h.2
  | due =>
    rcases h with ⟨_, he⟩ | ⟨_, _, _, he⟩ | ⟨hnot, _, _⟩
    · cases he
    · cases he
    · cases hb.symm.trans hnot

namespace Bound

/-- The result of a run is that of a course at a point of it, where `before` steps were taken before the course. -/
structure StandsAt (b : Bound) (before : Nat) (p : Point) (r : RunState × Option RunError) : Prop where
  store : r.1.store = p.store
  room : b.stops = true → ((before + p.started : Nat) : Int) ≤ b.limit
  gives : p.standing.Gives b (before + p.started) r.2
  steps : p.standing = .ended → r.1.steps = before + p.started

variable {b : Bound}

theorem StandsAt.later {before n : Nat} {p : Point} {r : RunState × Option RunError}
    (h : b.StandsAt (before + n) p r) : b.StandsAt before (p.later n) r := by
  have hsum : before + n + p.started = before + (p.later n).started := Nat.add_assoc ..
  exact ⟨h.store, hsum ▸ h.room, hsum ▸ h.gives, hsum ▸ h.steps⟩

/-- A step that is due within the limit is not started, or it is started and counts. -/
theorem step_cases {s : RunState} (hs : b.stops = true → (s.steps : Int) ≤ b.limit) :
    b.StandsAt s.steps ⟨0, s.store, .due⟩ (b.step s) ∨
      (b.step s = ({ s with steps := s.steps + 1 }, none) ∧ (b.stops = true → ((s.steps + 1 : Nat) : Int) ≤ b.limit)) := by
  unfold step Action.step
  split
  next hctx => exact .inl ⟨rfl, hs, .inl ⟨hctx, rfl⟩, fun h => by cases h⟩
  next hctx =>
    simp only
    split
    next hover =>
      obtain ⟨hpos, hover⟩ := Bool.and_eq_true_iff.mp hover
      have hover : b.limit < (Action.counter (s.steps + 1)).toInt := of_decide_eq_true hover
      have hstops := stops_of_counter_lt (of_decide_eq_true hpos) hover
      have hpast := Int.lt_of_lt_of_le hover (Action.counter_le _)
      have hroom := hs hstops
      have hlimit : (s.steps : Int) = b.limit := by omega
      exact .inl ⟨rfl, hs, .inr (.inl ⟨hstops, by simpa using hctx, hlimit, rfl⟩), fun h => by cases h⟩
    next hroom =>
      refine .inr ⟨rfl, fun hstops => ?_⟩
      have hpos := (stops_iff.mp hstops).1
      rw [counter_eq hstops (hs hstops)] at hroom
      have hroom : ¬b.limit < ((s.steps + 1 : Nat) : Int) := by simpa [hpos] using hroom
      omega

/-- From every state within the limit, the action gives a point of the course. -/
def Follows (b : Bound) (course : Store → Point → Prop) (a : Action) : Prop :=
  ∀ s : RunState, (b.stops = true → (s.steps : Int) ≤ b.limit) → ∃ p, course s.store p ∧ b.StandsAt s.steps p (a s)

/-- A step, a first part and a second part. The second one has to follow its course only from states behind the step. -/
theorem Follows.turn {first second : Store → Point → Prop} {a c : Action} {s : RunState} (ha : b.Follows first a)
    (hs : b.stops = true → (s.steps : Int) ≤ b.limit)
    (hc : ∀ s' : RunState, (b.stops = true → (s'.steps : Int) ≤ b.limit) → s.steps < s'.steps →
      ∃ q, second s'.store q ∧ b.StandsAt s'.steps q (c s')) :
    ∃ p, Turn first second s.store p ∧ b.StandsAt s.steps p (b.step.andThen (a.andThen c) s) := by
  rcases step_cases hs with hdue | ⟨hstep, hroom⟩
  · obtain ⟨e, he⟩ := hdue.gives.stopped (by simp)
    rw [Action.andThen_stopped he]
    exact ⟨_, .due, hdue⟩
  · rw [Action.andThen_ended (by rw [hstep]), hstep]
    obtain ⟨p, hp, hstands⟩ := ha { s with steps := s.steps + 1 } hroom
    by_cases hended : p.standing = .ended
    · have hnone : (a { s with steps := s.steps + 1 }).2 = none := by
        have hgives := hstands.gives
        rwa [hended] at hgives
      have hsteps := hstands.steps hended
      have hle := hstands.room
      simp only at hsteps hle
      rw [Action.andThen_ended hnone]
      obtain ⟨q, hq, hlast⟩ := hc (a { s with steps := s.steps + 1 }).1 (by rwa [hsteps]) (by omega)
      rw [hstands.store] at hq
      rw [hsteps, Nat.add_assoc] at hlast
      exact ⟨_, .goes hp hended hq, hlast.later⟩
    · obtain ⟨e, he⟩ := hstands.gives.stopped hended
      rw [Action.andThen_stopped he]
      exact ⟨_, .stops hp hended, hstands.later⟩

theorem follows_withValue {stmt : Stmt} {x : Expr} {next : Value → Action} {s : RunState}
    (hx : stmt.subject? = some x) (hs : b.stops = true → (s.steps : Int) ≤ b.limit)
    (hnext : ∀ v, x.eval s.env = .ok v → ∃ p, StmtCourse stmt s.store p ∧ b.StandsAt s.steps p (next v s)) :
    ∃ p, StmtCourse stmt s.store p ∧ b.StandsAt s.steps p (Action.withValue x next s) := by
  unfold Action.withValue
  cases hv : x.eval s.env with
  | ok v => exact hnext v hv
  | error e => exact ⟨_, .raise hx hv, rfl, hs, ⟨rfl, Expr.eval_isOwn hv⟩, fun h => by cases h⟩

/-- A loop that has used up its turns has started as many steps at least, more than a limit that stops runs allows. -/
theorem follows_repeatWhile {keyword : Token} {cond : Expr} {body : List Stmt} {a : Action}
    (ha : b.Follows (BlockCourse body) a) (turns : Nat) : ∀ {s : RunState},
    (b.stops = true → (s.steps : Int) ≤ b.limit) → b.turns ≤ s.steps + turns →
      ∃ p, StmtCourse (.loop keyword cond body) s.store p ∧
        b.StandsAt s.steps p (Action.repeatWhile cond (b.step.andThen a) turns s) := by
  induction turns with
  | zero =>
    intro s hs hturns
    apply follows_withValue rfl hs
    intro v hv
    cases htruthy : v.truthy with
    | false => exact ⟨_, .leave hv htruthy, rfl, hs, rfl, fun _ => rfl⟩
    | true =>
      have hstops : b.stops = false := by
        cases hstops : b.stops with
        | false => rfl
        | true =>
          have hroom := hs hstops
          rw [Bound.turns, if_pos hstops] at hturns
          omega
      exact ⟨_, .due hv htruthy, rfl, hs, .inr (.inr ⟨hstops, hturns, rfl⟩), fun h => by cases h⟩
  | succ turns ih =>
    intro s hs hturns
    apply follows_withValue rfl hs
    intro v hv
    cases htruthy : v.truthy with
    | false => exact ⟨_, .leave hv htruthy, rfl, hs, rfl, fun _ => rfl⟩
    | true =>
      rw [if_pos rfl, Action.andThen_assoc]
      obtain ⟨p, hp, hstands⟩ := ha.turn (c := Action.repeatWhile cond (b.step.andThen a) turns) hs
        fun s' hs' hlt => ih hs' (by omega)
      exact ⟨p, hp.loop hv htruthy, hstands⟩

end Bound

mutual

theorem Stmt.follows (b : Bound) : ∀ s : Stmt, b.Follows (StmtCourse s) (s.exec b)
  | .create name value, s, hs => by
    apply Bound.follows_withValue rfl hs
    intro v hv
    exact ⟨_, .create hv, rfl, hs, rfl, fun _ => rfl⟩
  | .assign name value, s, hs => by
    apply Bound.follows_withValue rfl hs
    intro v hv
    exact ⟨_, .assign hv, rfl, hs, rfl, fun _ => rfl⟩
  | .print keyword value, s, hs => by
    apply Bound.follows_withValue rfl hs
    intro v hv
    exact ⟨_, .print hv, rfl, hs, rfl, fun _ => rfl⟩
  | .branch keyword cond yes none, s, hs => by
    apply Bound.follows_withValue rfl hs
    intro v hv
    cases htruthy : v.truthy with
    | true =>
      obtain ⟨p, hp, hstands⟩ := execBlock_follows b yes s hs
      exact ⟨p, .yes hv htruthy hp, hstands⟩
    | false => exact ⟨_, .no hv htruthy .nil, rfl, hs, rfl, fun _ => rfl⟩
  | .branch keyword cond yes (some block), s, hs => by
    apply Bound.follows_withValue rfl hs
    intro v hv
    cases htruthy : v.truthy with
    | true =>
      obtain ⟨p, hp, hstands⟩ := execBlock_follows b yes s hs
      exact ⟨p, .yes hv htruthy hp, hstands⟩
    | false =>
      obtain ⟨p, hp, hstands⟩ := execBlock_follows b block s hs
      exact ⟨p, .no hv htruthy hp, hstands⟩
  | .loop keyword cond body, s, hs =>
    Bound.follows_repeatWhile (execBlock_follows b body) b.turns hs (Nat.le_add_left ..)
  | .hole, s, hs => ⟨_, .hole, rfl, hs, ⟨rfl, rfl⟩, fun h => by cases h⟩

theorem execBlock_follows (b : Bound) : ∀ ss : List Stmt, b.Follows (BlockCourse ss) (execBlock b ss)
  | [], s, hs => ⟨_, .nil, rfl, hs, rfl, fun _ => rfl⟩
  | first :: rest, s, hs => by
    obtain ⟨p, hp, hstands⟩ := (Stmt.follows b first).turn (c := execBlock b rest) hs
      fun s' hs' _ => execBlock_follows b rest s' hs'
    exact ⟨p, hp.block, hstands⟩

end

/-- Whatever its limit, a run gives a point of the course of its program. -/
theorem Evaluator.run_course (env : Env) (limit : Int) (ctx : Context) (p : Program) :
    ∃ point, ProgramCourse p ⟨env, []⟩ point ∧
      (Bound.stops ⟨limit, ctx⟩ = true → (point.started : Int) ≤ limit) ∧
      (Evaluator.run ⟨env, limit⟩ ctx p).evaluator.env = point.store.env ∧
      (Evaluator.run ⟨env, limit⟩ ctx p).stdout = point.store.stdout ∧
      point.standing.Gives ⟨limit, ctx⟩ point.started (Evaluator.run ⟨env, limit⟩ ctx p).error := by
  have hlimit (hstops : Bound.stops ⟨limit, ctx⟩ = true) : ((0 : Nat) : Int) ≤ limit :=
    Int.le_of_lt (Bound.stops_iff.mp hstops).1
  cases hrefusal : Program.refusal? p with
  | some e =>
    rw [run_refused hrefusal]
    exact ⟨_, .refused hrefusal, hlimit, rfl, rfl, rfl, Program.refusal_isOwn hrefusal⟩
  | none =>
    obtain ⟨point, hcourse, hstands⟩ := execBlock_follows ⟨limit, ctx⟩ p ⟨env, [], 0⟩ hlimit
    have hroom := hstands.room
    have hgives := hstands.gives
    simp only [Nat.zero_add] at hroom hgives
    simp only [run, hrefusal]
    refine ⟨point, .accepted hrefusal hcourse, hroom, ?_, ?_, hgives⟩
    · exact congrArg Store.env hstands.store
    · exact congrArg Store.stdout hstands.store

theorem Store.stdout_of_suffix {σ τ : Store} (h : σ.printed <:+ τ.printed) : σ.stdout <+: τ.stdout := by
  obtain ⟨newer, hnewer⟩ := h
  refine ⟨newer.reverse.flatten, ?_⟩
  rw [Store.stdout, Store.stdout, ← hnewer, List.reverse_append, List.flatten_append]

mutual

theorem Stmt.exec_congr {b b' : Bound} (hstep : b.step = b'.step) (hturns : b.turns = b'.turns) :
    ∀ s : Stmt, s.exec b = s.exec b'
  | .create _ _ | .assign _ _ | .print _ _ | .hole => rfl
  | .branch _ _ yes none => by rw [Stmt.exec, Stmt.exec, execBlock_congr hstep hturns yes]
  | .branch _ _ yes (some no) => by
    rw [Stmt.exec, Stmt.exec, execBlock_congr hstep hturns yes, execBlock_congr hstep hturns no]
  | .loop _ _ body => by rw [Stmt.exec, Stmt.exec, hstep, hturns, execBlock_congr hstep hturns body]

theorem execBlock_congr {b b' : Bound} (hstep : b.step = b'.step) (hturns : b.turns = b'.turns) :
    ∀ ss : List Stmt, execBlock b ss = execBlock b' ss
  | [] => rfl
  | s :: rest => by rw [execBlock, execBlock, hstep, Stmt.exec_congr hstep hturns s, execBlock_congr hstep hturns rest]

end

namespace Bound

/-- Where no limit stops runs, a step only asks whether the context has ended. -/
theorem step_of_unstopped {b : Bound} (hb : b.stops = false) (s : RunState) :
    b.step s = if b.ctx s.steps then (s, some .canceled) else ({ s with steps := s.steps + 1 }, none) := by
  unfold step Action.step
  dsimp only
  split
  next => rfl
  next =>
    split
    next hover =>
      obtain ⟨hpos, hover⟩ := Bool.and_eq_true_iff.mp hover
      cases hb.symm.trans (stops_of_counter_lt (of_decide_eq_true hpos) (of_decide_eq_true hover))
    next => rfl

theorem step_of_ongoing {b : Bound} (hb : b.stops = false) (hctx : ∀ n, b.ctx n = false) (s : RunState) :
    b.step s = ({ s with steps := s.steps + 1 }, none) := by
  rw [step_of_unstopped hb, hctx]
  rfl

/-- Where no limit stops runs, a loop without statements whose condition always holds starts every turn that it is given
and wants one more. -/
theorem repeatWhile_unstopped {b : Bound} (hb : b.stops = false) (hctx : ∀ n, b.ctx n = false) {cond : Expr}
    (hcond : ∀ env, ∃ v, cond.eval env = .ok v ∧ v.truthy = true) (turns : Nat) : ∀ s : RunState,
    Action.repeatWhile cond (b.step.andThen (execBlock b [])) turns s =
      ({ s with steps := s.steps + turns }, some .horizon) := by
  induction turns with
  | zero =>
    intro s
    obtain ⟨v, hv, htruthy⟩ := hcond s.env
    simp only [Action.repeatWhile, Action.withValue, hv, htruthy, ↓reduceIte]
    rfl
  | succ turns ih =>
    intro s
    obtain ⟨v, hv, htruthy⟩ := hcond s.env
    have hbody : b.step.andThen (execBlock b []) s = ({ s with steps := s.steps + 1 }, none) := by
      rw [Action.andThen, step_of_ongoing hb hctx]
      rfl
    simp only [Action.repeatWhile, Action.withValue, hv, htruthy, ↓reduceIte]
    rw [Action.andThen_ended (by rw [hbody]), hbody, ih]
    dsimp only
    rw [Nat.add_assoc, Nat.add_comm 1 turns]

/-- All limits that do not stop runs are one. -/
theorem execBlock_unstopped {m n : Int} {ctx : Context} (hm : stops ⟨m, ctx⟩ = false) (hn : stops ⟨n, ctx⟩ = false)
    (p : List Stmt) : execBlock ⟨m, ctx⟩ p = execBlock ⟨n, ctx⟩ p := by
  refine execBlock_congr ?_ ?_ p
  · funext s
    rw [step_of_unstopped hm, step_of_unstopped hn]
  · rw [turns, turns, hm, hn]
    rfl

end Bound

theorem Evaluator.run_unstopped {m n : Int} {ctx : Context} (hm : Bound.stops ⟨m, ctx⟩ = false)
    (hn : Bound.stops ⟨n, ctx⟩ = false) (env : Env) (p : Program) :
    Evaluator.run ⟨env, n⟩ ctx p =
      let o := Evaluator.run ⟨env, m⟩ ctx p
      { o with evaluator := { o.evaluator with maxSteps := n } } := by
  unfold Evaluator.run
  cases Program.refusal? p with
  | some e => rfl
  | none =>
    dsimp only
    rw [Bound.execBlock_unstopped hm hn]

/-- A higher limit only lets a run go on: a run that the lower limit does not cut off comes out the same, and one that it
cuts off has printed the beginning of what is printed under the higher one. Where not even the lower limit stops runs, both
come to the horizon together. -/
theorem Evaluator.run_higher_limit (env : Env) (p : Program) {m n : Int} (hm : 1 ≤ m) (hmn : m ≤ n) :
    let short := Evaluator.run ⟨env, m⟩ .background p
    let long := Evaluator.run ⟨env, n⟩ .background p
    ((∀ limit, short.error ≠ some (.stepLimit limit)) →
        long.error = short.error ∧ long.stdout = short.stdout ∧ long.evaluator.env = short.evaluator.env) ∧
      (∀ limit, short.error = some (.stepLimit limit) → short.stdout <+: long.stdout) := by
  intro short long
  by_cases hstops : Bound.stops ⟨m, .background⟩ = true
  · obtain ⟨s, hs, hsroom, hsenv, hsout, hsgives⟩ := run_course env m .background p
    obtain ⟨l, hl, _, hlenv, hlout, hlgives⟩ := run_course env n .background p
    -- without an end of its context, the short run stops at a due step for the limit alone
    have used (h : Standing.due.Gives ⟨m, .background⟩ s.started short.error) : short.error = some (.stepLimit m) := by
      rcases h with ⟨hctx, _⟩ | ⟨_, _, _, herror⟩ | ⟨hnot, _, _⟩
      · cases hctx
      · exact herror
      · cases hstops.symm.trans hnot
    rcases hs.onOneCourse hl with rfl | hbefore | hbefore
    · refine ⟨fun hnot => ⟨?_, hlout.trans hsout.symm, hlenv.trans hsenv.symm⟩, fun _ _ => ?_⟩
      · cases hstanding : s.standing with
        | ended =>
          rw [hstanding] at hsgives hlgives
          exact hlgives.trans hsgives.symm
        | failed e =>
          rw [hstanding] at hsgives hlgives
          exact hlgives.1.trans hsgives.1.symm
        | due =>
          rw [hstanding] at hsgives
          exact absurd (used hsgives) (hnot m)
      · exact (hsout.trans hlout.symm) ▸ List.prefix_rfl
    · rw [hbefore.due] at hsgives
      refine ⟨fun hnot => absurd (used hsgives) (hnot m), fun _ _ => ?_⟩
      have hprefix := Store.stdout_of_suffix hbefore.printed
      rwa [← hsout, ← hlout] at hprefix
    · -- the long run has started all that the short one is allowed
      rw [hbefore.due] at hlgives
      have hstarted := hbefore.started
      have hroom := hsroom hstops
      have hbelow : m < Int64.maxValue.toInt := (Bound.stops_iff.mp hstops).2
      rw [Int64.toInt_maxValue] at hbelow
      rcases hlgives with ⟨hctx, _⟩ | ⟨_, _, hused, _⟩ | ⟨hnot, hturns, _⟩
      · cases hctx
      · change (l.started : Int) = n at hused
        omega
      · rw [Bound.turns, hnot, if_neg (by decide), show Bound.horizon = 9223372036854775808 from rfl] at hturns
        omega
  · have hshort : Bound.stops ⟨m, .background⟩ = false := by simpa using hstops
    have hlong : Bound.stops ⟨n, .background⟩ = false := by
      rw [Bool.eq_false_iff, ne_eq, Bound.stops_iff] at hshort ⊢
      dsimp only at hshort ⊢
      omega
    have hsame : long = { short with evaluator := { short.evaluator with maxSteps := n } } :=
      run_unstopped hshort hlong env p
    rw [hsame]
    exact ⟨fun _ => ⟨rfl, rfl, rfl⟩, fun _ _ => List.prefix_rfl⟩

/-- An endless loop that prints is cut off after its first and after its second line. -/
theorem Evaluator.run_higher_limit_loop :
    let p : Program := [.loop ⟨.while, utf8 "while", ⟨1, 1⟩⟩ (.string ⟨.string, utf8 "a", ⟨1, 7⟩⟩ (utf8 "a"))
      [.print ⟨.print, utf8 "print", ⟨2, 1⟩⟩ (.string ⟨.string, utf8 "b", ⟨2, 7⟩⟩ (utf8 "b"))]]
    (1 : Int) ≤ 3 ∧ (3 : Int) ≤ 5 ∧ (Evaluator.run ⟨.empty, 3⟩ .background p).error = some (.stepLimit 3) ∧
      (Evaluator.run ⟨.empty, 3⟩ .background p).stdout = utf8 "b\n" ∧
      (Evaluator.run ⟨.empty, 5⟩ .background p).stdout = utf8 "b\nb\n" ∧
      (Evaluator.run ⟨.empty, 3⟩ .background p).stdout <+: (Evaluator.run ⟨.empty, 5⟩ .background p).stdout := by
  intro p
  have herror : (Evaluator.run ⟨.empty, 3⟩ .background p).error = some (.stepLimit 3) := by decide +kernel
  have hcut := (Evaluator.run_higher_limit .empty p (show (1 : Int) ≤ 3 by decide) (show (3 : Int) ≤ 5 by decide)).2
  exact ⟨by decide, by decide, herror, by decide +kernel, by decide +kernel, hcut 3 herror⟩

/-- The run of an endless loop without statements comes to the horizon if no limit stops it. -/
theorem Evaluator.run_loop_unstopped {ev : Evaluator} {ctx : Context} (hb : Bound.stops ⟨ev.maxSteps, ctx⟩ = false)
    (hctx : ∀ n, ctx n = false) {word : Token} {cond : Expr}
    (hcond : ∀ env, ∃ v, cond.eval env = .ok v ∧ v.truthy = true)
    (hrefusal : Program.refusal? [.loop word cond []] = none) :
    (ev.run ctx [.loop word cond []]).error = some .horizon := by
  have hstep := Bound.step_of_ongoing hb hctx ⟨ev.env, [], 0⟩
  have hloop := Bound.repeatWhile_unstopped hb hctx hcond (Bound.turns ⟨ev.maxSteps, ctx⟩) ⟨ev.env, [], 1⟩
  unfold run
  rw [hrefusal]
  dsimp only
  rw [execBlock, Action.andThen_ended (by rw [hstep]), hstep, Action.andThen, Stmt.exec, hloop]

namespace Config

theorem maxSteps_pos_of_valid {c : Config} (h : c.fault? = none) : 0 < c.maxSteps := by
  unfold fault? at h
  split at h
  next => cases h
  next =>
    split at h
    next => cases h
    next =>
      split at h
      next => cases h
      next hmaxSteps => omega

theorem parse_valid {text : Text} {c c' : Config} (h : parse text c = (c', none)) : c'.fault? = none := by
  have checked {complaints : List Text} {read : Config}
      (hread : (if !complaints.isEmpty then (read, some (.refused (.complaints complaints)))
        else (read, read.fault?.map ConfigError.invalid)) = (c', none)) : c'.fault? = none := by
    split at hread
    next => cases hread
    next =>
      obtain ⟨rfl, hfault⟩ := Prod.mk.inj hread
      exact Option.map_eq_none_iff.mp hfault
  unfold parse at h
  split at h
  next => cases h
  next node? _ =>
    cases node? with
    | some n => exact checked h
    | none => exact checked h

theorem load_valid {path : Text} {found : Except PathFault Text} {defaults c : Config}
    (hdefaults : defaults.fault? = none) (h : load path found defaults = (c, none)) : c.fault? = none := by
  unfold load at h
  split at h
  next =>
    obtain ⟨rfl, _⟩ := Prod.mk.inj h
    exact hdefaults
  next => cases h
  next content =>
    obtain ⟨rfl, herror⟩ := Prod.mk.inj h
    exact parse_valid (Prod.ext rfl (Option.map_eq_none_iff.mp herror))

theorem default_valid (historyFile : Text) : (default historyFile).fault? = none :=
  rfl

/-- Every run in a session with loaded settings stops, unless they allow the largest number of steps that the counter can
show: nothing but a point of the course of its program comes out, with no more statements and turns of loops started than
the settings allow. The limit shows only where all of them have been started and one more is due. -/
theorem load_run_stops {path historyFile : Text} {found : Except PathFault Text} {c : Config}
    (h : load path found (default historyFile) = (c, none)) :
    0 < c.maxSteps ∧ (c.maxSteps < Int64.maxValue.toInt →
      ∀ (options : Options) (clock : Clock) (env : Env) (ctx : Context) (p : Program),
        let o := Evaluator.run { (Session.new c options clock).evaluator with env } ctx p
        o.error ≠ some .horizon ∧
        ∃ point, ProgramCourse p ⟨env, []⟩ point ∧ (point.started : Int) ≤ c.maxSteps ∧
          o.evaluator.env = point.store.env ∧ o.stdout = point.store.stdout ∧
          point.standing.Gives ⟨c.maxSteps, ctx⟩ point.started o.error ∧
          ∀ limit, o.error = some (.stepLimit limit) → point.standing = .due ∧ (point.started : Int) = c.maxSteps) := by
  have hpos := maxSteps_pos_of_valid (load_valid (default_valid historyFile) h)
  refine ⟨hpos, fun hbelow options clock env ctx p => ?_⟩
  have hstops : Bound.stops ⟨c.maxSteps, ctx⟩ = true := Bound.stops_iff.mpr ⟨hpos, hbelow⟩
  obtain ⟨point, hcourse, hroom, henv, hout, hgives⟩ := Evaluator.run_course env c.maxSteps ctx p
  refine ⟨hgives.ne_horizon hstops, point, hcourse, hroom hstops, henv, hout, hgives, fun limit herror => ?_⟩
  have hlimit : point.standing.Gives ⟨c.maxSteps, ctx⟩ point.started (some (.stepLimit limit)) := herror ▸ hgives
  exact hlimit.due_of_stepLimit

/-- Settings that allow three steps, and a loop without statements that never ends. -/
theorem load_run_stops_empty_loop :
    let p : Program := [.loop ⟨.while, utf8 "while", ⟨1, 1⟩⟩ (.string ⟨.string, utf8 "a", ⟨1, 7⟩⟩ (utf8 "a")) []]
    ∃ c, load (utf8 "c") (.ok (utf8 "max_steps: 3")) (default []) = (c, none) ∧ c.maxSteps < Int64.maxValue.toInt ∧
      ∃ point, ProgramCourse p ⟨.empty, []⟩ point ∧ point.started = 3 ∧ point.standing = .due := by
  intro p
  have hload : load (utf8 "c") (.ok (utf8 "max_steps: 3")) (default []) =
      ({ default [] with maxSteps := 3 }, none) := by
    decide +kernel
  have hbelow : (3 : Int) < Int64.maxValue.toInt := by decide
  obtain ⟨_, point, hcourse, _, _, _, _, hlimit⟩ :=
    (load_run_stops hload).2 hbelow .none ⟨[], []⟩ .empty .background p
  have herror : (Evaluator.run ⟨.empty, 3⟩ .background p).error = some (.stepLimit 3) := by decide +kernel
  obtain ⟨hdue, hstarted⟩ := hlimit 3 herror
  exact ⟨_, hload, hbelow, point, hcourse, Int.ofNat.inj hstarted, hdue⟩

/-- Settings that allow the largest number of steps that the counter can show, which therefore never comes to be above
them. An endless loop without statements wants one more turn than it is given, whatever it is given, and its run does not
come to the limit. -/
theorem largest_limit_never_strikes :
    let cond : Expr := .string ⟨.string, utf8 "a", ⟨1, 7⟩⟩ (utf8 "a")
    let p : Program := [.loop ⟨.while, utf8 "WHILE", ⟨1, 1⟩⟩ cond []]
    parseSource (utf8 "WHILE \"a\" DO END WHILE") = .ok p ∧
      ∃ c, load (utf8 "c") (.ok (utf8 "max_steps: 9223372036854775807")) (default []) = (c, none) ∧
        (Evaluator.run ⟨.empty, c.maxSteps⟩ .background p).error = some .horizon ∧
        ∀ (turns : Nat) (s : RunState),
          let b : Bound := ⟨c.maxSteps, .background⟩
          Action.repeatWhile cond (b.step.andThen (execBlock b [])) turns s =
            ({ s with steps := s.steps + turns }, some .horizon) := by
  intro cond p
  have hparse : parseSource (utf8 "WHILE \"a\" DO END WHILE") = .ok p := rfl
  have hload : load (utf8 "c") (.ok (utf8 "max_steps: 9223372036854775807")) (default []) =
      ({ default [] with maxSteps := 9223372036854775807 }, none) := by
    decide +kernel
  have hstops : Bound.stops ⟨9223372036854775807, .background⟩ = false := by decide +kernel
  have hcond (env : Env) : ∃ v, cond.eval env = .ok v ∧ v.truthy = true := ⟨.str (utf8 "a"), rfl, rfl⟩
  have hrefusal : Program.refusal? p = none := by decide +kernel
  exact ⟨hparse, _, hload, Evaluator.run_loop_unstopped hstops (fun _ => rfl) hcond hrefusal,
    Bound.repeatWhile_unstopped hstops (fun _ => rfl) hcond⟩

end Config

end EnglishScript
