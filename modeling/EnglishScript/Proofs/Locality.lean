import EnglishScript.Proofs.RunInduction

namespace EnglishScript

namespace Env

theorem lookup_binding (n : Text) (w : Value) (rest : List (Text × Value)) (other : Text) :
    ((n, w) :: rest).lookup other = if other = n then some w else rest.lookup other := by
  by_cases h : other = n
  · simp [h]
  · simp only [List.lookup_cons, beq_eq_false_iff_ne.mpr h, h, ↓reduceIte]

theorem lookup_setIn (name : Text) (v : Value) (other : Text) (bindings : List (Text × Value)) :
    (setIn name v bindings).lookup other = if other = name then some v else bindings.lookup other := by
  induction bindings with
  | nil => exact lookup_binding name v [] other
  | cons binding rest ih =>
    obtain ⟨n, w⟩ := binding
    by_cases hn : n = name
    · subst hn
      simp only [setIn, ↓reduceIte, lookup_binding]
      split <;> rfl
    · simp only [setIn, hn, ↓reduceIte, lookup_binding, ih]
      split
      next heq => rw [if_neg (heq ▸ hn)]
      next => rfl

/-- Setting a variable changes the value of no other one. -/
theorem get_set (env : Env) (name : Text) (v : Value) (other : Text) :
    (env.set name v).get? other = if other = name then some v else env.get? other :=
  lookup_setIn name v other env.bindings

/-- Both environments have the same values for the names, or none. -/
def Agree (names : List Text) (a b : Env) : Prop :=
  ∀ name ∈ names, a.get? name = b.get? name

theorem Agree.set {names : List Text} {a b : Env} (h : Agree names a b) (name : Text) (v : Value) :
    Agree names (a.set name v) (b.set name v) := by
  intro other hother
  rw [get_set, get_set, h other hother]

end Env

/-- The variable that a node names, to set it or to read it. -/
def Node.variable? : Node → Option Text
  | .expr (.var name) => some name.lexeme
  | n => n.target?

/-- The variables that the assignments of a program set, in branches never taken as well. -/
def Program.targets (p : Program) : List Text :=
  (Program.walk p).filterMap Node.target?

/-- The variables that occur in a program. -/
def Program.variables (p : Program) : List Text :=
  (Program.walk p).filterMap Node.variable?

/-- The variable that the node names is one of the names, and the one that it sets is one of the targets. -/
def Node.Confined (names targets : List Text) (n : Node) : Prop :=
  (∀ x ∈ n.variable?, x ∈ names) ∧ ∀ x ∈ n.target?, x ∈ targets

/-- The value of an expression depends on the variables it names. -/
theorem Expr.eval_agree {names : List Text} {a b : Env} (h : a.Agree names b) {e : Expr}
    (he : ∀ n ∈ e.walk, ∀ x ∈ n.variable?, x ∈ names) : e.eval a = e.eval b := by
  induction e with
  | number t value => rfl
  | string t value => rfl
  | var name =>
    have hname : name.lexeme ∈ names := he (.expr (.var name)) (by simp [Expr.walk]) name.lexeme rfl
    simp only [Expr.eval, h name.lexeme hname]
  | operation form left op right ihl ihr =>
    have hl := ihl fun n hn => he n (by simp [Expr.walk, hn])
    have hr := ihr fun n hn => he n (by simp [Expr.walk, hn])
    cases form <;> simp only [Expr.eval, hl, hr]
  | hole => rfl

/-- The states have printed the same and taken the same steps, and their variables agree on the names. -/
structure RunState.Agree (names : List Text) (s t : RunState) : Prop where
  env : s.env.Agree names t.env
  printed : s.printed = t.printed
  steps : s.steps = t.steps

/-- The action goes the same way from states that agree on the names, sets no variable but the targets, and never takes
the value of a variable away. -/
structure Action.Local (names targets : List Text) (a : Action) : Prop where
  agree : ∀ {s t : RunState}, s.Agree names t → (a s).2 = (a t).2 ∧ (a s).1.Agree names (a t).1
  frame : ∀ (s : RunState) {name : Text}, name ∉ targets → (a s).1.env.get? name = s.env.get? name
  keeps : ∀ (s : RunState) (name : Text), (s.env.get? name).isSome → ((a s).1.env.get? name).isSome

namespace Action

variable {names targets : List Text}

theorem local_stop (e : RunError) : (stop e).Local names targets :=
  ⟨fun h => ⟨rfl, h⟩, fun _ _ _ => rfl, fun _ _ => id⟩

theorem Local.andThen {a b : Action} (ha : a.Local names targets) (hb : b.Local names targets) :
    (a.andThen b).Local names targets := by
  refine ⟨fun {s t} h => ?_, fun s name hname => ?_, fun s name hsome => ?_⟩
  · obtain ⟨herror, hstate⟩ := ha.agree h
    unfold Action.andThen
    generalize a s = first at herror hstate
    generalize a t = second at herror hstate
    obtain ⟨s', error⟩ := first
    obtain ⟨t', _⟩ := second
    cases herror
    cases error with
    | none => exact hb.agree hstate
    | some e => exact ⟨rfl, hstate⟩
  · have hfirst := ha.frame s hname
    unfold Action.andThen
    generalize a s = first at hfirst
    obtain ⟨s', error⟩ := first
    cases error with
    | none => exact (hb.frame s' hname).trans hfirst
    | some e => exact hfirst
  · have hfirst := ha.keeps s name hsome
    unfold Action.andThen
    generalize a s = first at hfirst
    obtain ⟨s', error⟩ := first
    cases error with
    | none => exact hb.keeps s' name hfirst
    | some e => exact hfirst

theorem local_withValue {e : Expr} {next : Value → Action} (he : ∀ n ∈ e.walk, n.Confined names targets)
    (hnext : ∀ v, (next v).Local names targets) : (withValue e next).Local names targets := by
  refine ⟨fun {s t} h => ?_, fun s name hname => ?_, fun s name hsome => ?_⟩
  · unfold withValue
    rw [Expr.eval_agree h.env fun n hn => (he n hn).1]
    cases e.eval t.env with
    | ok v => exact (hnext v).agree h
    | error err => exact ⟨rfl, h⟩
  · unfold withValue
    cases e.eval s.env with
    | ok v => exact (hnext v).frame s hname
    | error err => rfl
  · unfold withValue
    cases e.eval s.env with
    | ok v => exact (hnext v).keeps s name hsome
    | error err => exact hsome

theorem step_env (limit : Int) (ctx : Context) (s : RunState) : (step limit ctx s).1.env = s.env := by
  unfold step
  split
  · rfl
  · dsimp only
    split <;> rfl

theorem local_step (limit : Int) (ctx : Context) : (step limit ctx).Local names targets := by
  refine ⟨fun {s t} h => ?_, fun s name _ => by rw [step_env], fun s name hsome => by rwa [step_env]⟩
  unfold step
  rw [h.steps]
  split
  · exact ⟨rfl, h⟩
  · dsimp only
    split <;> exact ⟨rfl, ⟨h.env, h.printed, rfl⟩⟩

theorem local_assign {name : Text} (hname : name ∈ targets) (v : Value) :
    Local names targets fun s => (s.assign name v, none) := by
  refine ⟨fun h => ⟨rfl, ⟨h.env.set name v, h.printed, h.steps⟩⟩, fun s other hother => ?_, fun s other hsome => ?_⟩
  · have hne : other ≠ name := fun heq => hother (heq ▸ hname)
    simp only [RunState.assign, Env.get_set, hne, ↓reduceIte]
  · simp only [RunState.assign, Env.get_set]
    split
    · rfl
    · exact hsome

theorem local_print (v : Value) : Local names targets fun s => (s.print v, none) :=
  ⟨fun h => ⟨rfl, ⟨h.env, by simp only [RunState.print, h.printed], h.steps⟩⟩, fun _ _ _ => rfl, fun _ _ => id⟩

theorem keeps_local (b : Bound) : Keeps b (·.Confined names targets) (Local names targets) where
  done := ⟨fun h => ⟨rfl, h⟩, fun _ _ _ => rfl, fun _ _ => id⟩
  horizon := local_stop .horizon
  hole _ := local_stop _
  step := local_step b.limit b.ctx
  assign hn hname := local_assign (hn.2 _ hname)
  print := local_print
  andThen := Local.andThen
  withValue := local_withValue

end Action

theorem Program.local_exec (b : Bound) (p : Program) :
    (execBlock b p).Local (Program.variables p) (Program.targets p) := by
  refine (Action.keeps_local b).block fun n hn => ⟨fun x hx => ?_, fun x hx => ?_⟩
  · exact List.mem_filterMap.mpr ⟨n, List.mem_cons_of_mem _ hn, hx⟩
  · exact List.mem_filterMap.mpr ⟨n, List.mem_cons_of_mem _ hn, hx⟩

namespace Evaluator

/-- Two runs of a program with one limit print the same and fail the same if their variables agree on the names of the
program, and the variables still agree on them afterwards; if no limit stops them, they come to the horizon together.
However a run ends, a variable that is no target of an assignment keeps its value or stays undefined, and no variable
becomes undefined. -/
theorem run_local (p : Program) (maxSteps : Int) (ctx : Context) :
    (∀ a b : Env, a.Agree (Program.variables p) b →
      ((mk a maxSteps).run ctx p).stdout = ((mk b maxSteps).run ctx p).stdout ∧
        ((mk a maxSteps).run ctx p).error = ((mk b maxSteps).run ctx p).error ∧
        ((mk a maxSteps).run ctx p).evaluator.env.Agree (Program.variables p)
          ((mk b maxSteps).run ctx p).evaluator.env) ∧
      ∀ (env : Env) (name : Text),
        (name ∉ Program.targets p → ((mk env maxSteps).run ctx p).evaluator.env.get? name = env.get? name) ∧
        ((env.get? name).isSome → (((mk env maxSteps).run ctx p).evaluator.env.get? name).isSome) := by
  cases hrefusal : Program.refusal? p with
  | some e =>
    have hrun (env : Env) : (mk env maxSteps).run ctx p = ⟨mk env maxSteps, [], some e⟩ := by simp only [run, hrefusal]
    simp only [hrun]
    exact ⟨fun a b h => ⟨trivial, trivial, h⟩, fun env name => ⟨fun _ => trivial, id⟩⟩
  | none =>
    have hlocal := Program.local_exec ⟨maxSteps, ctx⟩ p
    simp only [run, hrefusal]
    refine ⟨fun a b h => ?_, fun env name => ⟨fun hname => hlocal.frame _ hname, hlocal.keeps ⟨env, [], 0⟩ name⟩⟩
    have hstart : RunState.Agree (Program.variables p) ⟨a, [], 0⟩ ⟨b, [], 0⟩ := ⟨h, rfl, rfl⟩
    obtain ⟨herror, hstate⟩ := hlocal.agree hstart
    exact ⟨by simp only [RunState.stdout, hstate.printed], herror, hstate.env⟩

/-- A loop that reads and sets `count`, then a name that is not defined: what else the environments hold does not matter
and is left alone. -/
theorem run_local_undefined :
    let name (t : String) : Token := ⟨.identifier, utf8 t, .start⟩
    let count : Expr := .var (name "count")
    let below (e : Expr) : Expr := .operation .comparison e ⟨.isLessThan, [], .start⟩ (.number (name "") 2)
    let next (e : Expr) : Expr := .operation .arithmetic e ⟨.plus, utf8 "+", .start⟩ (.number (name "") 1)
    let p : Program :=
      [.loop ⟨.while, [], .start⟩ (below count)
          [.print ⟨.print, [], .start⟩ count, .assign (name "count") (next count)],
        .create (name "last") (.var (name "late"))]
    let a : Env := ⟨[(utf8 "count", .float 0), (utf8 "spare", .str (utf8 "x"))]⟩
    let b : Env := ⟨[(utf8 "spare", .bool true), (utf8 "count", .float 0)]⟩
    a.Agree (Program.variables p) b ∧ ((mk a 20).run .background p).stdout = utf8 "0.0\n1.0\n" ∧
      ((mk b 20).run .background p).stdout = utf8 "0.0\n1.0\n" ∧
      ((mk a 20).run .background p).error = some (.raised (name "late") (.undefined (utf8 "late"))) ∧
      ((mk b 20).run .background p).error = some (.raised (name "late") (.undefined (utf8 "late"))) ∧
      ((mk b 20).run .background p).evaluator.env.get? (utf8 "spare") = some (.bool true) := by
  intro name count below next p a b
  have hagree : a.Agree (Program.variables p) b := show ∀ name ∈ _, _ by decide +kernel
  have hstdout : ((mk a 20).run .background p).stdout = utf8 "0.0\n1.0\n" := by decide +kernel
  have herror : ((mk a 20).run .background p).error = some (.raised (name "late") (.undefined (utf8 "late"))) := by
    decide +kernel
  obtain ⟨hsame, hframe⟩ := run_local p 20 .background
  obtain ⟨hout, herr, _⟩ := hsame a b hagree
  have hspare := (hframe b (utf8 "spare")).1 (by decide +kernel)
  exact ⟨hagree, hstdout, hout ▸ hstdout, herror, herr ▸ herror, hspare.trans (by decide +kernel)⟩

end Evaluator

end EnglishScript
