import EnglishScript.Run.Evaluator

namespace EnglishScript

/-- The variable that a node sets. -/
def Node.target? : Node → Option Text
  | .stmt (.create name _) => some name.lexeme
  | .stmt (.assign name _) => some name.lexeme
  | _ => none

namespace Action

/-- The property holds of everything that a run under the bound does by itself, and every way of putting a run together
keeps it, as long as all nodes of the program are fit for it. -/
structure Keeps [Python.Decoder] (b : Bound) (fit : Node → Prop) (holds : Action → Prop) : Prop where
  done : holds done
  horizon : holds (stop .horizon)
  hole : fit (.stmt .hole) → holds (stop (.fault .missingStatement))
  step : holds b.step
  assign : ∀ {n : Node} {name : Text}, fit n → n.target? = some name → ∀ v, holds fun s => (s.assign name v, none)
  print : ∀ v, holds fun s => (s.print v, none)
  andThen : ∀ {first second : Action}, holds first → holds second → holds (first.andThen second)
  withValue : ∀ {e : Expr} {next : Value → Action}, (∀ n ∈ e.walk, fit n) → (∀ v, holds (next v)) →
    holds (withValue e next)

variable [Python.Decoder] {b : Bound} {fit : Node → Prop} {holds : Action → Prop}

theorem Keeps.repeatWhile (h : Keeps b fit holds) {cond : Expr} {body : Action} (hcond : ∀ n ∈ cond.walk, fit n)
    (hbody : holds body) (turns : Nat) : holds (repeatWhile cond body turns) := by
  induction turns with
  | zero =>
    apply h.withValue hcond
    intro v
    split
    · exact h.horizon
    · exact h.done
  | succ turns ih =>
    apply h.withValue hcond
    intro v
    split
    · exact h.andThen hbody ih
    · exact h.done

mutual

theorem Keeps.exec (h : Keeps b fit holds) : ∀ {s : Stmt}, (∀ n ∈ s.walk, fit n) → holds (s.exec b)
  | .create name value, hs => by
    apply h.withValue fun n hn => hs n (by simp [Stmt.walk, hn])
    exact h.assign (hs (.stmt (.create name value)) (by simp [Stmt.walk])) rfl
  | .assign name value, hs => by
    apply h.withValue fun n hn => hs n (by simp [Stmt.walk, hn])
    exact h.assign (hs (.stmt (.assign name value)) (by simp [Stmt.walk])) rfl
  | .print keyword value, hs => by
    apply h.withValue fun n hn => hs n (by simp [Stmt.walk, hn])
    exact h.print
  | .branch keyword cond yes none, hs => by
    apply h.withValue fun n hn => hs n (by simp [Stmt.walk, hn])
    intro v
    split
    · exact h.block fun n hn => hs n (by simp [Stmt.walk, hn])
    · exact h.done
  | .branch keyword cond yes (some no), hs => by
    apply h.withValue fun n hn => hs n (by simp [Stmt.walk, hn])
    intro v
    split
    · exact h.block fun n hn => hs n (by simp [Stmt.walk, hn])
    · exact h.block fun n hn => hs n (by simp [Stmt.walk, hn])
  | .loop keyword cond body, hs => by
    have hbody : holds (execBlock b body) := h.block fun n hn => hs n (by simp [Stmt.walk, hn])
    exact h.repeatWhile (fun n hn => hs n (by simp [Stmt.walk, hn])) (h.andThen h.step hbody) b.turns
  | .hole, hs => h.hole (hs (.stmt .hole) (by simp [Stmt.walk]))

/-- A property that is kept holds of the run of every block whose nodes are fit for it. -/
theorem Keeps.block (h : Keeps b fit holds) : ∀ {ss : List Stmt}, (∀ n ∈ walkBlock ss, fit n) → holds (execBlock b ss)
  | [], _ => h.done
  | s :: rest, hs => by
    have hfirst : holds (s.exec b) := h.exec fun n hn => hs n (by simp [walkBlock, hn])
    have hrest : holds (execBlock b rest) := h.block fun n hn => hs n (by simp [walkBlock, hn])
    exact h.andThen h.step (h.andThen hfirst hrest)

end

end Action

end EnglishScript
