import EnglishScript.Run.Evaluator

namespace EnglishScript

/-- The token with another spelling and at no place. -/
def Token.bare (t : Token) (lexeme : Text) : Token :=
  ⟨t.kind, lexeme, ⟨0, 0⟩⟩

/-- The normal form of an expression: a number goes by its value, an operator by its symbol. -/
def Expr.bare : Expr → Expr
  | .number t value => .number (t.bare []) value
  | .string t value => .string (t.bare value) value
  | .var name => .var (name.bare name.lexeme)
  | .operation form left op right => .operation form left.bare (op.bare (form.symbol op)) right.bare
  | .hole => .hole

mutual

/-- The normal form of a statement. -/
def Stmt.bare : Stmt → Stmt
  | .create name value => .assign (name.bare name.lexeme) value.bare
  | .assign name value => .assign (name.bare name.lexeme) value.bare
  | .print keyword value => .print (keyword.bare []) value.bare
  | .branch keyword cond yes no =>
    .branch (keyword.bare []) cond.bare (bareBlock yes)
      (match no with
      | none => none
      | some [] => none
      | some block => some (bareBlock block))
  | .loop keyword cond body => .loop (keyword.bare []) cond.bare (bareBlock body)
  | .hole => .hole

/-- The normal form of a block. -/
def bareBlock : List Stmt → List Stmt
  | [] => []
  | s :: rest => s.bare :: bareBlock rest

end

/-- The normal form of a program. -/
def Program.bare (p : Program) : Program :=
  bareBlock p

/-- The normal form of a node. -/
def Node.bare : Node → Node
  | .program p => .program (Program.bare p)
  | .stmt s => .stmt s.bare
  | .expr e => .expr e.bare

/-- The error without the token where it happened: what is left of an exception is its class and its wording. -/
def RunError.placeless : RunError → RunError
  | .raised _ cause => .raised (Token.endAt ⟨0, 0⟩) cause
  | e => e

@[simp]
theorem Form.symbol_bare (form : Form) (op : Token) : form.symbol (op.bare (form.symbol op)) = form.symbol op := by
  cases form with
  | arithmetic => rfl
  | comparison =>
    unfold Form.symbol Token.bare
    simp only
    split <;> simp_all
  | logic => rfl

theorem Expr.walk_bare (e : Expr) : e.bare.walk = e.walk.map Node.bare := by
  induction e with
  | operation form left op right ihl ihr => simp [Expr.bare, Expr.walk, Node.bare, ihl, ihr]
  | _ => rfl

mutual

theorem Stmt.walk_bare : ∀ s : Stmt, s.bare.walk = s.walk.map Node.bare
  | .create _ value => by simp [Stmt.bare, Stmt.walk, Node.bare, value.walk_bare]
  | .assign _ value => by simp [Stmt.bare, Stmt.walk, Node.bare, value.walk_bare]
  | .print _ value => by simp [Stmt.bare, Stmt.walk, Node.bare, value.walk_bare]
  | .branch _ cond yes none => by simp [Stmt.bare, Stmt.walk, Node.bare, cond.walk_bare, walkBlock_bare yes]
  | .branch _ cond yes (some []) => by
    simp [Stmt.bare, Stmt.walk, Node.bare, cond.walk_bare, walkBlock_bare yes, walkBlock]
  | .branch _ cond yes (some (s :: rest)) => by
    simp [Stmt.bare, Stmt.walk, Node.bare, cond.walk_bare, walkBlock_bare yes, walkBlock_bare (s :: rest)]
  | .loop _ cond body => by simp [Stmt.bare, Stmt.walk, Node.bare, cond.walk_bare, walkBlock_bare body]
  | .hole => rfl

theorem walkBlock_bare : ∀ ss : List Stmt, walkBlock (bareBlock ss) = (walkBlock ss).map Node.bare
  | [] => rfl
  | s :: rest => by simp [bareBlock, walkBlock, s.walk_bare, walkBlock_bare rest]

end

theorem Program.walk_bare (p : Program) : Program.walk (Program.bare p) = (Program.walk p).map Node.bare := by
  simp [Program.walk, Program.bare, Node.bare, walkBlock_bare p]

theorem Expr.python_bare (e : Expr) : e.bare.python = e.python := by
  induction e with
  | operation form left op right ihl ihr => simp only [Expr.bare, Expr.python, Form.symbol_bare, ihl, ihr]
  | _ => rfl

mutual

theorem Stmt.python_bare (depth : Nat) : ∀ s : Stmt, s.bare.python depth = s.python depth
  | .create name value => by simp only [Stmt.bare, Stmt.python, value.python_bare]; rfl
  | .assign name value => by simp only [Stmt.bare, Stmt.python, value.python_bare]; rfl
  | .print keyword value => by simp only [Stmt.bare, Stmt.python, value.python_bare]
  | .branch keyword cond yes none => by
    simp only [Stmt.bare, Stmt.python, cond.python_bare, pythonBlock_bare (depth + 1) yes]
  | .branch keyword cond yes (some []) => by
    simp only [Stmt.bare, Stmt.python, cond.python_bare, pythonBlock_bare (depth + 1) yes]
  | .branch keyword cond yes (some (s :: rest)) => by
    have hno := pythonBlock_bare (depth + 1) (s :: rest)
    simp only [bareBlock] at hno
    simp only [Stmt.bare, bareBlock, Stmt.python, cond.python_bare, pythonBlock_bare (depth + 1) yes, hno]
  | .loop keyword cond body => by
    simp only [Stmt.bare, Stmt.python, cond.python_bare, pythonBlock_bare (depth + 1) body]
  | .hole => rfl

theorem pythonBlock_bare (depth : Nat) : ∀ ss : List Stmt, pythonBlock depth (bareBlock ss) = pythonBlock depth ss
  | [] => rfl
  | s :: rest => by simp only [bareBlock, pythonBlock, s.python_bare depth, pythonBlock_bare depth rest]

end

/-- Two results with the same value, or with the same error up to its place. -/
def Evaluation.Alike {α : Type} : Except RunError α → Except RunError α → Prop
  | .ok a, .ok b => a = b
  | .error e, .error f => e.placeless = f.placeless
  | _, _ => False

namespace Evaluation

theorem Alike.refl {α : Type} (r : Except RunError α) : Alike r r := by
  cases r <;> rfl

theorem Alike.cases {α : Type} {r r' : Except RunError α} (h : Alike r r') :
    (∃ a, r = .ok a ∧ r' = .ok a) ∨ ∃ e f, r = .error e ∧ r' = .error f ∧ e.placeless = f.placeless := by
  cases r with
  | ok a =>
    cases r' with
    | ok b => exact Or.inl ⟨a, rfl, by rw [show a = b from h]⟩
    | error f => exact h.elim
  | error e =>
    cases r' with
    | ok b => exact h.elim
    | error f => exact Or.inr ⟨e, f, rfl, rfl, h⟩

theorem alike_literal (t u : Token) (raw : Text) : Alike (literal t raw) (literal u raw) := by
  unfold literal
  split
  next => rfl
  next => split <;> rfl

theorem alike_repetition (t u : Token) (s : Text) (count : Value) : Alike (repetition t s count) (repetition u s count) := by
  unfold repetition
  split
  next =>
    split
    next => rfl
    next => split <;> rfl
  next => rfl

theorem alike_numbers {t u : Token} (h : t.lexeme = u.lexeme) (left right : Value) :
    Alike (numbers t left right) (numbers u left right) := by
  unfold numbers
  split
  next =>
    unfold numeric
    rw [h]
    split
    next => rfl
    next =>
      split
      next => rfl
      next =>
        split
        next => rfl
        next =>
          split
          next => split <;> rfl
          next => rfl
  next => rw [h]; rfl

theorem alike_arithmetic {t u : Token} (h : t.lexeme = u.lexeme) (left right : Value) :
    Alike (arithmetic t left right) (arithmetic u left right) := by
  unfold arithmetic
  rw [h]
  split
  next =>
    split
    next => rfl
    next => rfl
    next => exact alike_numbers h left right
  next =>
    split
    next =>
      split
      next => exact alike_repetition t u _ right
      next => exact alike_repetition t u _ left
      next => exact alike_numbers h left right
    next => exact alike_numbers h left right

theorem alike_comparison {t u : Token} (h : Form.comparison.symbol t = Form.comparison.symbol u) (left right : Value) :
    Alike (comparison t left right) (comparison u left right) := by
  unfold comparison ordered
  simp only [h]
  split
  next => rfl
  next =>
    split
    next => rfl
    next =>
      split
      next => rfl
      next => split <;> rfl

end Evaluation

open Evaluation in
/-- The normal form of an expression has the same value. -/
theorem Expr.alike_eval (env : Env) (e : Expr) : Alike (e.bare.eval env) (e.eval env) := by
  induction e with
  | number t value => rfl
  | string t value =>
    simp only [Expr.bare, Expr.eval]
    rcases (alike_literal (t.bare value) t value).cases with ⟨a, h', h⟩ | ⟨e, f, h', h, hef⟩
    · rw [h', h]; rfl
    · rw [h', h]; exact hef
  | var name =>
    simp only [Expr.bare, Expr.eval, Token.bare]
    split <;> rfl
  | operation form left op right ihl ihr =>
    simp only [Expr.bare]
    rcases ihl.cases with ⟨v, hl', hl⟩ | ⟨e, f, hl', hl, hef⟩
    · rcases ihr.cases with ⟨w, hr', hr⟩ | ⟨e, f, hr', hr, hef⟩
      · cases form <;> simp only [Expr.eval, hl, hl', hr, hr', reduceCtorEq, ↓reduceIte]
        · exact alike_arithmetic (show (op.bare op.lexeme).lexeme = op.lexeme from rfl) v w
        · exact alike_comparison (Form.symbol_bare _ _) v w
        · exact Alike.refl _
      · cases form <;> simp only [Expr.eval, hl, hl', hr, hr']
        · exact hef
        · exact hef
        · rw [show (op.bare (Form.logic.symbol op)).kind = op.kind from rfl]
          split
          · rfl
          · exact hef
    · cases form <;> simp only [Expr.eval, hl, hl'] <;> exact hef
  | hole => rfl

/-- Two actions that do the same from every state, up to the place of an error. -/
def Action.Alike (a b : Action) : Prop :=
  ∀ s, (a s).1 = (b s).1 ∧ (a s).2.map RunError.placeless = (b s).2.map RunError.placeless

namespace Action

theorem Alike.refl (a : Action) : Alike a a :=
  fun _ => ⟨rfl, rfl⟩

theorem Alike.andThen {a a' b b' : Action} (ha : Alike a a') (hb : Alike b b') :
    Alike (a.andThen b) (a'.andThen b') := by
  intro s
  obtain ⟨hstate, herror⟩ := ha s
  unfold Action.andThen
  rcases hs : a s with ⟨t, _ | e⟩ <;> rcases hs' : a' s with ⟨t', _ | e'⟩ <;> rw [hs, hs'] at hstate herror
  · cases hstate
    exact hb t
  · cases herror
  · cases herror
  · exact ⟨hstate, herror⟩

theorem alike_withValue (e : Expr) {next next' : Value → Action} (h : ∀ v, Alike (next v) (next' v)) :
    Alike (withValue e.bare next) (withValue e next') := by
  intro s
  unfold withValue
  rcases (e.alike_eval s.env).cases with ⟨v, hv', hv⟩ | ⟨e, f, he, hf, hef⟩
  · rw [hv', hv]
    exact h v s
  · rw [he, hf]
    exact ⟨rfl, by simp [hef]⟩

theorem alike_repeatWhile (cond : Expr) {body body' : Action} (h : Alike body body') (turns : Nat) :
    Alike (repeatWhile cond.bare body turns) (repeatWhile cond body' turns) := by
  induction turns with
  | zero => exact alike_withValue cond fun v => Alike.refl _
  | succ turns ih =>
    refine alike_withValue cond fun v => ?_
    split
    · exact h.andThen ih
    · exact Alike.refl _

end Action

mutual

theorem Stmt.alike_exec (b : Bound) : ∀ s : Stmt, Action.Alike (s.bare.exec b) (s.exec b)
  | .create _ value => by
    simp only [Stmt.bare, Stmt.exec]
    exact Action.alike_withValue value fun v => Action.Alike.refl _
  | .assign _ value => by
    simp only [Stmt.bare, Stmt.exec]
    exact Action.alike_withValue value fun v => Action.Alike.refl _
  | .print _ value => by
    simp only [Stmt.bare, Stmt.exec]
    exact Action.alike_withValue value fun v => Action.Alike.refl _
  | .branch _ cond yes none => by
    simp only [Stmt.bare, Stmt.exec]
    refine Action.alike_withValue cond fun v => ?_
    split
    · exact alike_execBlock b yes
    · exact Action.Alike.refl _
  | .branch _ cond yes (some []) => by
    simp only [Stmt.bare, Stmt.exec, execBlock]
    refine Action.alike_withValue cond fun v => ?_
    split
    · exact alike_execBlock b yes
    · exact Action.Alike.refl _
  | .branch _ cond yes (some (s :: rest)) => by
    simp only [Stmt.bare, Stmt.exec]
    refine Action.alike_withValue cond fun v => ?_
    split
    · exact alike_execBlock b yes
    · exact alike_execBlock b (s :: rest)
  | .loop _ cond body => by
    simp only [Stmt.bare, Stmt.exec]
    exact Action.alike_repeatWhile cond ((Action.Alike.refl _).andThen (alike_execBlock b body)) b.turns
  | .hole => Action.Alike.refl _

theorem alike_execBlock (b : Bound) : ∀ ss : List Stmt, Action.Alike (execBlock b (bareBlock ss)) (execBlock b ss)
  | [] => Action.Alike.refl _
  | s :: rest => by
    simp only [bareBlock, execBlock]
    exact (Action.Alike.refl _).andThen ((Stmt.alike_exec b s).andThen (alike_execBlock b rest))

end

theorem Node.refusal_bare (n : Node) :
    n.bare.refusal?.map RunError.placeless = n.refusal?.map RunError.placeless := by
  have hname (t : Token) : (checkName (t.bare t.lexeme)).map RunError.placeless =
      (checkName t).map RunError.placeless := by
    simp [checkName, Token.bare, RunError.placeless, apply_ite]
  cases n with
  | program p => rfl
  | stmt s =>
    cases s with
    | create name value => exact hname name
    | assign name value => exact hname name
    | _ => rfl
  | expr e =>
    cases e with
    | var name => exact hname name
    | string t raw =>
      simp only [Node.bare, Expr.bare, Node.refusal?]
      rcases (Evaluation.alike_literal (t.bare raw) t raw).cases with ⟨a, h', h⟩ | ⟨e, f, h', h, hef⟩
      · rw [h', h]
      · rw [h', h]
        simp [hef]
    | _ => rfl

theorem Program.refusal_bare (p : Program) :
    (Program.refusal? (Program.bare p)).map RunError.placeless = (Program.refusal? p).map RunError.placeless := by
  unfold Program.refusal?
  rw [Program.walk_bare]
  induction Program.walk p with
  | nil => rfl
  | cons n rest ih =>
    have hn := n.refusal_bare
    rw [List.map_cons, List.findSome?_cons, List.findSome?_cons]
    cases h : n.refusal? with
    | none =>
      rw [h, Option.map_none, Option.map_eq_none_iff] at hn
      rw [hn]
      exact ih
    | some e =>
      rw [h] at hn
      obtain ⟨f, hf, hef⟩ := Option.map_eq_some_iff.mp hn
      rw [hf]
      simp [hef]

/-- The outcome without the place of its error. -/
def Evaluator.Outcome.placeless (o : Evaluator.Outcome) : Evaluator.Outcome :=
  { o with error := o.error.map RunError.placeless }

/-- A program and its normal form run alike: they print the same, leave the same variables, and end with the same error
up to its place. -/
theorem Evaluator.run_bare (ev : Evaluator) (ctx : Context) (p : Program) :
    (ev.run ctx (Program.bare p)).placeless = (ev.run ctx p).placeless := by
  have hrefusal := Program.refusal_bare p
  unfold Evaluator.run
  cases h : Program.refusal? p with
  | some e =>
    rw [h] at hrefusal
    obtain ⟨f, hf, hef⟩ := Option.map_eq_some_iff.mp hrefusal
    rw [hf]
    simp [Outcome.placeless, hef]
  | none =>
    rw [h, Option.map_none, Option.map_eq_none_iff] at hrefusal
    rw [hrefusal]
    obtain ⟨hstate, herror⟩ := alike_execBlock ⟨ev.maxSteps, ctx⟩ p ⟨ev.env, [], 0⟩
    simp only [Program.bare, Outcome.placeless, hstate, herror]

end EnglishScript
