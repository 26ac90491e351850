import EnglishScript.Tree.Listing
import EnglishScript.Proofs.RunInduction
import EnglishScript.Proofs.SourceTree

namespace EnglishScript

/-- The signs of arithmetic. -/
def arithmeticSigns : List Text :=
  [utf8 "+", utf8 "-", utf8 "*", utf8 "/"]

theorem Token.Is.lexeme_arithmetic {op : Token} {kind : Kind} (hk : kind ∈ Form.arithmetic.operators)
    (h : op.Is kind) : op.lexeme ∈ arithmeticSigns := by
  simp only [Form.operators, List.mem_cons, List.not_mem_nil, or_false] at hk
  rcases hk with rfl | rfl | rfl | rfl <;> (rw [h.2]; decide)

/-- A node as sources have them: it is there, and arithmetic has one of its signs. -/
def Node.Sound (n : Node) : Prop :=
  n.isHole = false ∧
    ∀ left op right, n = .expr (.operation .arithmetic left op right) → op.lexeme ∈ arithmeticSigns

theorem Expr.Sourced.sound {e : Expr} (h : e.Sourced) : Node.Sound (.expr e) := by
  cases e with
  | number t value => exact ⟨rfl, by simp⟩
  | string t value => exact ⟨rfl, by simp⟩
  | var t => exact ⟨rfl, by simp⟩
  | operation form left op right =>
    refine ⟨rfl, ?_⟩
    intro l o r heq
    simp only [Node.expr.injEq, Expr.operation.injEq] at heq
    obtain ⟨rfl, _, rfl, _⟩ := heq
    obtain ⟨_, ⟨kind, hk, hop⟩, _⟩ := h
    exact hop.lexeme_arithmetic hk
  | hole => exact h.elim

theorem Node.Sourced.sound {n : Node} (h : n.Sourced) : n.Sound := by
  cases n with
  | program p => exact ⟨rfl, by simp⟩
  | stmt s =>
    refine ⟨?_, by simp⟩
    cases s with
    | hole => exact h.elim
    | _ => rfl
  | expr e => exact Expr.Sourced.sound h

theorem Expr.program_not_mem_walk (e : Expr) (q : Program) : Node.program q ∉ e.walk := by
  induction e with
  | operation form left op right ihl ihr => simp [Expr.walk, ihl, ihr]
  | _ => simp [Expr.walk]

mutual

theorem Stmt.program_not_mem_walk : ∀ (s : Stmt) (q : Program), Node.program q ∉ s.walk
  | .create _ value, q => by simp [Stmt.walk, value.program_not_mem_walk q]
  | .assign _ value, q => by simp [Stmt.walk, value.program_not_mem_walk q]
  | .print _ value, q => by simp [Stmt.walk, value.program_not_mem_walk q]
  | .branch _ cond yes none, q => by
    simp [Stmt.walk, cond.program_not_mem_walk q, program_not_mem_walkBlock yes q]
  | .branch _ cond yes (some no), q => by
    simp [Stmt.walk, cond.program_not_mem_walk q, program_not_mem_walkBlock yes q, program_not_mem_walkBlock no q]
  | .loop _ cond body, q => by
    simp [Stmt.walk, cond.program_not_mem_walk q, program_not_mem_walkBlock body q]
  | .hole, _ => by simp [Stmt.walk]

theorem program_not_mem_walkBlock : ∀ (ss : List Stmt) (q : Program), Node.program q ∉ walkBlock ss
  | [], _ => by simp [walkBlock]
  | s :: rest, q => by simp [walkBlock, s.program_not_mem_walk q, program_not_mem_walkBlock rest q]

end

theorem BlockSourced.program_sound {p : Program} (h : BlockSourced p) : ∀ n ∈ Program.walk p, n.Sound :=
  fun _ hn => (h.node hn).sound

theorem Node.Sound.fault_eq_none {n : Node} (h : n.Sound) : n.fault? = none := by
  have hhole := h.1
  unfold Node.isHole at hhole
  unfold Node.fault?
  split at hhole <;> simp_all

theorem Node.entry_isSome {n : Node} (h : n.isHole = false) (hp : ∀ p, n = .program p → ∀ s ∈ p.head?, s ≠ .hole) :
    ∃ t, n.entry? = some t := by
  have hbase : ∃ t, n.base? = some t := by
    cases n with
    | program p =>
      cases p with
      | nil => exact ⟨_, rfl⟩
      | cons s rest =>
        have hs := hp (s :: rest) rfl s rfl
        cases s <;> first | exact ⟨_, rfl⟩ | exact absurd rfl hs
    | stmt s => cases s <;> first | exact ⟨_, rfl⟩ | simp [Node.isHole] at h
    | expr e => cases e <;> first | exact ⟨_, rfl⟩ | simp [Node.isHole] at h
  obtain ⟨t, ht⟩ := hbase
  exact ⟨_, by rw [Node.entry?, ht]; rfl⟩

theorem outline_isSome {nodes : List Node} (h : ∀ n ∈ nodes, ∃ t, n.entry? = some t) :
    ∃ entries, outline? nodes = some entries := by
  unfold outline?
  induction nodes with
  | nil => exact ⟨[], rfl⟩
  | cons n rest ih =>
    obtain ⟨t, ht⟩ := h n (by simp)
    obtain ⟨entries, hrest⟩ := ih fun m hm => h m (by simp [hm])
    exact ⟨t :: entries, by simp [List.mapM_cons, ht, hrest]⟩

namespace Evaluation

/-- A result that is no fault. -/
def Clear {α : Type} (r : Except RunError α) : Prop :=
  ∀ f, r ≠ .error (.fault f)

theorem clear_literal (token : Token) (raw : Text) : Clear (literal token raw) := by
  intro f
  unfold literal
  split
  next => simp
  next => split <;> simp

theorem clear_repetition (op : Token) (s : Text) (count : Value) : Clear (repetition op s count) := by
  intro f
  unfold repetition
  split
  next n hn =>
    split
    next => simp
    next => split <;> simp
  next => simp

theorem clear_numeric {op : Token} (h : op.lexeme ∈ arithmeticSigns) (l r : Float) (isFloat : Bool) :
    Clear (numeric op l r isFloat) := by
  intro f
  simp only [arithmeticSigns, List.mem_cons, List.not_mem_nil, or_false] at h
  unfold numeric
  split
  next => simp
  next hplus =>
    split
    next => simp
    next hminus =>
      split
      next => simp
      next htimes =>
        split
        next => split <;> simp
        next hover =>
          rcases h with h | h | h | h
          · exact absurd h hplus
          · exact absurd h hminus
          · exact absurd h htimes
          · exact absurd h hover

theorem clear_numbers {op : Token} (h : op.lexeme ∈ arithmeticSigns) (left right : Value) :
    Clear (numbers op left right) := by
  unfold numbers
  split
  next => exact clear_numeric h _ _ _
  next => intro f; simp

theorem clear_arithmetic {op : Token} (h : op.lexeme ∈ arithmeticSigns) (left right : Value) :
    Clear (arithmetic op left right) := by
  unfold arithmetic
  split
  next =>
    split
    next => intro f; simp
    next => intro f; simp
    next => exact clear_numbers h left right
  next =>
    split
    next =>
      split
      next => exact clear_repetition op _ right
      next => exact clear_repetition op _ left
      next => exact clear_numbers h left right
    next => exact clear_numbers h left right

theorem clear_comparison (op : Token) (left right : Value) : Clear (comparison op left right) := by
  intro f
  unfold comparison
  simp only
  split
  next => simp
  next =>
    split
    next => simp
    next =>
      unfold ordered
      simp only
      split
      next => simp
      next => split <;> simp

end Evaluation

open Evaluation in
theorem Expr.clear_eval {e : Expr} (h : ∀ n ∈ e.walk, n.Sound) (env : Env) : Clear (e.eval env) := by
  induction e with
  | number t value => intro f; simp [Expr.eval]
  | string t raw =>
    intro f hf
    rw [Expr.eval] at hf
    cases hl : literal t raw with
    | ok s => rw [hl] at hf; cases hf
    | error e =>
      rw [hl] at hf
      cases Except.error.inj hf
      exact clear_literal t raw f hl
  | var name =>
    intro f
    unfold Expr.eval
    split <;> simp
  | operation form left op right ihl ihr =>
    have hleft := ihl fun n hn => h n (by simp [Expr.walk, hn])
    have hright := ihr fun n hn => h n (by simp [Expr.walk, hn])
    intro f
    cases form with
    | logic =>
      unfold Expr.eval
      split
      next e he => exact fun hf => hleft f (he.trans hf)
      next v hv =>
        split
        next => simp
        next => exact hright f
    | arithmetic =>
      have hsign : op.lexeme ∈ arithmeticSigns := (h _ (by simp [Expr.walk])).2 left op right rfl
      unfold Expr.eval
      split
      next e he => exact fun hf => hleft f (he.trans hf)
      next l hv =>
        split
        next e he => exact fun hf => hright f (he.trans hf)
        next r hw => exact clear_arithmetic hsign l r f
    | comparison =>
      unfold Expr.eval
      split
      next e he => exact fun hf => hleft f (he.trans hf)
      next l hv =>
        split
        next e he => exact fun hf => hright f (he.trans hf)
        next r hw => exact clear_comparison op l r f
  | hole =>
    have hhole := (h (.expr .hole) (by simp [Expr.walk])).1
    cases hhole

/-- An action that ends in no fault, whatever state it starts in. -/
def Action.Clear (a : Action) : Prop :=
  ∀ s f, (a s).2 ≠ some (.fault f)

namespace Action

theorem clear_step (limit : Int) (ctx : Context) : Clear (step limit ctx) := by
  intro s f
  unfold step
  split
  next => simp
  next => simp only; split <;> simp

theorem Clear.andThen {first second : Action} (hf : Clear first) (hs : Clear second) : Clear (first.andThen second) := by
  intro s f
  unfold Action.andThen
  split
  next t ht => exact hs t f
  next t e ht =>
    intro he
    exact hf s f (by rw [ht]; exact he)

theorem clear_withValue {e : Expr} {next : Value → Action} (he : ∀ n ∈ e.walk, n.Sound) (hn : ∀ v, Clear (next v)) :
    Clear (withValue e next) := by
  intro s f
  unfold withValue
  split
  next v hv => exact hn v s f
  next err herr =>
    intro h
    cases Option.some.inj h
    exact Expr.clear_eval he s.env f herr

theorem keeps_clear (b : Bound) : Keeps b Node.Sound Clear where
  done := by rintro s f ⟨⟩
  horizon := by rintro s f ⟨⟩
  hole h := by cases h.1
  step := clear_step b.limit b.ctx
  assign _ _ v := by rintro s f ⟨⟩
  print v := by rintro s f ⟨⟩
  andThen := Clear.andThen
  withValue := clear_withValue

end Action

theorem Node.Sound.refusal_clear {n : Node} (h : n.Sound) (f : Fault) : n.refusal? ≠ some (.fault f) := by
  unfold Node.refusal?
  split
  next => unfold checkName; split <;> simp
  next => unfold checkName; split <;> simp
  next => unfold checkName; split <;> simp
  next token raw =>
    split
    next => simp
    next e he =>
      intro hf
      cases Option.some.inj hf
      exact Evaluation.clear_literal token raw f he
  next => simp [Node.Sound, Node.isHole] at h
  next => simp [Node.Sound, Node.isHole] at h
  next => simp

theorem BlockSourced.clear_run {p : Program} (h : BlockSourced p) (ev : Evaluator) (ctx : Context) (f : Fault) :
    (ev.run ctx p).error ≠ some (.fault f) := by
  unfold Evaluator.run
  split
  next e he =>
    intro hf
    cases Option.some.inj hf
    obtain ⟨n, hn, hrefusal⟩ := List.exists_of_findSome?_eq_some he
    exact (h.program_sound n hn).refusal_clear f hrefusal
  next =>
    have hnodes : ∀ n ∈ walkBlock p, n.Sound := fun n hn => h.program_sound n (List.mem_cons_of_mem _ hn)
    exact (Action.keeps_clear ⟨ev.maxSteps, ctx⟩).block hnodes ⟨ev.env, [], 0⟩ f

theorem BlockSourced.listing_eq {p : Program} (h : BlockSourced p) :
    Program.listing? p = some (Program.listing p) := by
  have hhole : Program.hasHole p = false := by
    refine List.any_eq_false.mpr fun n hn => ?_
    simp [(h.program_sound n hn).1]
  simp [Program.listing?, hhole]

theorem BlockSourced.python_eq {p : Program} (h : BlockSourced p) :
    Program.python? p = .ok (Program.python p) := by
  have hfault : Program.fault? p = none :=
    List.findSome?_eq_none_iff.mpr fun n hn => (h.program_sound n hn).fault_eq_none
  simp [Program.python?, hfault]

theorem BlockSourced.head_ne_hole {p : Program} (h : BlockSourced p) : ∀ s ∈ p.head?, s ≠ .hole := by
  rintro s hs rfl
  cases p with
  | nil => cases hs
  | cons s rest =>
    cases Option.some.inj hs
    exact h.1.elim

theorem BlockSourced.outline_isSome {p : Program} (h : BlockSourced p) :
    ∃ entries, outline? (Program.walk p) = some entries := by
  refine EnglishScript.outline_isSome fun n hn => Node.entry_isSome (h.program_sound n hn).1 ?_
  rintro q rfl
  rcases List.mem_cons.mp hn with hq | hq
  · cases hq
    exact h.head_ne_hole
  · exact absurd hq (program_not_mem_walkBlock p q)

/-- Nothing done with the program of a source ends in a fault: every node is there, arithmetic has one of its four
signs, and the listing, the walk, the Python text and every run are clear of missing nodes and unknown operators. A run
that no limit stops is taken up to the horizon. -/
theorem parseSource_faultless {source : Text} {p : Program} (h : parseSource source = .ok p) :
    (∀ n ∈ Program.walk p, n.Sound) ∧
      Program.listing? p = some (Program.listing p) ∧
      (∃ entries, outline? (Program.walk p) = some entries) ∧
      Program.python? p = .ok (Program.python p) ∧
      ∀ (ev : Evaluator) (ctx : Context) (f : Fault), (ev.run ctx p).error ≠ some (.fault f) := by
  have hp := parseSource_sourced h
  exact ⟨hp.program_sound, hp.listing_eq, hp.outline_isSome, hp.python_eq, hp.clear_run⟩

/-- A loop with arithmetic on a text and a number is such a source. -/
theorem parseSource_faultless_loop :
    ∃ p, parseSource (utf8 "While n is less than 3 do set n to (n + 1) / \"x\" end while") = .ok p ∧
      p.length = 1 ∧ (∀ n ∈ Program.walk p, n.Sound) ∧
      ∀ (ev : Evaluator) (ctx : Context) (f : Fault), (ev.run ctx p).error ≠ some (.fault f) := by
  have hone : ((parseSource (utf8 "While n is less than 3 do set n to (n + 1) / \"x\" end while")).toOption.map
      List.length) = some 1 := by
    decide +kernel
  cases hp : parseSource (utf8 "While n is less than 3 do set n to (n + 1) / \"x\" end while") with
  | error e => rw [hp] at hone; cases hone
  | ok p =>
    rw [hp] at hone
    obtain ⟨hnodes, _, _, _, hrun⟩ := parseSource_faultless hp
    exact ⟨p, rfl, Option.some.inj hone, hnodes, hrun⟩

end EnglishScript
