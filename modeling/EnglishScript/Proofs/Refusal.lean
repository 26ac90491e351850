import EnglishScript.Tree.Listing
import EnglishScript.Proofs.RunInduction

namespace EnglishScript

namespace Node

/-- The parts of a node, in the order of the source. -/
def parts : Node → List Node
  | .program p => p.map .stmt
  | .stmt (.create _ value) => [.expr value]
  | .stmt (.assign _ value) => [.expr value]
  | .stmt (.print _ value) => [.expr value]
  | .stmt (.branch _ cond yes no) => .expr cond :: (yes.map .stmt ++ (no.getD []).map .stmt)
  | .stmt (.loop _ cond body) => .expr cond :: body.map .stmt
  | .expr (.operation _ left _ right) => [.expr left, .expr right]
  | _ => []

/-- The second node is the first one or stands inside it, at any depth. -/
inductive Within : Node → Node → Prop
  | self (n : Node) : Within n n
  | part {n m k : Node} : m ∈ n.parts → Within m k → Within n k

/-- The nodes of a node, each before its parts. -/
def walk : Node → List Node
  | .program p => Program.walk p
  | .stmt s => s.walk
  | .expr e => e.walk

theorem walkBlock_eq_flatMap (ss : List Stmt) : walkBlock ss = (ss.map Node.stmt).flatMap walk := by
  induction ss with
  | nil => rfl
  | cons s rest ih => rw [walkBlock, ih]; rfl

theorem walk_eq (n : Node) : n.walk = n :: n.parts.flatMap walk := by
  cases n with
  | program p => simp only [walk, Program.walk, parts, walkBlock_eq_flatMap]
  | stmt s =>
    cases s with
    | branch keyword cond yes no =>
      cases no <;> simp [walk, Stmt.walk, parts, walkBlock_eq_flatMap]
    | loop keyword cond body => simp [walk, Stmt.walk, parts, walkBlock_eq_flatMap]
    | _ => simp [walk, Stmt.walk, parts]
  | expr e => cases e <;> simp [walk, Expr.walk, parts]

theorem sizeOf_part {n m : Node} (h : m ∈ n.parts) : sizeOf m < sizeOf n := by
  have inBlock {ss : List Stmt} (hm : m ∈ ss.map Node.stmt) : sizeOf m < 1 + sizeOf ss := by
    obtain ⟨s, hs, rfl⟩ := List.mem_map.mp hm
    have hlt := List.sizeOf_lt_of_mem hs
    simp only [stmt.sizeOf_spec]
    omega
  cases n with
  | program p =>
    have := inBlock h
    simp only [program.sizeOf_spec]
    omega
  | stmt s =>
    cases s with
    | branch keyword cond yes no =>
      simp only [parts, List.mem_cons, List.mem_append] at h
      simp only [stmt.sizeOf_spec, Stmt.branch.sizeOf_spec]
      rcases h with rfl | hm | hm
      · simp only [expr.sizeOf_spec]
        omega
      · have := inBlock hm
        omega
      · cases no with
        | none => cases hm
        | some block =>
          have := inBlock (show m ∈ block.map Node.stmt from hm)
          simp only [Option.some.sizeOf_spec]
          omega
    | loop keyword cond body =>
      simp only [parts, List.mem_cons] at h
      simp only [stmt.sizeOf_spec, Stmt.loop.sizeOf_spec]
      rcases h with rfl | hm
      · simp only [expr.sizeOf_spec]
        omega
      · have := inBlock hm
        omega
    | hole => cases h
    | _ =>
      obtain rfl := List.mem_singleton.mp h
      simp only [expr.sizeOf_spec, stmt.sizeOf_spec, Stmt.create.sizeOf_spec, Stmt.assign.sizeOf_spec,
        Stmt.print.sizeOf_spec]
      omega
  | expr e =>
    cases e with
    | operation form left op right =>
      simp only [parts, List.mem_cons, List.not_mem_nil, or_false] at h
      rcases h with rfl | rfl
      · simp only [expr.sizeOf_spec, Expr.operation.sizeOf_spec]
        omega
      · simp only [expr.sizeOf_spec, Expr.operation.sizeOf_spec]
        omega
    | _ => cases h

theorem within_of_mem_walk {n k : Node} (h : k ∈ n.walk) : Within n k := by
  rw [walk_eq] at h
  rcases List.mem_cons.mp h with rfl | h
  · exact .self k
  · obtain ⟨m, hm, hk⟩ := List.mem_flatMap.mp h
    have := sizeOf_part hm
    exact .part hm (within_of_mem_walk hk)
termination_by sizeOf n

/-- A walk visits exactly the nodes inside a node. -/
theorem mem_walk_iff {n k : Node} : k ∈ n.walk ↔ Within n k := by
  refine ⟨within_of_mem_walk, fun h => ?_⟩
  induction h with
  | self n =>
    rw [walk_eq]
    exact List.mem_cons_self
  | part hm _ ih =>
    rw [walk_eq]
    exact List.mem_cons_of_mem _ (List.mem_flatMap.mpr ⟨_, hm, ih⟩)

end Node

/-- Python refuses the node: a name is one of its own words, or a literal cannot be read. -/
def Node.Refused [Python.Decoder] : Node → Prop
  | .stmt (.create name _) => name.lexeme ∈ Python.reserved
  | .stmt (.assign name _) => name.lexeme ∈ Python.reserved
  | .expr (.var name) => name.lexeme ∈ Python.reserved
  | .expr (.string token raw) => ∀ t, Evaluation.literal token raw ≠ .ok t
  | _ => False

/-- Whether the error is an exception of the class `SyntaxError`. -/
def RunError.isSyntaxError : RunError → Bool
  | .raised _ cause => cause.isSyntaxError
  | _ => false

/-- Whether the error can come from an operation on values or from a missing part. -/
def RunError.isOperational : RunError → Bool
  | .raised _ cause => !cause.isSyntaxError
  | .fault _ => true
  | _ => false

theorem Cause.kind_eq_syntaxError (c : Cause) : c.kind = utf8 "SyntaxError" ↔ c.isSyntaxError = true := by
  cases c <;> simp only [Cause.kind, Cause.isSyntaxError] <;> decide

theorem Evaluation.literal_error [Python.Decoder] {token : Token} {raw : Text} {e : RunError} (h : literal token raw = .error e) :
    ∃ c, e = .raised token c ∧ c.isSyntaxError = true := by
  unfold literal at h
  split at h
  next => exact ⟨_, (Except.error.inj h).symm, rfl⟩
  next =>
    split at h
    next => cases h
    next => exact ⟨_, (Except.error.inj h).symm, rfl⟩

theorem checkName_cases (name : Token) :
    (name.lexeme ∉ Python.reserved ∧ checkName name = none) ∨
      (name.lexeme ∈ Python.reserved ∧ checkName name = some (.raised name (.keyword name.lexeme))) := by
  unfold checkName
  by_cases h : name.lexeme ∈ Python.reserved
  · exact .inr ⟨h, by simp [h]⟩
  · exact .inl ⟨h, by simp [h]⟩

/-- A node that is there is passed, or it is refused with an exception at its own token. -/
theorem Node.refusal_cases [Python.Decoder] {n : Node} (h : n.isHole = false) :
    (¬n.Refused ∧ n.refusal? = none) ∨
      (n.Refused ∧ ∃ t c, n.base? = some t ∧ n.refusal? = some (.raised t c) ∧ c.isSyntaxError = true) := by
  have named {name : Token} (hbase : n.base? = some name) (hrefused : n.Refused ↔ name.lexeme ∈ Python.reserved)
      (hrefusal : n.refusal? = checkName name) :
      (¬n.Refused ∧ n.refusal? = none) ∨
        (n.Refused ∧ ∃ t c, n.base? = some t ∧ n.refusal? = some (.raised t c) ∧ c.isSyntaxError = true) := by
    rw [hrefused, hrefusal]
    rcases checkName_cases name with hname | ⟨hname, hcheck⟩
    · exact .inl hname
    · exact .inr ⟨hname, name, _, hbase, hcheck, rfl⟩
  have passed (hrefused : n.Refused ↔ False) (hrefusal : n.refusal? = none) :
      (¬n.Refused ∧ n.refusal? = none) ∨
        (n.Refused ∧ ∃ t c, n.base? = some t ∧ n.refusal? = some (.raised t c) ∧ c.isSyntaxError = true) :=
    .inl ⟨hrefused.mp, hrefusal⟩
  cases n with
  | program p => exact passed .rfl rfl
  | stmt s =>
    cases s with
    | create name value => exact named rfl .rfl rfl
    | assign name value => exact named rfl .rfl rfl
    | hole => cases h
    | _ => exact passed .rfl rfl
  | expr e =>
    cases e with
    | var name => exact named rfl .rfl rfl
    | string token raw =>
      simp only [Node.Refused, Node.refusal?, Node.base?, Expr.base?]
      cases hliteral : Evaluation.literal token raw with
      | ok t => exact .inl ⟨by simp, rfl⟩
      | error e =>
        obtain ⟨c, rfl, hc⟩ := Evaluation.literal_error hliteral
        exact .inr ⟨by simp, token, c, rfl, rfl, hc⟩
    | hole => cases h
    | _ => exact passed .rfl rfl

theorem Program.isHole_of_mem {p : Program} (h : Program.hasHole p = false) {n : Node} (hn : n ∈ Program.walk p) :
    n.isHole = false := by
  simpa using List.any_eq_false.mp h n hn

namespace Evaluation

theorem repetition_error {op : Token} {s : Text} {count : Value} {e : RunError}
    (h : repetition op s count = .error e) : e.isOperational = true := by
  unfold repetition at h
  split at h
  next =>
    split at h
    next => cases h
    next => split at h <;> cases h; rfl
  next => cases h; rfl

theorem numeric_error {op : Token} {l r : Float} {isFloat : Bool} {e : RunError}
    (h : numeric op l r isFloat = .error e) : e.isOperational = true := by
  unfold numeric at h
  split at h
  next => cases h
  next =>
    split at h
    next => cases h
    next =>
      split at h
      next => cases h
      next =>
        split at h
        next =>
          split at h
          next => cases h; cases isFloat <;> rfl
          next => cases h
        next => cases h; rfl

theorem numbers_error {op : Token} {left right : Value} {e : RunError} (h : numbers op left right = .error e) :
    e.isOperational = true := by
  unfold numbers at h
  split at h
  next => exact numeric_error h
  next => cases h; rfl

theorem arithmetic_error {op : Token} {left right : Value} {e : RunError} (h : arithmetic op left right = .error e) :
    e.isOperational = true := by
  unfold arithmetic at h
  split at h
  next =>
    split at h
    next => cases h
    next => cases h; rfl
    next => exact numbers_error h
  next =>
    split at h
    next =>
      split at h
      next => exact repetition_error h
      next => exact repetition_error h
      next => exact numbers_error h
    next => exact numbers_error h

theorem comparison_error {op : Token} {left right : Value} {e : RunError} (h : comparison op left right = .error e) :
    e.isOperational = true := by
  unfold comparison at h
  simp only at h
  split at h
  next => cases h
  next =>
    split at h
    next => cases h
    next =>
      unfold ordered at h
      simp only at h
      split at h
      next => cases h
      next => split at h <;> cases h; rfl

end Evaluation

/-- An error of an expression comes from an operation or a missing part, or it refuses a node of the expression. -/
theorem Expr.eval_error [Python.Decoder] {env : Env} {e : Expr} {err : RunError} (h : e.eval env = .error err) :
    err.isOperational = true ∨ ∃ n ∈ e.walk, n.refusal? = some err := by
  induction e with
  | number t value => cases h
  | string token raw =>
    rw [Expr.eval] at h
    cases hliteral : Evaluation.literal token raw with
    | ok t => rw [hliteral] at h; cases h
    | error e =>
      rw [hliteral] at h
      cases h
      exact .inr ⟨.expr (.string token raw), by simp [Expr.walk], by simp only [Node.refusal?, hliteral]⟩
  | var name =>
    unfold Expr.eval at h
    split at h <;> cases h
    exact .inl rfl
  | operation form left op right ihl ihr =>
    have fromLeft (hl : left.eval env = .error err) :
        err.isOperational = true ∨ ∃ n ∈ (Expr.operation form left op right).walk, n.refusal? = some err := by
      refine (ihl hl).imp_right ?_
      rintro ⟨n, hn, hrefusal⟩
      exact ⟨n, by simp [Expr.walk, hn], hrefusal⟩
    have fromRight (hr : right.eval env = .error err) :
        err.isOperational = true ∨ ∃ n ∈ (Expr.operation form left op right).walk, n.refusal? = some err := by
      refine (ihr hr).imp_right ?_
      rintro ⟨n, hn, hrefusal⟩
      exact ⟨n, by simp [Expr.walk, hn], hrefusal⟩
    cases hl : left.eval env with
    | error e =>
      have : e = err := by cases form <;> simpa [Expr.eval, hl] using h
      exact fromLeft (this ▸ hl)
    | ok l =>
      cases form with
      | logic =>
        simp only [Expr.eval, hl] at h
        split at h
        next => cases h
        next => exact fromRight h
      | arithmetic =>
        cases hr : right.eval env with
        | error e => exact fromRight (by simpa [Expr.eval, hl, hr] using h)
        | ok r => exact .inl (Evaluation.arithmetic_error (by simpa [Expr.eval, hl, hr] using h))
      | comparison =>
        cases hr : right.eval env with
        | error e => exact fromRight (by simpa [Expr.eval, hl, hr] using h)
        | ok r => exact .inl (Evaluation.comparison_error (by simpa [Expr.eval, hl, hr] using h))
  | hole =>
    cases h
    exact .inl rfl

theorem Expr.eval_not_syntaxError [Python.Decoder] {env : Env} {e : Expr} {err : RunError}
    (he : ∀ n ∈ e.walk, n.refusal? = none) (h : e.eval env = .error err) : err.isSyntaxError = false := by
  rcases Expr.eval_error h with hop | ⟨n, hn, hrefusal⟩
  · cases err with
    | raised t c =>
      change c.isSyntaxError = false
      simpa [RunError.isOperational] using hop
    | _ => rfl
  · rw [he n hn] at hrefusal
    cases hrefusal

/-- Nothing that Python would refuse is found at the node. -/
abbrev Node.Accepted [Python.Decoder] (n : Node) : Prop :=
  n.refusal? = none

theorem Program.accepted [Python.Decoder] {p : Program} (h : Program.refusal? p = none) :
    ∀ n ∈ walkBlock p, n.Accepted := by
  intro n hn
  exact List.findSome?_eq_none_iff.mp h n (List.mem_cons_of_mem _ hn)

/-- The action ends with no exception of the class `SyntaxError`, whatever state it starts in. -/
def Action.Accepted (a : Action) : Prop :=
  ∀ s e, (a s).2 = some e → e.isSyntaxError = false

namespace Action

theorem accepted_step (limit : Int) (ctx : Context) : (step limit ctx).Accepted := by
  intro s e h
  unfold step at h
  split at h
  next => cases h; rfl
  next =>
    simp only at h
    split at h <;> cases h
    rfl

theorem Accepted.andThen {a b : Action} (ha : a.Accepted) (hb : b.Accepted) : (a.andThen b).Accepted := by
  intro s e h
  unfold Action.andThen at h
  split at h
  next t _ => exact hb t e h
  next t err hfirst =>
    cases h
    exact ha s e (by rw [hfirst])

theorem accepted_withValue [Python.Decoder] {x : Expr} {next : Value → Action} (hx : ∀ n ∈ x.walk, n.refusal? = none)
    (hnext : ∀ v, (next v).Accepted) : (withValue x next).Accepted := by
  intro s e h
  unfold withValue at h
  split at h
  next v _ => exact hnext v s e h
  next err herr =>
    cases h
    exact Expr.eval_not_syntaxError hx herr

theorem keeps_accepted [Python.Decoder] (b : Bound) : Keeps b Node.Accepted Action.Accepted where
  done := by rintro s e ⟨⟩
  horizon := by
    rintro s _ ⟨⟩
    rfl
  hole _ := by
    rintro s _ ⟨⟩
    rfl
  step := accepted_step b.limit b.ctx
  assign _ _ v := by rintro s e ⟨⟩
  print v := by rintro s e ⟨⟩
  andThen := Accepted.andThen
  withValue := accepted_withValue

end Action

namespace Evaluator

/-- The run ended with an exception of the class `SyntaxError` at the token. -/
def Outcome.SyntaxErrorAt (o : Outcome) (t : Token) : Prop :=
  ∃ c, o.error = some (.raised t c) ∧ c.kind = utf8 "SyntaxError"

theorem run_accepted [Python.Decoder] {p : Program} (h : Program.refusal? p = none) (ev : Evaluator) (ctx : Context)
    (t : Token) : ¬(ev.run ctx p).SyntaxErrorAt t := by
  rintro ⟨c, herror, hkind⟩
  have hnodes : ∀ n ∈ walkBlock p, n.refusal? = none := by
    intro n hn
    exact List.findSome?_eq_none_iff.mp h n (List.mem_cons_of_mem _ hn)
  simp only [run, h] at herror
  have hspared := (Action.keeps_accepted ⟨ev.maxSteps, ctx⟩).block hnodes _ _ herror
  rw [RunError.isSyntaxError, (Cause.kind_eq_syntaxError c).mp hkind] at hspared
  cases hspared

theorem run_refused [Python.Decoder] {p : Program} {e : RunError} (h : Program.refusal? p = some e) (ev : Evaluator)
    (ctx : Context) : ev.run ctx p = ⟨ev, [], some e⟩ := by
  simp only [run, h]

/-- However literals are decoded, a whole program without missing nodes is refused for a node at any depth, in a branch
never taken as well. The exception is at the first such node of the walk, nothing is printed and no variable changes; a
program that is not refused ends with no such exception, where a run that no limit stops is taken up to the horizon. -/
theorem run_syntaxError_iff [Python.Decoder] {p : Program} (hp : Program.hasHole p = false) (ev : Evaluator) (ctx : Context) :
    ((∃ t, (ev.run ctx p).SyntaxErrorAt t) ↔ ∃ n, Node.Within (.program p) n ∧ n.Refused) ∧
      (∀ t, (ev.run ctx p).SyntaxErrorAt t →
        (∃ before n after, Program.walk p = before ++ n :: after ∧ (∀ m ∈ before, ¬m.Refused) ∧ n.Refused ∧
          n.base? = some t) ∧
        (ev.run ctx p).stdout = [] ∧ (ev.run ctx p).evaluator = ev) ∧
      (Program.refusal? p = none → ∀ t, ¬(ev.run ctx p).SyntaxErrorAt t) := by
  have hnode {n : Node} (hn : n ∈ Program.walk p) := Node.refusal_cases (Program.isHole_of_mem hp hn)
  cases hrefusal : Program.refusal? p with
  | none =>
    have hnone := run_accepted hrefusal ev ctx
    refine ⟨⟨fun ⟨t, ht⟩ => absurd ht (hnone t), ?_⟩, fun t ht => absurd ht (hnone t), fun _ => hnone⟩
    rintro ⟨n, hwithin, hrefused⟩
    have hn : n ∈ Program.walk p := Node.mem_walk_iff.mpr hwithin
    rcases hnode hn with ⟨hpassed, _⟩ | ⟨_, t, c, _, hn', _⟩
    · exact absurd hrefused hpassed
    · rw [List.findSome?_eq_none_iff.mp hrefusal n hn] at hn'
      cases hn'
  | some e =>
    obtain ⟨before, n, after, hwalk, hn, hbefore⟩ := List.findSome?_eq_some_iff.mp hrefusal
    have hmem : n ∈ Program.walk p := by simp [hwalk]
    have hpassed : ∀ m ∈ before, ¬m.Refused := by
      intro m hm hrefused
      rcases hnode (show m ∈ Program.walk p by simp [hwalk, hm]) with ⟨hnot, _⟩ | ⟨_, t, c, _, hm', _⟩
      · exact hnot hrefused
      · rw [hbefore m hm] at hm'
        cases hm'
    rcases hnode hmem with ⟨_, hnone⟩ | ⟨hrefused, t, c, hbase, hraised, hc⟩
    · rw [hn] at hnone
      cases hnone
    · rw [hn] at hraised
      cases hraised
      rw [run_refused hrefusal ev ctx]
      refine ⟨⟨fun _ => ⟨n, Node.mem_walk_iff.mp hmem, hrefused⟩, fun _ => ?_⟩, ?_, fun h => by cases h⟩
      · exact ⟨t, c, rfl, (Cause.kind_eq_syntaxError c).mpr hc⟩
      · rintro t' ⟨c', herror, _⟩
        cases herror
        exact ⟨⟨before, n, after, hwalk, hpassed, hrefused, hbase⟩, rfl, rfl⟩

/-- Two refused nodes, both in a branch that is never taken: the literal stands before the name. -/
theorem run_syntaxError_iff_branch :
    let p : Program :=
      [.print ⟨.print, utf8 "print", ⟨1, 1⟩⟩ (.string ⟨.string, utf8 "a", ⟨1, 7⟩⟩ (utf8 "a")),
        .branch ⟨.if, utf8 "if", ⟨2, 1⟩⟩ (.string ⟨.string, [], ⟨2, 4⟩⟩ [])
          [.print ⟨.print, utf8 "print", ⟨3, 1⟩⟩ (.string ⟨.string, utf8 "\\x4", ⟨3, 7⟩⟩ (utf8 "\\x4")),
            .assign ⟨.identifier, utf8 "None", ⟨4, 5⟩⟩ (.string ⟨.string, [], ⟨4, 13⟩⟩ [])] none]
    Program.hasHole p = false ∧ (Evaluator.new.run .background p).SyntaxErrorAt ⟨.string, utf8 "\\x4", ⟨3, 7⟩⟩ ∧
      (Evaluator.new.run .background p).stdout = [] ∧ ∃ n, Node.Within (.program p) n ∧ n.Refused := by
  intro p
  have hp : Program.hasHole p = false := by decide
  have herror : (Evaluator.new.run .background p).SyntaxErrorAt ⟨.string, utf8 "\\x4", ⟨3, 7⟩⟩ :=
    ⟨.badEscape ⟨.truncated, 'x', 0⟩, by decide +kernel, by decide⟩
  obtain ⟨hiff, hfirst, _⟩ := run_syntaxError_iff hp Evaluator.new .background
  exact ⟨hp, herror, (hfirst _ herror).2.1, hiff.mp ⟨_, herror⟩⟩

end Evaluator

end EnglishScript
