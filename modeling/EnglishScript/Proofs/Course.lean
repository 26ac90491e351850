import EnglishScript.Proofs.Refusal

namespace EnglishScript

/-- The variables and the printed texts, the newest first. -/
structure Store where
  env : Env
  printed : List Text

namespace Store

def assign (σ : Store) (name : Text) (v : Value) : Store :=
  { σ with env := σ.env.set name v }

def print (σ : Store) (v : Value) : Store :=
  { σ with printed := (v.text ++ [Text.lf]) :: σ.printed }

def stdout (σ : Store) : Text :=
  σ.printed.reverse.flatten

end Store

/-- How a course stands: it has ended, it has failed, or a statement or a turn of a loop is due. -/
inductive Standing where
  | ended
  | failed (e : RunError)
  | due

/-- A point of a course: the number of statements and turns started so far, what they led to, and how the course stands. -/
structure Point where
  started : Nat
  store : Store
  standing : Standing

/-- The point if `n` more had been started before. -/
def Point.later (n : Nat) (p : Point) : Point :=
  { p with started := n + p.started }

/-- The expression that a statement looks at first. -/
def Stmt.subject? : Stmt → Option Expr
  | .create _ value => some value
  | .assign _ value => some value
  | .print _ value => some value
  | .branch _ cond _ _ => some cond
  | .loop _ cond _ => some cond
  | .hole => none

mutual

/-- The points of a statement that has been started. Nothing bounds a loop, so a statement that never ends has points with
any number of turns, all of them due to go on. -/
inductive StmtCourse : Stmt → Store → Point → Prop
  | raise {s : Stmt} {x : Expr} {σ : Store} {e : RunError} (subject : s.subject? = some x)
      (value : x.eval σ.env = .error e) : StmtCourse s σ ⟨0, σ, .failed e⟩
  | create {name : Token} {x : Expr} {σ : Store} {v : Value} (value : x.eval σ.env = .ok v) :
      StmtCourse (.create name x) σ ⟨0, σ.assign name.lexeme v, .ended⟩
  | assign {name : Token} {x : Expr} {σ : Store} {v : Value} (value : x.eval σ.env = .ok v) :
      StmtCourse (.assign name x) σ ⟨0, σ.assign name.lexeme v, .ended⟩
  | print {keyword : Token} {x : Expr} {σ : Store} {v : Value} (value : x.eval σ.env = .ok v) :
      StmtCourse (.print keyword x) σ ⟨0, σ.print v, .ended⟩
  | yes {keyword : Token} {cond : Expr} {yes : List Stmt} {no : Option (List Stmt)} {σ : Store} {v : Value} {p : Point}
      (value : cond.eval σ.env = .ok v) (truthy : v.truthy = true) (course : BlockCourse yes σ p) :
      StmtCourse (.branch keyword cond yes no) σ p
  | no {keyword : Token} {cond : Expr} {yes : List Stmt} {no : Option (List Stmt)} {σ : Store} {v : Value} {p : Point}
      (value : cond.eval σ.env = .ok v) (truthy : v.truthy = false) (course : BlockCourse (no.getD []) σ p) :
      StmtCourse (.branch keyword cond yes no) σ p
  | leave {keyword : Token} {cond : Expr} {body : List Stmt} {σ : Store} {v : Value}
      (value : cond.eval σ.env = .ok v) (truthy : v.truthy = false) :
      StmtCourse (.loop keyword cond body) σ ⟨0, σ, .ended⟩
  | due {keyword : Token} {cond : Expr} {body : List Stmt} {σ : Store} {v : Value}
      (value : cond.eval σ.env = .ok v) (truthy : v.truthy = true) :
      StmtCourse (.loop keyword cond body) σ ⟨0, σ, .due⟩
  | stops {keyword : Token} {cond : Expr} {body : List Stmt} {σ : Store} {v : Value} {p : Point}
      (value : cond.eval σ.env = .ok v) (truthy : v.truthy = true) (course : BlockCourse body σ p)
      (standing : p.standing ≠ .ended) : StmtCourse (.loop keyword cond body) σ (p.later 1)
  | again {keyword : Token} {cond : Expr} {body : List Stmt} {σ : Store} {v : Value} {p q : Point}
      (value : cond.eval σ.env = .ok v) (truthy : v.truthy = true) (course : BlockCourse body σ p)
      (standing : p.standing = .ended) (next : StmtCourse (.loop keyword cond body) p.store q) :
      StmtCourse (.loop keyword cond body) σ (q.later (1 + p.started))
  | hole {σ : Store} : StmtCourse .hole σ ⟨0, σ, .failed (.fault .missingStatement)⟩

/-- The points of a block. -/
inductive BlockCourse : List Stmt → Store → Point → Prop
  | nil {σ : Store} : BlockCourse [] σ ⟨0, σ, .ended⟩
  | due {s : Stmt} {rest : List Stmt} {σ : Store} : BlockCourse (s :: rest) σ ⟨0, σ, .due⟩
  | stops {s : Stmt} {rest : List Stmt} {σ : Store} {p : Point} (course : StmtCourse s σ p)
      (standing : p.standing ≠ .ended) : BlockCourse (s :: rest) σ (p.later 1)
  | goes {s : Stmt} {rest : List Stmt} {σ : Store} {p q : Point} (course : StmtCourse s σ p)
      (standing : p.standing = .ended) (next : BlockCourse rest p.store q) :
      BlockCourse (s :: rest) σ (q.later (1 + p.started))

end

/-- The points of a program. A program that Python refuses fails before anything is started. -/
inductive ProgramCourse (p : Program) (σ : Store) : Point → Prop
  | refused {e : RunError} (refusal : Program.refusal? p = some e) : ProgramCourse p σ ⟨0, σ, .failed e⟩
  | accepted {point : Point} (refusal : Program.refusal? p = none) (course : BlockCourse p σ point) :
      ProgramCourse p σ point

/-- The points of something that is started, does a first part and then a second one. -/
inductive Turn (first second : Store → Point → Prop) (σ : Store) : Point → Prop
  | due : Turn first second σ ⟨0, σ, .due⟩
  | stops {p : Point} (course : first σ p) (standing : p.standing ≠ .ended) : Turn first second σ (p.later 1)
  | goes {p q : Point} (course : first σ p) (standing : p.standing = .ended) (next : second p.store q) :
      Turn first second σ (q.later (1 + p.started))

theorem Turn.block {s : Stmt} {rest : List Stmt} {σ : Store} {p : Point}
    (h : Turn (StmtCourse s) (BlockCourse rest) σ p) : BlockCourse (s :: rest) σ p := by
  cases h with
  | due => exact .due
  | stops course standing => exact .stops course standing
  | goes course standing next => exact .goes course standing next

theorem Turn.loop {keyword : Token} {cond : Expr} {body : List Stmt} {σ : Store} {v : Value} {p : Point}
    (hcond : cond.eval σ.env = .ok v) (hv : v.truthy = true)
    (h : Turn (BlockCourse body) (StmtCourse (.loop keyword cond body)) σ p) :
    StmtCourse (.loop keyword cond body) σ p := by
  cases h with
  | due => exact .due hcond hv
  | stops course standing => exact .stops hcond hv course standing
  | goes course standing next => exact .again hcond hv course standing next

mutual

theorem StmtCourse.printed_suffix : ∀ {s : Stmt} {σ : Store} {p : Point}, StmtCourse s σ p →
    σ.printed <:+ p.store.printed
  | _, _, _, .raise _ _ => List.suffix_rfl
  | _, _, _, .create _ => List.suffix_rfl
  | _, _, _, .assign _ => List.suffix_rfl
  | _, _, _, .print _ => List.suffix_cons _ _
  | _, _, _, .yes _ _ course => BlockCourse.printed_suffix course
  | _, _, _, .no _ _ course => BlockCourse.printed_suffix course
  | _, _, _, .leave _ _ => List.suffix_rfl
  | _, _, _, .due _ _ => List.suffix_rfl
  | _, _, _, .stops _ _ course _ => by
    have hbody := BlockCourse.printed_suffix course
    exact hbody
  | _, _, _, .again _ _ course _ next => by
    have hnext := StmtCourse.printed_suffix next
    exact (BlockCourse.printed_suffix course).trans hnext
  | _, _, _, .hole => List.suffix_rfl

theorem BlockCourse.printed_suffix : ∀ {ss : List Stmt} {σ : Store} {p : Point}, BlockCourse ss σ p →
    σ.printed <:+ p.store.printed
  | _, _, _, .nil => List.suffix_rfl
  | _, _, _, .due => List.suffix_rfl
  | _, _, _, .stops course _ => by
    have hfirst := StmtCourse.printed_suffix course
    exact hfirst
  | _, _, _, .goes course _ next => by
    have hnext := BlockCourse.printed_suffix next
    exact (StmtCourse.printed_suffix course).trans hnext

end

namespace Point

/-- The course is due at the first point and has started more and printed no less at the second. -/
structure Before (p q : Point) : Prop where
  due : p.standing = .due
  started : p.started < q.started
  printed : p.store.printed <:+ q.store.printed

/-- Two points of one course: they are the same, or one comes before the other. -/
def OnOneCourse (p q : Point) : Prop :=
  p = q ∨ p.Before q ∨ q.Before p

theorem OnOneCourse.symm {p q : Point} (h : p.OnOneCourse q) : q.OnOneCourse p := by
  rcases h with h | h | h
  · exact .inl h.symm
  · exact .inr (.inr h)
  · exact .inr (.inl h)

theorem Before.later {p q : Point} (h : p.Before q) (n : Nat) : (p.later n).Before (q.later n) :=
  ⟨h.due, Nat.add_lt_add_left h.started n, h.printed⟩

theorem OnOneCourse.later {p q : Point} (h : p.OnOneCourse q) (n : Nat) : (p.later n).OnOneCourse (q.later n) := by
  rcases h with rfl | h | h
  · exact .inl rfl
  · exact .inr (.inl (h.later n))
  · exact .inr (.inr (h.later n))

theorem OnOneCourse.eq_of_ended {p q : Point} (h : p.OnOneCourse q) (hp : p.standing = .ended)
    (hq : q.standing = .ended) : p = q := by
  rcases h with h | h | h
  · exact h
  · cases hp.symm.trans h.due
  · cases hq.symm.trans h.due

/-- A point where the first part stops comes before every point behind the whole of it. -/
theorem OnOneCourse.stops {p q r : Point} (h : p.OnOneCourse q) (hp : p.standing ≠ .ended)
    (hq : q.standing = .ended) (hr : q.store.printed <:+ r.store.printed) :
    (p.later 1).OnOneCourse (r.later (1 + q.started)) := by
  rcases h with rfl | h | h
  · exact absurd hq hp
  · refine .inr (.inl ⟨h.due, ?_, h.printed.trans hr⟩)
    have hlt := h.started
    change 1 + p.started < 1 + q.started + r.started
    omega
  · cases hq.symm.trans h.due

theorem onOneCourse_due {σ : Store} {q : Point} {n : Nat} (hn : 0 < n) (hq : σ.printed <:+ q.store.printed) :
    OnOneCourse ⟨0, σ, .due⟩ (q.later n) :=
  .inr (.inl ⟨rfl, Nat.lt_add_right _ hn, hq⟩)

end Point

namespace StmtCourse

theorem of_error {s : Stmt} {x : Expr} {σ : Store} {e : RunError} {q : Point} (hs : s.subject? = some x)
    (hx : x.eval σ.env = .error e) (h : StmtCourse s σ q) : q = ⟨0, σ, .failed e⟩ := by
  cases h with
  | raise subject value =>
    cases hs.symm.trans subject
    cases hx.symm.trans value
    rfl
  | hole => cases hs
  | _ value =>
    cases hs
    cases hx.symm.trans value

theorem of_create {name : Token} {x : Expr} {σ : Store} {v : Value} {q : Point} (hx : x.eval σ.env = .ok v)
    (h : StmtCourse (.create name x) σ q) : q = ⟨0, σ.assign name.lexeme v, .ended⟩ := by
  cases h with
  | raise subject value =>
    cases subject
    cases hx.symm.trans value
  | create value =>
    cases hx.symm.trans value
    rfl

theorem of_assign {name : Token} {x : Expr} {σ : Store} {v : Value} {q : Point} (hx : x.eval σ.env = .ok v)
    (h : StmtCourse (.assign name x) σ q) : q = ⟨0, σ.assign name.lexeme v, .ended⟩ := by
  cases h with
  | raise subject value =>
    cases subject
    cases hx.symm.trans value
  | assign value =>
    cases hx.symm.trans value
    rfl

theorem of_print {keyword : Token} {x : Expr} {σ : Store} {v : Value} {q : Point} (hx : x.eval σ.env = .ok v)
    (h : StmtCourse (.print keyword x) σ q) : q = ⟨0, σ.print v, .ended⟩ := by
  cases h with
  | raise subject value =>
    cases subject
    cases hx.symm.trans value
  | print value =>
    cases hx.symm.trans value
    rfl

theorem of_branch {keyword : Token} {cond : Expr} {yes : List Stmt} {no : Option (List Stmt)} {σ : Store} {v : Value}
    {q : Point} (hcond : cond.eval σ.env = .ok v) (h : StmtCourse (.branch keyword cond yes no) σ q) :
    BlockCourse (if v.truthy then yes else no.getD []) σ q := by
  cases h with
  | raise subject value =>
    cases subject
    cases hcond.symm.trans value
  | yes value truthy course =>
    cases hcond.symm.trans value
    rwa [if_pos truthy]
  | no value truthy course =>
    cases hcond.symm.trans value
    rwa [if_neg (by simp [truthy])]

theorem of_leave {keyword : Token} {cond : Expr} {body : List Stmt} {σ : Store} {v : Value} {q : Point}
    (hcond : cond.eval σ.env = .ok v) (hv : v.truthy = false) (h : StmtCourse (.loop keyword cond body) σ q) :
    q = ⟨0, σ, .ended⟩ := by
  cases h with
  | raise subject value =>
    cases subject
    cases hcond.symm.trans value
  | leave value truthy => rfl
  | due value truthy | stops value truthy | again value truthy =>
    cases hcond.symm.trans value
    cases hv.symm.trans truthy

theorem turn {keyword : Token} {cond : Expr} {body : List Stmt} {σ : Store} {v : Value} {q : Point}
    (hcond : cond.eval σ.env = .ok v) (hv : v.truthy = true) (h : StmtCourse (.loop keyword cond body) σ q) :
    Turn (BlockCourse body) (StmtCourse (.loop keyword cond body)) σ q := by
  cases h with
  | raise subject value =>
    cases subject
    cases hcond.symm.trans value
  | leave value truthy =>
    cases hcond.symm.trans value
    cases hv.symm.trans truthy
  | due value truthy => exact .due
  | stops value truthy course standing => exact .stops course standing
  | again value truthy course standing next => exact .goes course standing next

end StmtCourse

open Point

mutual

theorem StmtCourse.onOneCourse : ∀ {s : Stmt} {σ : Store} {p q : Point}, StmtCourse s σ p → StmtCourse s σ q →
    p.OnOneCourse q
  | _, _, _, _, .raise subject value, h => .inl (h.of_error subject value).symm
  | _, _, _, _, .create value, h => .inl (h.of_create value).symm
  | _, _, _, _, .assign value, h => .inl (h.of_assign value).symm
  | _, _, _, _, .print value, h => .inl (h.of_print value).symm
  | _, _, _, _, .yes value truthy course, h => by
    have hq := h.of_branch value
    rw [if_pos truthy] at hq
    exact BlockCourse.onOneCourse course hq
  | _, _, _, _, .no value truthy course, h => by
    have hq := h.of_branch value
    rw [if_neg (by simp [truthy])] at hq
    exact BlockCourse.onOneCourse course hq
  | _, _, _, _, .leave value truthy, h => .inl (h.of_leave value truthy).symm
  | _, _, _, _, .due value truthy, h => by
    cases h.turn value truthy with
    | due => exact .inl rfl
    | stops course _ => exact onOneCourse_due Nat.one_pos course.printed_suffix
    | goes course _ next => exact onOneCourse_due (by omega) (course.printed_suffix.trans next.printed_suffix)
  | _, _, _, _, .stops value truthy course standing, h => by
    cases h.turn value truthy with
    | due => exact (onOneCourse_due Nat.one_pos course.printed_suffix).symm
    | stops course' _ => exact (BlockCourse.onOneCourse course course').later 1
    | goes course' ended next' =>
      exact (BlockCourse.onOneCourse course course').stops standing ended next'.printed_suffix
  | _, _, _, _, .again value truthy course ended next, h => by
    cases h.turn value truthy with
    | due => exact (onOneCourse_due (by omega) (course.printed_suffix.trans next.printed_suffix)).symm
    | stops course' standing =>
      exact ((BlockCourse.onOneCourse course course').symm.stops standing ended next.printed_suffix).symm
    | goes course' ended' next' =>
      cases (BlockCourse.onOneCourse course course').eq_of_ended ended ended'
      exact (StmtCourse.onOneCourse next next').later _
  | _, _, _, _, .hole, h => by
    cases h with
    | raise subject value => cases subject
    | hole => exact .inl rfl

theorem BlockCourse.onOneCourse : ∀ {ss : List Stmt} {σ : Store} {p q : Point}, BlockCourse ss σ p →
    BlockCourse ss σ q → p.OnOneCourse q
  | _, _, _, _, .nil, h => by
    cases h
    exact .inl rfl
  | _, _, _, _, .due, h => by
    cases h with
    | due => exact .inl rfl
    | stops course _ => exact onOneCourse_due Nat.one_pos course.printed_suffix
    | goes course _ next =>
      exact onOneCourse_due (by omega) (course.printed_suffix.trans next.printed_suffix)
  | _, _, _, _, .stops course standing, h => by
    cases h with
    | due => exact (onOneCourse_due Nat.one_pos course.printed_suffix).symm
    | stops course' _ => exact (StmtCourse.onOneCourse course course').later 1
    | goes course' ended next' =>
      exact (StmtCourse.onOneCourse course course').stops standing ended next'.printed_suffix
  | _, _, _, _, .goes course ended next, h => by
    cases h with
    | due =>
      exact (onOneCourse_due (by omega) (course.printed_suffix.trans next.printed_suffix)).symm
    | stops course' standing =>
      exact ((StmtCourse.onOneCourse course course').symm.stops standing ended next.printed_suffix).symm
    | goes course' ended' next' =>
      cases (StmtCourse.onOneCourse course course').eq_of_ended ended ended'
      exact (BlockCourse.onOneCourse next next').later _

end

/-- Any two points of a program from one store lie on one course. -/
theorem ProgramCourse.onOneCourse {program : Program} {σ : Store} {p q : Point} (hp : ProgramCourse program σ p)
    (hq : ProgramCourse program σ q) : p.OnOneCourse q := by
  cases hp with
  | refused refusal =>
    cases hq with
    | refused refusal' =>
      cases refusal.symm.trans refusal'
      exact .inl rfl
    | accepted refusal' _ => cases refusal.symm.trans refusal'
  | accepted refusal course =>
    cases hq with
    | refused refusal' => cases refusal.symm.trans refusal'
    | accepted _ course' => exact course.onOneCourse course'

end EnglishScript
