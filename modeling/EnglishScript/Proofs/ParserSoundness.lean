import EnglishScript.Tree.Parser
import EnglishScript.Proofs.Grammar

namespace EnglishScript

open Grammar

/-- A relation between what was read and the state that one step keeps is kept by every run. -/
theorem foldlM_read {σ : Type} {step : σ → Token → Except ParseError σ} {Read : List Token → σ → Prop}
    (hstep : ∀ {ts s s' t}, Read ts s → step s t = .ok s' → Read (ts ++ [t]) s') {us : List Token} :
    ∀ {ts : List Token} {s s' : σ}, Read ts s → us.foldlM step s = .ok s' → Read (ts ++ us) s' := by
  induction us with
  | nil =>
    intro ts s s' hr h
    cases Except.ok.inj h
    simpa using hr
  | cons t rest ih =>
    intro ts s s' hr h
    rw [List.foldlM_cons] at h
    cases hnext : step s t with
    | error e => rw [hnext] at h; cases h
    | ok next =>
      rw [hnext] at h
      simpa using ih (hstep hr hnext) h

/-- The tokens of pending operations: each left operand is derived at the rank of its operator, which is tighter than
the ones before it. -/
inductive PendingRead : List Token → List Pending → Prop
  | nil : PendingRead [] []
  | cons {ts us : List Token} {p : Pending} {rest : List Pending} (before : PendingRead ts rest)
    (left : Expression (Rank.ofLevel p.level) us p.left) (operator : Level.ofKind? p.op.kind = some p.level)
    (tighter : ∀ q ∈ rest.head?, q.level.rank < p.level.rank) : PendingRead (ts ++ (us ++ [p.op])) (p :: rest)

/-- The tokens before and at each open parenthesis. -/
inductive OuterRead : List Token → List (List Pending) → Prop
  | nil : OuterRead [] []
  | cons {ts us : List Token} {l : Token} {pending : List Pending} {outer : List (List Pending)}
    (before : OuterRead ts outer) (inside : PendingRead us pending) (opening : l.kind = .lparen) :
    OuterRead (ts ++ (us ++ [l])) (pending :: outer)

/-- The tokens that a draft has read. -/
def DraftRead (ts : List Token) : Draft → Prop
  | .wantsOperand pending outer => ∃ us vs, ts = us ++ vs ∧ OuterRead us outer ∧ PendingRead vs pending
  | .hasOperand x pending outer =>
    ∃ us vs ws, ts = us ++ (vs ++ ws) ∧ OuterRead us outer ∧ PendingRead vs pending ∧ Expression .primary ws x

theorem Pending.close_derived {p : Pending} {us ws : List Token} {x : Expr} {rank : Rank}
    (left : Expression (Rank.ofLevel p.level) us p.left) (operator : Level.ofKind? p.op.kind = some p.level)
    (right : Expression rank ws x) (tighter : p.level.rank < rank.depth) :
    Expression (Rank.ofLevel p.level) (us ++ p.op :: ws) (p.close x) := by
  have hd := Rank.depth_operand (Rank.ofLevel p.level) (by have := rank.depth_le_four; simp; omega)
  have hright : Expression (Rank.ofLevel p.level).operand ws x := right.loosen (by rw [hd, Rank.depth_ofLevel]; exact tighter)
  have hop : p.op.kind ∈ (Rank.ofLevel p.level).operators := Rank.mem_operators_iff.mpr ⟨p.level, operator, rfl⟩
  simpa [Pending.close] using Expression.operation left hop hright

theorem Pending.closeAll_derived {vs : List Token} {pending : List Pending} (h : PendingRead vs pending) :
    ∀ {rank : Rank} {ws : List Token} {x : Expr}, Expression rank ws x →
      (∀ p ∈ pending.head?, p.level.rank < rank.depth) →
      Expression .logical (vs ++ ws) (Pending.closeAll pending x) := by
  induction h with
  | nil =>
    intro rank ws x hx _
    exact hx.loosen (Nat.zero_le _)
  | @cons ts us p rest before left operator tighter ih =>
    intro rank ws x hx hp
    have hclose := Pending.close_derived left operator hx (hp p rfl)
    have hall := ih hclose (by simpa using tighter)
    simpa [Pending.closeAll] using hall

/-- Closing up to a level splits what was read into the operations that stay open and one operand of that level. -/
theorem Pending.closeTo_derived (level : Level) {vs : List Token} {pending : List Pending} (h : PendingRead vs pending) :
    ∀ {rank : Rank} {ws : List Token} {x : Expr}, Expression rank ws x → level.rank ≤ rank.depth →
      (∀ p ∈ pending.head?, p.level.rank < rank.depth) →
      ∃ vs' ws', vs ++ ws = vs' ++ ws' ∧ PendingRead vs' (Pending.closeTo level pending x).1 ∧
        Expression (Rank.ofLevel level) ws' (Pending.closeTo level pending x).2 ∧
        ∀ p ∈ (Pending.closeTo level pending x).1.head?, p.level.rank < level.rank := by
  induction h with
  | nil =>
    intro rank ws x hx hl _
    exact ⟨[], ws, rfl, .nil, hx.loosen (by simpa using hl), by simp [Pending.closeTo]⟩
  | @cons ts us p rest before left operator tighter ih =>
    intro rank ws x hx hl hp
    by_cases hle : level.rank ≤ p.level.rank
    · have hclose := Pending.close_derived left operator hx (hp p rfl)
      obtain ⟨vs', ws', hsplit, hread, hexpr, hhead⟩ := ih hclose (by simpa using hle) (by simpa using tighter)
      refine ⟨vs', ws', by simpa using hsplit, ?_⟩
      simpa [Pending.closeTo, hle] using ⟨hread, hexpr, hhead⟩
    · refine ⟨ts ++ (us ++ [p.op]), ws, rfl, ?_⟩
      have hlt : p.level.rank < level.rank := by omega
      simp only [Pending.closeTo, hle, ↓reduceIte]
      exact ⟨.cons before left operator tighter, hx.loosen (by simpa using hl), by simpa using hlt⟩

theorem Draft.readOperand_read {pending : List Pending} {outer : List (List Pending)} {t : Token} {d : Draft}
    {us vs : List Token} (hu : OuterRead us outer) (hv : PendingRead vs pending)
    (h : Draft.readOperand pending outer t = .ok d) : DraftRead (us ++ vs ++ [t]) d := by
  unfold Draft.readOperand at h
  split at h
  next hk =>
    split at h
    next value hvalue =>
      cases Except.ok.inj h
      exact ⟨us, vs, [t], by simp, hu, hv, .number hk hvalue⟩
    next => cases h
  next hk =>
    cases Except.ok.inj h
    exact ⟨us, vs, [t], by simp, hu, hv, .string hk⟩
  next hk =>
    cases Except.ok.inj h
    exact ⟨us, vs, [t], by simp, hu, hv, .var hk⟩
  next hk =>
    cases Except.ok.inj h
    exact ⟨us ++ (vs ++ [t]), [], by simp, .cons hu hv hk, .nil⟩
  next => cases h

theorem Draft.readOperator_read {x : Expr} {pending : List Pending} {outer : List (List Pending)} {t : Token} {d : Draft}
    {us vs ws : List Token} (hu : OuterRead us outer) (hv : PendingRead vs pending) (hx : Expression .primary ws x)
    (h : Draft.readOperator x pending outer t = .ok d) : DraftRead (us ++ (vs ++ ws) ++ [t]) d := by
  have below : ∀ p ∈ pending.head?, p.level.rank < Rank.primary.depth := by
    intro p _
    cases p.level <;> decide
  unfold Draft.readOperator at h
  split at h
  next level hlevel =>
    cases Except.ok.inj h
    have hbound : level.rank ≤ Rank.primary.depth := by cases level <;> decide
    obtain ⟨vs', ws', hsplit, hread, hexpr, hhead⟩ := Pending.closeTo_derived level hv hx hbound below
    let next : Pending := ⟨(Pending.closeTo level pending x).2, t, level⟩
    have hnext : PendingRead (vs' ++ (ws' ++ [next.op])) (next :: (Pending.closeTo level pending x).1) :=
      .cons hread hexpr hlevel hhead
    exact ⟨us, vs' ++ (ws' ++ [t]), by simp [hsplit], hu, hnext⟩
  next hlevel =>
    cases hu with
    | nil => cases h
    | @cons ts ps l around outer before inside opening =>
      simp only at h
      split at h
      next hk =>
        cases Except.ok.inj h
        have hall := Pending.closeAll_derived hv hx below
        exact ⟨ts, ps, l :: (vs ++ ws ++ [t]), by simp, before, inside, .group opening hall hk⟩
      next => cases h

/-- One more token of an expression. -/
theorem Draft.step_read {ts : List Token} {d d' : Draft} {t : Token} (hr : DraftRead ts d) (h : d.step t = .ok d') :
    DraftRead (ts ++ [t]) d' := by
  cases d with
  | wantsOperand pending outer =>
    obtain ⟨us, vs, rfl, hu, hv⟩ := hr
    exact Draft.readOperand_read hu hv h
  | hasOperand x pending outer =>
    obtain ⟨us, vs, ws, rfl, hu, hv, hx⟩ := hr
    exact Draft.readOperator_read hu hv hx h

theorem Draft.finished_derived {ts : List Token} {d : Draft} {t : Token} {e : Expr} (hr : DraftRead ts d)
    (h : d.finished? t = some e) : Expression .logical ts e := by
  unfold Draft.finished? at h
  split at h
  next x pending t =>
    split at h
    next =>
      cases Option.some.inj h
      obtain ⟨us, vs, ws, rfl, hu, hv, hx⟩ := hr
      cases hu
      exact Pending.closeAll_derived hv hx (by intro p _; cases p.level <;> decide)
    next => cases h
  next => cases h

/-- The tokens in front of the expression that a goal waits for. -/
def GoalRead (ts : List Token) : Goal → Prop
  | .create name => ∀ es e, Expression .logical es e → Statement (ts ++ es) (.create name e)
  | .assign name => ∀ es e, Expression .logical es e → Statement (ts ++ es) (.assign name e)
  | .print keyword => ∀ es e, Expression .logical es e → Statement (ts ++ es) (.print keyword e)
  | .branch keyword => ts = [keyword] ∧ keyword.kind = .if
  | .loop keyword => ts = [keyword] ∧ keyword.kind = .while

/-- The tokens of the statement in progress. -/
def ProgressRead (ts : List Token) : Progress → Prop
  | .between => ts = []
  | .createVariable => ∃ c, ts = [c] ∧ c.kind = .create
  | .createName => ∃ c v, ts = [c, v] ∧ c.kind = .create ∧ v.kind = .variable
  | .createWith name =>
    ∃ c v, ts = [c, v, name] ∧ c.kind = .create ∧ v.kind = .variable ∧ name.kind = .identifier
  | .createValue name =>
    ∃ c v w, ts = [c, v, name, w] ∧ c.kind = .create ∧ v.kind = .variable ∧ name.kind = .identifier ∧ w.kind = .with
  | .assignName => ∃ s, ts = [s] ∧ s.kind = .set
  | .assignTo name => ∃ s, ts = [s, name] ∧ s.kind = .set ∧ name.kind = .identifier
  | .reading goal draft => ∃ gs es, ts = gs ++ es ∧ GoalRead gs goal ∧ DraftRead es draft
  | .branchThen keyword cond => ∃ cs, ts = keyword :: cs ∧ keyword.kind = .if ∧ Expression .logical cs cond
  | .loopDo keyword cond => ∃ cs, ts = keyword :: cs ∧ keyword.kind = .while ∧ Expression .logical cs cond
  | .closing word done => ∀ t, t.kind = word → Statement (ts ++ [t]) done

/-- The statements before an open block. -/
def OpenBlock.before : OpenBlock → List Stmt
  | .yes before _ _ => before
  | .no before _ _ _ => before
  | .body before _ _ => before

/-- The tokens of an open block before its own statements. -/
def OpenBlock.HeadRead (ts : List Token) : OpenBlock → Prop
  | .yes _ keyword cond =>
    ∃ cs th, ts = keyword :: (cs ++ [th]) ∧ keyword.kind = .if ∧ Expression .logical cs cond ∧ th.kind = .then
  | .no _ keyword cond first =>
    ∃ cs th ys el, ts = keyword :: (cs ++ th :: (ys ++ [el])) ∧ keyword.kind = .if ∧ Expression .logical cs cond ∧
      th.kind = .then ∧ Block ys first ∧ el.kind = .else
  | .body _ keyword cond =>
    ∃ cs d, ts = keyword :: (cs ++ [d]) ∧ keyword.kind = .while ∧ Expression .logical cs cond ∧ d.kind = .do

/-- The tokens of the finished statements, in the innermost block and in the blocks around it. -/
def BlocksRead : List Token → List OpenBlock → List Stmt → Prop
  | ts, [], ss => Block ts ss.reverse
  | ts, b :: outer, ss =>
    ∃ us hs vs, ts = us ++ (hs ++ vs) ∧ BlocksRead us outer b.before ∧ b.HeadRead hs ∧ Block vs ss.reverse

/-- The tokens that a state has read. -/
def StateRead (ts : List Token) (s : ParseState) : Prop :=
  ∃ us vs, ts = us ++ vs ∧ BlocksRead us s.blocks s.statements ∧ ProgressRead vs s.progress

theorem BlocksRead.extend {us vs : List Token} {blocks : List OpenBlock} {ss more : List Stmt}
    (h : BlocksRead us blocks ss) (hm : Block vs more) : BlocksRead (us ++ vs) blocks (more.reverse ++ ss) := by
  cases blocks with
  | nil => simpa [BlocksRead] using Block.append h hm
  | cons b outer =>
    obtain ⟨ts, hs, ws, rfl, hbefore, hhead, hblock⟩ := h
    exact ⟨ts, hs, ws ++ vs, by simp, hbefore, hhead, by simpa using hblock.append hm⟩

theorem ParseState.add_read {s : ParseState} {stmt : Stmt} {us vs : List Token}
    (hb : BlocksRead us s.blocks s.statements) (hs : Statement vs stmt) : StateRead (us ++ vs) (s.add stmt) := by
  have single : Block vs [stmt] := by simpa using Block.statement hs .nil
  exact ⟨us ++ vs, [], by simp, by simpa [ParseState.add] using hb.extend single, rfl⟩

theorem ParseState.goOn_read {s : ParseState} {progress : Progress} {us vs : List Token}
    (hb : BlocksRead us s.blocks s.statements) (hp : ProgressRead vs progress) :
    StateRead (us ++ vs) (s.goOn progress) :=
  ⟨us, vs, rfl, hb, hp⟩

theorem ParseState.attain_read {s : ParseState} {goal : Goal} {e : Expr} {us gs es : List Token}
    (hb : BlocksRead us s.blocks s.statements) (hg : GoalRead gs goal) (he : Expression .logical es e) :
    StateRead (us ++ (gs ++ es)) (s.attain goal e) := by
  cases goal with
  | create name => exact ParseState.add_read hb (hg es e he)
  | assign name => exact ParseState.add_read hb (hg es e he)
  | print keyword => exact ParseState.add_read hb (hg es e he)
  | branch keyword =>
    obtain ⟨rfl, hk⟩ := hg
    exact ParseState.goOn_read hb ⟨es, rfl, hk, he⟩
  | loop keyword =>
    obtain ⟨rfl, hk⟩ := hg
    exact ParseState.goOn_read hb ⟨es, rfl, hk, he⟩

theorem ParseState.settle_read {ts : List Token} {s : ParseState} (t : Token) (hr : StateRead ts s) :
    StateRead ts (s.settle t) := by
  unfold ParseState.settle
  split
  next goal draft hprogress =>
    split
    next e he =>
      obtain ⟨us, vs, rfl, hb, hp⟩ := hr
      rw [hprogress] at hp
      obtain ⟨gs, es, rfl, hg, hd⟩ := hp
      exact ParseState.attain_read hb hg (Draft.finished_derived hd he)
    next => exact hr
  next => exact hr

theorem ParseState.require_ok {kind : Kind} {t : Token} {next s' : ParseState}
    (h : ParseState.require kind t next = .ok s') : t.kind = kind ∧ next = s' := by
  unfold ParseState.require at h
  split at h
  next hk => exact ⟨hk, Except.ok.inj h⟩
  next => cases h

theorem ParseState.close_read {s s' : ParseState} {t : Token} {us : List Token}
    (hb : BlocksRead us s.blocks s.statements) (ht : t.kind = .end) (h : s.close t = .ok s') :
    StateRead (us ++ [t]) s' := by
  unfold ParseState.close at h
  split at h
  next before keyword cond outer hblocks =>
    cases Except.ok.inj h
    rw [hblocks] at hb
    obtain ⟨ts, hs, vs, rfl, hbefore, ⟨cs, th, rfl, hk, hc, hth⟩, hblock⟩ := hb
    refine ⟨ts, keyword :: (cs ++ th :: (vs ++ [t])), by simp, hbefore, ?_⟩
    intro f hf
    simpa using Statement.branch hk hc hth hblock ht hf
  next before keyword cond yes outer hblocks =>
    cases Except.ok.inj h
    rw [hblocks] at hb
    obtain ⟨ts, hs, vs, rfl, hbefore, ⟨cs, th, ys, el, rfl, hk, hc, hth, hyes, hel⟩, hblock⟩ := hb
    refine ⟨ts, keyword :: (cs ++ th :: (ys ++ el :: (vs ++ [t]))), by simp, hbefore, ?_⟩
    intro f hf
    simpa using Statement.branchElse hk hc hth hyes hel hblock ht hf
  next before keyword cond outer hblocks =>
    cases Except.ok.inj h
    rw [hblocks] at hb
    obtain ⟨ts, hs, vs, rfl, hbefore, ⟨cs, d, rfl, hk, hc, hd⟩, hblock⟩ := hb
    refine ⟨ts, keyword :: (cs ++ d :: (vs ++ [t])), by simp, hbefore, ?_⟩
    intro w hw
    simpa using Statement.loop hk hc hd hblock ht hw
  next => cases h

theorem ParseState.turn_read {s s' : ParseState} {t : Token} {us : List Token}
    (hb : BlocksRead us s.blocks s.statements) (ht : t.kind = .else) (h : s.turn t = .ok s') :
    StateRead (us ++ [t]) s' := by
  unfold ParseState.turn at h
  split at h
  next before keyword cond outer hblocks =>
    cases Except.ok.inj h
    rw [hblocks] at hb
    obtain ⟨ts, hs, vs, rfl, hbefore, ⟨cs, th, rfl, hk, hc, hth⟩, hblock⟩ := hb
    refine ⟨ts ++ (keyword :: (cs ++ th :: (vs ++ [t]))), [], by simp, ?_, rfl⟩
    exact ⟨ts, keyword :: (cs ++ th :: (vs ++ [t])), [], by simp, hbefore,
      ⟨cs, th, vs, t, rfl, hk, hc, hth, hblock, ht⟩, .nil⟩
  next => cases h

theorem ParseState.begin_read {s s' : ParseState} {t : Token} {us : List Token}
    (hb : BlocksRead us s.blocks s.statements) (hp : s.progress = .between) (h : s.begin t = .ok s') :
    StateRead (us ++ [t]) s' := by
  have empty : DraftRead [] .empty := ⟨[], [], rfl, .nil, .nil⟩
  unfold ParseState.begin at h
  split at h
  next hk =>
    cases Except.ok.inj h
    have line : Block [t] [] := .newline hk .nil
    exact ⟨us ++ [t], [], by simp, by simpa using hb.extend line, by rw [hp]; rfl⟩
  next hk =>
    cases Except.ok.inj h
    exact ParseState.goOn_read hb ⟨t, rfl, hk⟩
  next hk =>
    cases Except.ok.inj h
    exact ParseState.goOn_read hb ⟨t, rfl, hk⟩
  next hk =>
    cases Except.ok.inj h
    have goal : GoalRead [t] (.print t) := fun es e he => .print hk he
    exact ParseState.goOn_read hb ⟨[t], [], rfl, goal, empty⟩
  next hk =>
    cases Except.ok.inj h
    exact ParseState.goOn_read hb ⟨[t], [], rfl, ⟨rfl, hk⟩, empty⟩
  next hk =>
    cases Except.ok.inj h
    exact ParseState.goOn_read hb ⟨[t], [], rfl, ⟨rfl, hk⟩, empty⟩
  next hk => exact ParseState.close_read hb hk h
  next hk => exact ParseState.turn_read hb hk h
  next => cases h

theorem ParseState.consume_read {ts : List Token} {s s' : ParseState} {t : Token} (hr : StateRead ts s)
    (h : s.consume t = .ok s') : StateRead (ts ++ [t]) s' := by
  obtain ⟨us, vs, rfl, hb, hp⟩ := hr
  have empty : DraftRead [] .empty := ⟨[], [], rfl, .nil, .nil⟩
  unfold ParseState.consume at h
  rw [List.append_assoc]
  split at h
  next hprogress =>
    rw [hprogress] at hp
    subst hp
    exact ParseState.begin_read hb hprogress h
  next hprogress =>
    rw [hprogress] at hp
    obtain ⟨c, rfl, hc⟩ := hp
    obtain ⟨hk, rfl⟩ := ParseState.require_ok h
    exact ParseState.goOn_read hb ⟨c, t, rfl, hc, hk⟩
  next hprogress =>
    rw [hprogress] at hp
    obtain ⟨c, v, rfl, hc, hv⟩ := hp
    obtain ⟨hk, rfl⟩ := ParseState.require_ok h
    exact ParseState.goOn_read hb ⟨c, v, rfl, hc, hv, hk⟩
  next name hprogress =>
    rw [hprogress] at hp
    obtain ⟨c, v, rfl, hc, hv, hn⟩ := hp
    obtain ⟨hk, rfl⟩ := ParseState.require_ok h
    exact ParseState.goOn_read hb ⟨c, v, t, rfl, hc, hv, hn, hk⟩
  next name hprogress =>
    rw [hprogress] at hp
    obtain ⟨c, v, w, rfl, hc, hv, hn, hw⟩ := hp
    obtain ⟨hk, rfl⟩ := ParseState.require_ok h
    have goal : GoalRead [c, v, name, w, t] (.create name) := fun es e he => .create hc hv hn hw hk he
    exact ParseState.goOn_read hb ⟨[c, v, name, w, t], [], rfl, goal, empty⟩
  next hprogress =>
    rw [hprogress] at hp
    obtain ⟨a, rfl, ha⟩ := hp
    obtain ⟨hk, rfl⟩ := ParseState.require_ok h
    exact ParseState.goOn_read hb ⟨a, rfl, ha, hk⟩
  next name hprogress =>
    rw [hprogress] at hp
    obtain ⟨a, rfl, ha, hn⟩ := hp
    obtain ⟨hk, rfl⟩ := ParseState.require_ok h
    have goal : GoalRead [a, name, t] (.assign name) := fun es e he => .assign ha hn hk he
    exact ParseState.goOn_read hb ⟨[a, name, t], [], rfl, goal, empty⟩
  next goal draft hprogress =>
    rw [hprogress] at hp
    obtain ⟨gs, es, rfl, hg, hd⟩ := hp
    cases hstep : draft.step t with
    | error e => rw [hstep] at h; cases h
    | ok d =>
      rw [hstep] at h
      cases Except.ok.inj h
      exact ParseState.goOn_read hb ⟨gs, es ++ [t], by simp, hg, Draft.step_read hd hstep⟩
  next keyword cond hprogress =>
    rw [hprogress] at hp
    obtain ⟨cs, rfl, hk, hc⟩ := hp
    obtain ⟨ht, rfl⟩ := ParseState.require_ok h
    refine ⟨us ++ (keyword :: (cs ++ [t])), [], by simp, ?_, rfl⟩
    exact ⟨us, keyword :: (cs ++ [t]), [], by simp, hb, ⟨cs, t, rfl, hk, hc, ht⟩, .nil⟩
  next keyword cond hprogress =>
    rw [hprogress] at hp
    obtain ⟨cs, rfl, hk, hc⟩ := hp
    obtain ⟨ht, rfl⟩ := ParseState.require_ok h
    refine ⟨us ++ (keyword :: (cs ++ [t])), [], by simp, ?_, rfl⟩
    exact ⟨us, keyword :: (cs ++ [t]), [], by simp, hb, ⟨cs, t, rfl, hk, hc, ht⟩, .nil⟩
  next word done hprogress =>
    rw [hprogress] at hp
    obtain ⟨hk, rfl⟩ := ParseState.require_ok h
    exact ParseState.add_read hb (hp t hk)

theorem ParseState.step_read {ts : List Token} {s s' : ParseState} {t : Token} (hr : StateRead ts s)
    (h : s.step t = .ok s') : StateRead (ts ++ [t]) s' :=
  ParseState.consume_read (ParseState.settle_read t hr) h

theorem ParseState.finish_derived {ts : List Token} {s : ParseState} {t : Token} {p : EnglishScript.Program}
    (hr : StateRead ts s) (h : s.finish t = .ok p) : Grammar.Program ts p := by
  obtain ⟨us, vs, rfl, hb, hp⟩ := ParseState.settle_read t hr
  unfold ParseState.finish at h
  simp only at h
  split at h
  next hprogress hblocks =>
    cases Except.ok.inj h
    rw [hprogress] at hp
    rw [hblocks] at hb
    subst hp
    rw [List.append_nil]
    exact hb
  next => cases h
  next => cases hc : (s.settle t).consume t <;> rw [hc] at h <;> cases h

/-- What the parser accepts as a program is derived as one, with the same tree. -/
theorem parseProgram_derived {tokens : List Token} {p : EnglishScript.Program} (h : parseProgram tokens = .ok p) :
    Grammar.Program (bodyTokens tokens) p := by
  unfold parseProgram at h
  cases hrun : (bodyTokens tokens).foldlM ParseState.step .initial with
  | error e => rw [hrun] at h; cases h
  | ok s =>
    rw [hrun] at h
    have start : StateRead [] .initial := ⟨[], [], rfl, .nil, rfl⟩
    exact ParseState.finish_derived (by simpa using foldlM_read ParseState.step_read start hrun) h

/-- The tokens that the reader of one whole expression has read. -/
def WholeRead (ts : List Token) : WholeExpr → Prop
  | .reading draft => DraftRead ts draft
  | .complete e => Whole ts e

theorem WholeExpr.settle_read {ts : List Token} {w : WholeExpr} (t : Token) (hr : WholeRead ts w) :
    WholeRead ts (w.settle t) := by
  unfold WholeExpr.settle
  split
  next draft =>
    split
    next e he => exact ⟨ts, [], by simp, Draft.finished_derived hr he, by simp⟩
    next => exact hr
  next => exact hr

theorem WholeExpr.step_read {ts : List Token} {w w' : WholeExpr} {t : Token} (hr : WholeRead ts w)
    (h : w.step t = .ok w') : WholeRead (ts ++ [t]) w' := by
  have hsettled := WholeExpr.settle_read t hr
  unfold WholeExpr.step at h
  split at h
  next draft hw =>
    rw [hw] at hsettled
    cases hstep : draft.step t with
    | error e => rw [hstep] at h; cases h
    | ok d =>
      rw [hstep] at h
      cases Except.ok.inj h
      exact Draft.step_read hsettled hstep
  next e hw =>
    rw [hw] at hsettled
    split at h
    next hk =>
      cases Except.ok.inj h
      obtain ⟨us, ns, rfl, he, hn⟩ := hsettled
      refine ⟨us, ns ++ [t], by simp, he, ?_⟩
      intro n hm
      rcases List.mem_append.mp hm with hm | hm
      · exact hn n hm
      · rw [List.mem_singleton.mp hm]; exact hk
    next => cases h

/-- What the parser accepts as one expression is derived as one, with the same tree. -/
theorem parseExpr_derived {tokens : List Token} {e : Expr} (h : parseExpr tokens = .ok e) :
    Whole (bodyTokens tokens) e := by
  unfold parseExpr at h
  cases hrun : (bodyTokens tokens).foldlM WholeExpr.step (.reading .empty) with
  | error e => rw [hrun] at h; cases h
  | ok w =>
    rw [hrun] at h
    have start : WholeRead [] (.reading .empty) := ⟨[], [], rfl, .nil, .nil⟩
    have hr : WholeRead (bodyTokens tokens) w := by simpa using foldlM_read WholeExpr.step_read start hrun
    have hsettled := WholeExpr.settle_read (endToken tokens) hr
    change w.finish (endToken tokens) = .ok e at h
    unfold WholeExpr.finish at h
    split at h
    next draft hw => cases hd : draft.step (endToken tokens) <;> rw [hd] at h <;> cases h
    next found hw =>
      rw [hw] at hsettled
      cases Except.ok.inj h
      exact hsettled

end EnglishScript
