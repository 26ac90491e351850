import EnglishScript.Proofs.ParserSoundness

namespace EnglishScript

open Grammar

theorem foldlM_cons_ok {σ : Type} {step : σ → Token → Except ParseError σ} {s s' : σ} {t : Token}
    (h : step s t = .ok s') (ts : List Token) : (t :: ts).foldlM step s = ts.foldlM step s' := by
  rw [List.foldlM_cons, h]
  rfl

theorem foldlM_append_ok {σ : Type} {step : σ → Token → Except ParseError σ} {s s' : σ} {ts : List Token}
    (h : ts.foldlM step s = .ok s') (us : List Token) : (ts ++ us).foldlM step s = us.foldlM step s' := by
  rw [List.foldlM_append, h]
  rfl

theorem Pending.closeTo_append (level : Level) (inner pending : List Pending) (x : Expr)
    (h : ∀ p ∈ inner, level.rank ≤ p.level.rank) :
    Pending.closeTo level (inner ++ pending) x = Pending.closeTo level pending (Pending.closeAll inner x) := by
  induction inner generalizing x with
  | nil => rfl
  | cons p rest ih =>
    have hp := h p (by simp)
    simp only [List.cons_append, Pending.closeTo, Pending.closeAll, hp, ↓reduceIte]
    exact ih (p.close x) (fun q hq => h q (by simp [hq]))

theorem Pending.closeTo_stop (level : Level) (pending : List Pending) (x : Expr)
    (h : ∀ p ∈ pending.head?, p.level.rank < level.rank) : Pending.closeTo level pending x = (pending, x) := by
  cases pending with
  | nil => rfl
  | cons p rest =>
    have hp := h p rfl
    simp only [Pending.closeTo, show ¬level.rank ≤ p.level.rank by omega, ↓reduceIte]

theorem Pending.closeAll_append (inner rest : List Pending) (x : Expr) :
    Pending.closeAll (inner ++ rest) x = Pending.closeAll rest (Pending.closeAll inner x) := by
  induction inner generalizing x with
  | nil => rfl
  | cons p inner ih => exact ih (p.close x)

/-- An operator closes the operations behind it that bind at least as tightly and waits for its right operand. -/
theorem Draft.step_operator {op : Token} {level : Level} (hlevel : Level.ofKind? op.kind = some level)
    {inner pending : List Pending} {x left : Expr} (hclose : Pending.closeAll inner x = left)
    (hinner : ∀ p ∈ inner, level.rank ≤ p.level.rank) (hpending : ∀ p ∈ pending.head?, p.level.rank < level.rank)
    (outer : List (List Pending)) :
    Draft.step (.hasOperand x (inner ++ pending) outer) op = .ok (.wantsOperand (⟨left, op, level⟩ :: pending) outer) := by
  have hto : Pending.closeTo level (inner ++ pending) x = (pending, left) := by
    rw [Pending.closeTo_append level inner pending x hinner, hclose, Pending.closeTo_stop level pending left hpending]
  simp [Draft.step, Draft.readOperator, hlevel, hto]

/-- The tokens are read where an operand of the rank is due, if what is pending binds more loosely. The operations left
pending are their own, and closing them gives the tree. -/
def Draft.Reads (rank : Rank) (ts : List Token) (e : Expr) : Prop :=
  ∀ (pending : List Pending) (outer : List (List Pending)), (∀ p ∈ pending.head?, p.level.rank < rank.depth) →
    ∃ x inner, ts.foldlM Draft.step (.wantsOperand pending outer) = .ok (.hasOperand x (inner ++ pending) outer) ∧
      Pending.closeAll inner x = e ∧ ∀ p ∈ inner, rank.depth ≤ p.level.rank

/-- An operator and its right operand are read behind the left operand. -/
theorem Draft.Reads.behind {rank : Rank} {us : List Token} {op : Token} {right : Expr}
    (hright : Draft.Reads rank.operand us right) (operator : op.kind ∈ rank.operators) {x left : Expr}
    {inner pending : List Pending} (hclose : Pending.closeAll inner x = left)
    (hinner : ∀ p ∈ inner, rank.depth ≤ p.level.rank) (hpending : ∀ p ∈ pending.head?, p.level.rank < rank.depth)
    (outer : List (List Pending)) :
    ∃ y own, (op :: us).foldlM Draft.step (.hasOperand x (inner ++ pending) outer) =
        .ok (.hasOperand y (own ++ pending) outer) ∧
      Pending.closeAll own y = .operation rank.form left op right ∧ ∀ p ∈ own, rank.depth ≤ p.level.rank := by
  obtain ⟨level, hlevel, rfl⟩ := Rank.mem_operators_iff.mp operator
  simp only [Rank.depth_ofLevel] at hinner hpending ⊢
  have hdepth := (Rank.ofLevel level).depth_operand (by cases level <;> decide)
  rw [Rank.depth_ofLevel] at hdepth
  let p : Pending := ⟨left, op, level⟩
  have hnext : ∀ q ∈ (p :: pending).head?, q.level.rank < (Rank.ofLevel level).operand.depth := by
    intro q hq
    cases Option.some.inj hq
    change level.rank < _
    omega
  obtain ⟨y, more, hrun, hclose', hmore⟩ := hright (p :: pending) outer hnext
  refine ⟨y, more ++ [p], ?_, ?_, ?_⟩
  · rw [foldlM_cons_ok (Draft.step_operator hlevel hclose hinner hpending outer)]
    simpa using hrun
  · rw [Pending.closeAll_append, hclose']
    simp [Pending.closeAll, Pending.close, p]
  · intro q hq
    rcases List.mem_append.mp hq with hq | hq
    · have := hmore q hq
      omega
    · exact List.mem_singleton.mp hq ▸ Nat.le_refl _

/-- The tokens of an expression are read where it is due. -/
theorem Grammar.Expression.read {rank : Rank} {ts : List Token} {e : Expr} (h : Expression rank ts e) :
    Draft.Reads rank ts e := by
  induction h with
  | @number t value kind read =>
    intro pending outer _
    refine ⟨.number t value, [], ?_, rfl, by simp⟩
    simp [Draft.step, Draft.readOperand, kind, read]
  | @string t kind =>
    intro pending outer _
    refine ⟨.string t t.lexeme, [], ?_, rfl, by simp⟩
    simp [Draft.step, Draft.readOperand, kind]
  | @var t kind =>
    intro pending outer _
    refine ⟨.var t, [], ?_, rfl, by simp⟩
    simp [Draft.step, Draft.readOperand, kind]
  | @group l r ts e opening inner closing ih =>
    intro pending outer _
    obtain ⟨x, own, hrun, hclose, _⟩ := ih [] (pending :: outer) (by simp)
    refine ⟨e, [], ?_, rfl, by simp⟩
    have hl : Draft.step (.wantsOperand pending outer) l = .ok (.wantsOperand [] (pending :: outer)) := by
      simp [Draft.step, Draft.readOperand, opening]
    have hr : Draft.step (.hasOperand x (own ++ []) (pending :: outer)) r = .ok (.hasOperand e pending outer) := by
      simp [Draft.step, Draft.readOperator, closing, Level.ofKind?, hclose]
    rw [foldlM_cons_ok hl, foldlM_append_ok hrun, foldlM_cons_ok hr]
    rfl
  | @operand rank ts e inner ih =>
    intro pending outer hp
    have hle : rank.depth ≤ rank.operand.depth := by cases rank <;> decide
    obtain ⟨x, own, hrun, hclose, hown⟩ := ih pending outer (fun p hm => Nat.lt_of_lt_of_le (hp p hm) hle)
    exact ⟨x, own, hrun, hclose, fun p hm => Nat.le_trans hle (hown p hm)⟩
  | @operation rank ts us op left right first operator second ihl ihr =>
    intro pending outer hp
    obtain ⟨x, own, hrun, hclose, hown⟩ := ihl pending outer hp
    obtain ⟨y, more, hrun', hclose', hmore⟩ := ihr.behind operator hclose hown hp outer
    exact ⟨y, more, by rw [foldlM_append_ok hrun, hrun'], hclose', hmore⟩

/-- A token that the draft can read does not finish it. -/
theorem Draft.finished_eq_none {d d' : Draft} {t : Token} (h : d.step t = .ok d') : d.finished? t = none := by
  unfold Draft.finished?
  split
  next x pending =>
    split
    next hnone =>
      have hlevel := Option.isNone_iff_eq_none.mp hnone
      simp [Draft.step, Draft.readOperator, hlevel] at h
    next => rfl
  next => rfl

/-- Every token but an operator finds the state settled as the given one. -/
def ParseState.Rests (s settled : ParseState) : Prop :=
  ∀ t : Token, Level.ofKind? t.kind = none → s.settle t = settled

theorem ParseState.rests_between (blocks : List OpenBlock) (ss : List Stmt) :
    ParseState.Rests ⟨blocks, ss, .between⟩ ⟨blocks, ss, .between⟩ :=
  fun _ _ => rfl

theorem ParseState.Rests.step_eq {s settled : ParseState} (h : s.Rests settled) {t : Token}
    (ht : Level.ofKind? t.kind = none) : s.step t = settled.consume t := by
  rw [ParseState.step, h t ht]

/-- A run of the draft is a run of every state that only moves its draft at each step. -/
theorem foldlM_simulates {σ : Type} {step : σ → Token → Except ParseError σ} {hold : Draft → σ}
    (hsim : ∀ {d next : Draft} {t : Token}, d.step t = .ok next → step (hold d) t = .ok (hold next)) {ts : List Token} :
    ∀ {d d' : Draft}, ts.foldlM Draft.step d = .ok d' → ts.foldlM step (hold d) = .ok (hold d') := by
  induction ts with
  | nil =>
    intro d d' h
    cases Except.ok.inj h
    rfl
  | cons t rest ih =>
    intro d d' h
    rw [List.foldlM_cons] at h
    cases hstep : d.step t with
    | error e => rw [hstep] at h; cases h
    | ok next =>
      rw [hstep] at h
      rw [foldlM_cons_ok (hsim hstep)]
      exact ih h

theorem ParseState.step_reading {blocks : List OpenBlock} {ss : List Stmt} {goal : Goal} {d next : Draft} {t : Token}
    (h : d.step t = .ok next) :
    ParseState.step ⟨blocks, ss, .reading goal d⟩ t = .ok ⟨blocks, ss, .reading goal next⟩ := by
  simp only [ParseState.step, ParseState.settle, Draft.finished_eq_none h, ParseState.consume, h]
  rfl

theorem ParseState.run_expression {ts : List Token} {e : Expr} (h : Expression .logical ts e)
    (blocks : List OpenBlock) (ss : List Stmt) (goal : Goal) :
    ∃ s', ts.foldlM ParseState.step ⟨blocks, ss, .reading goal .empty⟩ = .ok s' ∧
      s'.Rests (ParseState.attain ⟨blocks, ss, .between⟩ goal e) := by
  obtain ⟨x, inner, hrun, hclose, _⟩ := h.read [] [] (by simp)
  refine ⟨_, foldlM_simulates ParseState.step_reading hrun, ?_⟩
  intro t ht
  have hfinished : Draft.finished? (.hasOperand x (inner ++ []) []) t = some e := by
    simp [Draft.finished?, ht, hclose]
  simp only [ParseState.settle, hfinished]
  cases goal <;> rfl

theorem Grammar.Statement.head_no_operator {ts : List Token} {s : Stmt} (h : Statement ts s) :
    ∃ t rest, ts = t :: rest ∧ Level.ofKind? t.kind = none := by
  cases h with
  | create hc => exact ⟨_, _, rfl, by rw [hc]; rfl⟩
  | assign hs => exact ⟨_, _, rfl, by rw [hs]; rfl⟩
  | print hk => exact ⟨_, _, rfl, by rw [hk]; rfl⟩
  | branch hk => exact ⟨_, _, rfl, by rw [hk]; rfl⟩
  | branchElse hk => exact ⟨_, _, rfl, by rw [hk]; rfl⟩
  | loop hk => exact ⟨_, _, rfl, by rw [hk]; rfl⟩

theorem ParseState.Rests.run_statement {s settled : ParseState} (h : s.Rests settled) (hs : settled.Rests settled)
    {ts : List Token} {stmt : Stmt} (hstmt : Statement ts stmt) :
    ts.foldlM ParseState.step s = ts.foldlM ParseState.step settled := by
  obtain ⟨t, rest, rfl, ht⟩ := hstmt.head_no_operator
  rw [List.foldlM_cons, List.foldlM_cons, h.step_eq ht, hs.step_eq ht]

/-- The end of a block and the word behind it complete the statement that opened it. -/
theorem ParseState.run_closing {s : ParseState} {b : OpenBlock} {blocks : List OpenBlock} {body : List Stmt}
    {word : Kind} (done : Stmt) {n w : Token} (h : s.Rests ⟨b :: blocks, body, .between⟩)
    (hn : n.kind = .end) (hw : w.kind = word)
    (hclose : ParseState.close ⟨b :: blocks, body, .between⟩ n = .ok ⟨blocks, b.before, .closing word done⟩) :
    [n, w].foldlM ParseState.step s = .ok ⟨blocks, done :: b.before, .between⟩ := by
  have first : s.step n = .ok ⟨blocks, b.before, .closing word done⟩ := by
    rw [h.step_eq (by rw [hn]; rfl)]
    simpa [ParseState.consume, ParseState.begin, hn] using hclose
  have second : ParseState.step ⟨blocks, b.before, .closing word done⟩ w =
      .ok ⟨blocks, done :: b.before, .between⟩ := by
    simp [ParseState.step, ParseState.settle, ParseState.consume, ParseState.require, hw, ParseState.add]
  rw [foldlM_cons_ok first, foldlM_cons_ok second]
  rfl

mutual

theorem Grammar.Statement.read : ∀ {ts : List Token} {s : Stmt}, Statement ts s →
    ∀ (blocks : List OpenBlock) (ss : List Stmt), ∃ s',
      ts.foldlM ParseState.step ⟨blocks, ss, .between⟩ = .ok s' ∧ s'.Rests ⟨blocks, s :: ss, .between⟩
  | _, _, @Statement.create c v name w u ts e hc hv hn hw hu value, blocks, ss => by
    obtain ⟨s', hrun, hrests⟩ := ParseState.run_expression value blocks ss (.create name)
    have h1 : ParseState.step ⟨blocks, ss, .between⟩ c = .ok ⟨blocks, ss, .createVariable⟩ := by
      simp [ParseState.step, ParseState.settle, ParseState.consume, ParseState.begin, hc, ParseState.goOn]
    have h2 : ParseState.step ⟨blocks, ss, .createVariable⟩ v = .ok ⟨blocks, ss, .createName⟩ := by
      simp [ParseState.step, ParseState.settle, ParseState.consume, ParseState.require, hv, ParseState.goOn]
    have h3 : ParseState.step ⟨blocks, ss, .createName⟩ name = .ok ⟨blocks, ss, .createWith name⟩ := by
      simp [ParseState.step, ParseState.settle, ParseState.consume, ParseState.require, hn, ParseState.goOn]
    have h4 : ParseState.step ⟨blocks, ss, .createWith name⟩ w = .ok ⟨blocks, ss, .createValue name⟩ := by
      simp [ParseState.step, ParseState.settle, ParseState.consume, ParseState.require, hw, ParseState.goOn]
    have h5 : ParseState.step ⟨blocks, ss, .createValue name⟩ u = .ok ⟨blocks, ss, .reading (.create name) .empty⟩ := by
      simp [ParseState.step, ParseState.settle, ParseState.consume, ParseState.require, hu, ParseState.goOn]
    refine ⟨s', ?_, hrests⟩
    rw [foldlM_cons_ok h1, foldlM_cons_ok h2, foldlM_cons_ok h3, foldlM_cons_ok h4, foldlM_cons_ok h5, hrun]
  | _, _, @Statement.assign a name t ts e ha hn ht value, blocks, ss => by
    obtain ⟨s', hrun, hrests⟩ := ParseState.run_expression value blocks ss (.assign name)
    have h1 : ParseState.step ⟨blocks, ss, .between⟩ a = .ok ⟨blocks, ss, .assignName⟩ := by
      simp [ParseState.step, ParseState.settle, ParseState.consume, ParseState.begin, ha, ParseState.goOn]
    have h2 : ParseState.step ⟨blocks, ss, .assignName⟩ name = .ok ⟨blocks, ss, .assignTo name⟩ := by
      simp [ParseState.step, ParseState.settle, ParseState.consume, ParseState.require, hn, ParseState.goOn]
    have h3 : ParseState.step ⟨blocks, ss, .assignTo name⟩ t = .ok ⟨blocks, ss, .reading (.assign name) .empty⟩ := by
      simp [ParseState.step, ParseState.settle, ParseState.consume, ParseState.require, ht, ParseState.goOn]
    refine ⟨s', ?_, hrests⟩
    rw [foldlM_cons_ok h1, foldlM_cons_ok h2, foldlM_cons_ok h3, hrun]
  | _, _, @Statement.print k ts e hk value, blocks, ss => by
    obtain ⟨s', hrun, hrests⟩ := ParseState.run_expression value blocks ss (.print k)
    have h1 : ParseState.step ⟨blocks, ss, .between⟩ k = .ok ⟨blocks, ss, .reading (.print k) .empty⟩ := by
      simp [ParseState.step, ParseState.settle, ParseState.consume, ParseState.begin, hk, ParseState.goOn]
    refine ⟨s', ?_, hrests⟩
    rw [foldlM_cons_ok h1, hrun]
  | _, _, @Statement.branch k th n f cs ys cond yes hk hc ht hy hn hf, blocks, ss => by
    obtain ⟨s1, hrun, hrests⟩ := ParseState.run_expression hc blocks ss (.branch k)
    have h1 : ParseState.step ⟨blocks, ss, .between⟩ k = .ok ⟨blocks, ss, .reading (.branch k) .empty⟩ := by
      simp [ParseState.step, ParseState.settle, ParseState.consume, ParseState.begin, hk, ParseState.goOn]
    have h2 : s1.step th = .ok ⟨.yes ss k cond :: blocks, [], .between⟩ := by
      rw [hrests.step_eq (by rw [ht]; rfl)]
      simp [ParseState.attain, ParseState.goOn, ParseState.consume, ParseState.require, ht]
    obtain ⟨s2, hbody, hend⟩ := Grammar.Block.read hy (ParseState.rests_between (.yes ss k cond :: blocks) [])
    have h3 := ParseState.run_closing (.branch k cond yes none) hend hn hf
      (by simp [ParseState.close, OpenBlock.before])
    refine ⟨_, ?_, ParseState.rests_between _ _⟩
    rw [foldlM_cons_ok h1, foldlM_append_ok hrun, foldlM_cons_ok h2, foldlM_append_ok hbody, h3]
    rfl
  | _, _, @Statement.branchElse k th el n f cs ys ns cond yes no hk hc ht hy he ho hn hf, blocks, ss => by
    obtain ⟨s1, hrun, hrests⟩ := ParseState.run_expression hc blocks ss (.branch k)
    have h1 : ParseState.step ⟨blocks, ss, .between⟩ k = .ok ⟨blocks, ss, .reading (.branch k) .empty⟩ := by
      simp [ParseState.step, ParseState.settle, ParseState.consume, ParseState.begin, hk, ParseState.goOn]
    have h2 : s1.step th = .ok ⟨.yes ss k cond :: blocks, [], .between⟩ := by
      rw [hrests.step_eq (by rw [ht]; rfl)]
      simp [ParseState.attain, ParseState.goOn, ParseState.consume, ParseState.require, ht]
    obtain ⟨s2, hbody, hend⟩ := Grammar.Block.read hy (ParseState.rests_between (.yes ss k cond :: blocks) [])
    have h3 : s2.step el = .ok ⟨.no ss k cond yes :: blocks, [], .between⟩ := by
      rw [hend.step_eq (by rw [he]; rfl)]
      simp [ParseState.consume, ParseState.begin, he, ParseState.turn]
    obtain ⟨s3, hother, hlast⟩ := Grammar.Block.read ho (ParseState.rests_between (.no ss k cond yes :: blocks) [])
    have h4 := ParseState.run_closing (.branch k cond yes (some no)) hlast hn hf
      (by simp [ParseState.close, OpenBlock.before])
    refine ⟨_, ?_, ParseState.rests_between _ _⟩
    rw [foldlM_cons_ok h1, foldlM_append_ok hrun, foldlM_cons_ok h2, foldlM_append_ok hbody, foldlM_cons_ok h3,
      foldlM_append_ok hother, h4]
    rfl
  | _, _, @Statement.loop k d n w cs bs cond body hk hc hd hb hn hw, blocks, ss => by
    obtain ⟨s1, hrun, hrests⟩ := ParseState.run_expression hc blocks ss (.loop k)
    have h1 : ParseState.step ⟨blocks, ss, .between⟩ k = .ok ⟨blocks, ss, .reading (.loop k) .empty⟩ := by
      simp [ParseState.step, ParseState.settle, ParseState.consume, ParseState.begin, hk, ParseState.goOn]
    have h2 : s1.step d = .ok ⟨.body ss k cond :: blocks, [], .between⟩ := by
      rw [hrests.step_eq (by rw [hd]; rfl)]
      simp [ParseState.attain, ParseState.goOn, ParseState.consume, ParseState.require, hd]
    obtain ⟨s2, hbody, hend⟩ := Grammar.Block.read hb (ParseState.rests_between (.body ss k cond :: blocks) [])
    have h3 := ParseState.run_closing (.loop k cond body) hend hn hw (by simp [ParseState.close, OpenBlock.before])
    refine ⟨_, ?_, ParseState.rests_between _ _⟩
    rw [foldlM_cons_ok h1, foldlM_append_ok hrun, foldlM_cons_ok h2, foldlM_append_ok hbody, h3]
    rfl

theorem Grammar.Block.read : ∀ {ts : List Token} {more : List Stmt}, Block ts more →
    ∀ {s : ParseState} {blocks : List OpenBlock} {ss : List Stmt}, s.Rests ⟨blocks, ss, .between⟩ → ∃ s',
      ts.foldlM ParseState.step s = .ok s' ∧ s'.Rests ⟨blocks, more.reverse ++ ss, .between⟩
  | _, _, .nil, s, blocks, ss, hs => ⟨s, rfl, hs⟩
  | _, _, @Block.newline t ts more ht rest, s, blocks, ss, hs => by
    have h1 : s.step t = .ok ⟨blocks, ss, .between⟩ := by
      rw [hs.step_eq (by rw [ht]; rfl)]
      simp [ParseState.consume, ParseState.begin, ht]
    obtain ⟨s', hrun, hrests⟩ := Grammar.Block.read rest (ParseState.rests_between blocks ss)
    exact ⟨s', by rw [foldlM_cons_ok h1, hrun], hrests⟩
  | _, _, @Block.statement ts us stmt more first rest, s, blocks, ss, hs => by
    obtain ⟨s1, hrun, hrests⟩ := Grammar.Statement.read first blocks ss
    obtain ⟨s2, hrun', hrests'⟩ := Grammar.Block.read rest hrests
    rw [← hs.run_statement (ParseState.rests_between blocks ss) first] at hrun
    exact ⟨s2, by rw [foldlM_append_ok hrun, hrun'], by simpa using hrests'⟩

end

theorem endToken_kind (tokens : List Token) : (endToken tokens).kind = .eof := by
  unfold endToken
  split
  next t ht => simpa using List.find?_some ht
  next => split <;> rfl

/-- What is derived as a program is accepted, with the same tree. -/
theorem Grammar.Program.parsed {tokens : List Token} {p : EnglishScript.Program}
    (h : Grammar.Program (bodyTokens tokens) p) : parseProgram tokens = .ok p := by
  obtain ⟨s, hrun, hrests⟩ := Grammar.Block.read h (ParseState.rests_between [] [])
  have hsettle := hrests (endToken tokens) (by rw [endToken_kind]; rfl)
  have hfinish : s.finish (endToken tokens) = .ok p := by
    simp [ParseState.finish, hsettle]
  simp only [parseProgram, ParseState.initial, hrun]
  exact hfinish

theorem Grammar.Program.unique {ts : List Token} {p q : EnglishScript.Program} (hp : Grammar.Program ts p)
    (hq : Grammar.Program ts q) : p = q := by
  obtain ⟨s, hrun, hrests⟩ := Grammar.Block.read hp (ParseState.rests_between [] [])
  obtain ⟨s', hrun', hrests'⟩ := Grammar.Block.read hq (ParseState.rests_between [] [])
  have hs : s = s' := Except.ok.inj (hrun.symm.trans hrun')
  subst hs
  have heq := (hrests (Token.endAt .start) rfl).symm.trans (hrests' (Token.endAt .start) rfl)
  have hreverse : p.reverse = q.reverse := by simpa using congrArg ParseState.statements heq
  exact List.reverse_inj.mp hreverse

/-- Every token but an operator finds the expression complete. -/
def WholeExpr.Rests (w : WholeExpr) (e : Expr) : Prop :=
  ∀ t : Token, Level.ofKind? t.kind = none → w.settle t = .complete e

theorem WholeExpr.step_reading {d next : Draft} {t : Token} (h : d.step t = .ok next) :
    WholeExpr.step (.reading d) t = .ok (.reading next) := by
  simp only [WholeExpr.step, WholeExpr.settle, Draft.finished_eq_none h, h]
  rfl

theorem WholeExpr.Rests.run_newlines {ns : List Token} {e : Expr} : ∀ {w : WholeExpr}, w.Rests e →
    (∀ n ∈ ns, n.kind = .newline) → ∃ w', ns.foldlM WholeExpr.step w = .ok w' ∧ w'.Rests e := by
  induction ns with
  | nil =>
    intro w hw _
    exact ⟨w, rfl, hw⟩
  | cons n rest ih =>
    intro w hw hn
    have hk := hn n (by simp)
    have hs : w.step n = .ok (.complete e) := by
      simp [WholeExpr.step, hw n (by rw [hk]; rfl), hk]
    rw [foldlM_cons_ok hs]
    exact ih (fun _ _ => rfl) (fun m hm => hn m (by simp [hm]))

theorem Grammar.Whole.read {ts : List Token} {e : Expr} (h : Whole ts e) :
    ∃ w, ts.foldlM WholeExpr.step (.reading .empty) = .ok w ∧ w.Rests e := by
  obtain ⟨us, ns, rfl, he, hn⟩ := h
  obtain ⟨x, inner, hrun, hclose, _⟩ := he.read [] [] (by simp)
  have hrests : WholeExpr.Rests (.reading (.hasOperand x (inner ++ []) [])) e := by
    intro t ht
    have hfinished : Draft.finished? (.hasOperand x (inner ++ []) []) t = some e := by
      simp [Draft.finished?, ht, hclose]
    simp only [WholeExpr.settle, hfinished]
  have hread : us.foldlM WholeExpr.step (.reading .empty) = .ok (.reading (.hasOperand x (inner ++ []) [])) :=
    foldlM_simulates WholeExpr.step_reading hrun
  rw [foldlM_append_ok hread]
  exact hrests.run_newlines hn

theorem Grammar.Whole.parsed {tokens : List Token} {e : Expr} (h : Whole (bodyTokens tokens) e) :
    parseExpr tokens = .ok e := by
  obtain ⟨w, hrun, hrests⟩ := h.read
  have hsettle := hrests (endToken tokens) (by rw [endToken_kind]; rfl)
  have hfinish : w.finish (endToken tokens) = .ok e := by simp [WholeExpr.finish, hsettle]
  simp only [parseExpr, hrun]
  exact hfinish

theorem Grammar.Whole.unique {ts : List Token} {e f : Expr} (he : Whole ts e) (hf : Whole ts f) : e = f := by
  obtain ⟨w, hrun, hrests⟩ := he.read
  obtain ⟨w', hrun', hrests'⟩ := hf.read
  have hw : w = w' := Except.ok.inj (hrun.symm.trans hrun')
  subst hw
  have heq := (hrests (Token.endAt .start) rfl).symm.trans (hrests' (Token.endAt .start) rfl)
  simpa using heq

/-- The parser accepts exactly the token lists of the grammar, as programs and as expressions, and gives the tree of
the derivation; no token list has two. -/
theorem parse_ok_iff_derived (tokens : List Token) :
    (∀ p, parseProgram tokens = .ok p ↔ Grammar.Program (bodyTokens tokens) p) ∧
      (∀ e, parseExpr tokens = .ok e ↔ Whole (bodyTokens tokens) e) ∧
      (∀ ts p q, Grammar.Program ts p → Grammar.Program ts q → p = q) ∧
      ∀ ts e f, Whole ts e → Whole ts f → e = f := by
  refine ⟨?_, ?_, ?_, ?_⟩
  · exact fun p => ⟨parseProgram_derived, Grammar.Program.parsed⟩
  · exact fun e => ⟨parseExpr_derived, Grammar.Whole.parsed⟩
  · exact fun ts p q => Grammar.Program.unique
  · exact fun ts e f => Grammar.Whole.unique

end EnglishScript
