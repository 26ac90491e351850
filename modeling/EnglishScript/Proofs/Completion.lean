import EnglishScript.Proofs.ParserCompleteness

namespace EnglishScript

open Grammar

/-- No token of the list ends a source. -/
def Endless (ts : List Token) : Prop :=
  ∀ t ∈ ts, t.kind ≠ .eof

/-- Tokens of the given kinds, without a spelling. -/
def fillers (kinds : List Kind) : List Token :=
  kinds.map fun kind => ⟨kind, [], .start⟩

@[simp]
theorem endless_nil : Endless [] := by
  simp [Endless]

@[simp]
theorem endless_cons {t : Token} {ts : List Token} : Endless (t :: ts) ↔ t.kind ≠ .eof ∧ Endless ts := by
  simp [Endless]

@[simp]
theorem endless_append {ts us : List Token} : Endless (ts ++ us) ↔ Endless ts ∧ Endless us := by
  simp [Endless, or_imp, forall_and]

theorem endless_fillers {kinds : List Kind} (h : Kind.eof ∉ kinds) : Endless (fillers kinds) := by
  intro t ht
  obtain ⟨kind, hkind, rfl⟩ := List.mem_map.mp ht
  rintro rfl
  exact h hkind

namespace Grammar

theorem Expression.endless {rank : Rank} {ts : List Token} {e : Expr} (h : Expression rank ts e) : Endless ts := by
  induction h with
  | number kind _ => simp [kind]
  | string kind => simp [kind]
  | var kind => simp [kind]
  | group opening _ closing ih => simp [opening, closing, ih]
  | operand _ ih => exact ih
  | @operation rank ts us op left right _ operator _ ihl ihr =>
    have hop : op.kind ≠ .eof := by
      intro heof
      rw [heof] at operator
      cases rank <;> simp [Rank.operators] at operator
    simp [ihl, hop, ihr]

mutual

theorem Statement.endless : ∀ {ts : List Token} {s : Stmt}, Statement ts s → Endless ts
  | _, _, .create hc hv hn hw hu value => by simp [hc, hv, hn, hw, hu, value.endless]
  | _, _, .assign hs hn ht value => by simp [hs, hn, ht, value.endless]
  | _, _, .print hk value => by simp [hk, value.endless]
  | _, _, .branch hk hc ht hy hn hf => by simp [hk, hc.endless, ht, Block.endless hy, hn, hf]
  | _, _, .branchElse hk hc ht hy he ho hn hf => by
    simp [hk, hc.endless, ht, Block.endless hy, he, Block.endless ho, hn, hf]
  | _, _, .loop hk hc hd hb hn hw => by simp [hk, hc.endless, hd, Block.endless hb, hn, hw]

theorem Block.endless : ∀ {ts : List Token} {ss : List Stmt}, Block ts ss → Endless ts
  | _, _, .nil => endless_nil
  | _, _, .newline ht rest => by simp [ht, Block.endless rest]
  | _, _, .statement first rest => by simp [Statement.endless first, Block.endless rest]

end

end Grammar

theorem Pending.rank_lt_primary (p : Pending) : p.level.rank < Rank.primary.depth := by
  cases p.level <;> decide

/-- What was read in front of an expression inside parentheses is completed by closing them. -/
theorem OuterRead.completes {us : List Token} {outer : List (List Pending)} (h : OuterRead us outer) :
    ∀ {vs : List Token} {e : Expr}, Expression .logical vs e →
      ∃ v e', Endless v ∧ Expression .logical (us ++ (vs ++ v)) e' := by
  induction h with
  | nil =>
    intro vs e he
    exact ⟨[], e, endless_nil, by simpa using he⟩
  | @cons ts us l pending outer before inside opening ih =>
    intro vs e he
    have hgroup : Expression .primary (l :: (vs ++ fillers [.rparen])) e := .group opening he rfl
    have hinner := Pending.closeAll_derived inside hgroup fun p _ => p.rank_lt_primary
    obtain ⟨v, e', hv, he'⟩ := ih hinner
    exact ⟨fillers [.rparen] ++ v, e', endless_append.mpr ⟨endless_fillers (by decide), hv⟩, by simpa using he'⟩

theorem filler_expression : Expression .logical (fillers [.identifier]) (.var ⟨.identifier, [], .start⟩) :=
  Expression.loosen (.var rfl) (Nat.zero_le _)

theorem DraftRead.completes {ts : List Token} {d : Draft} (h : DraftRead ts d) :
    ∃ v e, Endless v ∧ Expression .logical (ts ++ v) e := by
  cases d with
  | wantsOperand pending outer =>
    obtain ⟨us, vs, rfl, houter, hpending⟩ := h
    have hoperand : Expression .primary (fillers [.identifier]) (.var ⟨.identifier, [], .start⟩) := .var rfl
    have hinner := Pending.closeAll_derived hpending hoperand fun p _ => p.rank_lt_primary
    obtain ⟨v, e, hv, he⟩ := houter.completes hinner
    exact ⟨fillers [.identifier] ++ v, e, endless_append.mpr ⟨endless_fillers (by decide), hv⟩, by simpa using he⟩
  | hasOperand x pending outer =>
    obtain ⟨us, vs, ws, rfl, houter, hpending, hx⟩ := h
    have hinner := Pending.closeAll_derived hpending hx fun p _ => p.rank_lt_primary
    obtain ⟨v, e, hv, he⟩ := houter.completes hinner
    exact ⟨v, e, hv, by simpa using he⟩

theorem branch_completes {keyword : Token} {cs : List Token} {cond : Expr} (hk : keyword.kind = .if)
    (hc : Expression .logical cs cond) :
    Statement (keyword :: (cs ++ fillers [.then, .end, .if])) (.branch keyword cond [] none) :=
  .branch hk hc rfl .nil rfl rfl

theorem loop_completes {keyword : Token} {cs : List Token} {cond : Expr} (hk : keyword.kind = .while)
    (hc : Expression .logical cs cond) :
    Statement (keyword :: (cs ++ fillers [.do, .end, .while])) (.loop keyword cond []) :=
  .loop hk hc rfl .nil rfl rfl

theorem GoalRead.completes {gs es : List Token} {goal : Goal} {e : Expr} (hg : GoalRead gs goal)
    (he : Expression .logical es e) : ∃ v stmt, Endless v ∧ Statement (gs ++ (es ++ v)) stmt := by
  cases goal with
  | create name => exact ⟨[], _, endless_nil, by simpa using hg es e he⟩
  | assign name => exact ⟨[], _, endless_nil, by simpa using hg es e he⟩
  | print keyword => exact ⟨[], _, endless_nil, by simpa using hg es e he⟩
  | branch keyword =>
    obtain ⟨rfl, hk⟩ := hg
    exact ⟨_, _, endless_fillers (by decide), branch_completes hk he⟩
  | loop keyword =>
    obtain ⟨rfl, hk⟩ := hg
    exact ⟨_, _, endless_fillers (by decide), loop_completes hk he⟩

theorem ProgressRead.completes {ts : List Token} {progress : Progress} (h : ProgressRead ts progress) :
    ∃ v ss, Endless v ∧ Block (ts ++ v) ss := by
  have single {vs v : List Token} {stmt : Stmt} (hv : Endless v) (hs : Statement (vs ++ v) stmt) :
      ∃ v ss, Endless v ∧ Block (vs ++ v) ss :=
    ⟨v, [stmt], hv, by simpa using Block.statement hs .nil⟩
  cases progress with
  | between =>
    subst h
    exact ⟨[], [], endless_nil, .nil⟩
  | createVariable =>
    obtain ⟨c, rfl, hc⟩ := h
    exact single (v := fillers [.variable, .identifier, .with, .value, .identifier]) (endless_fillers (by decide))
      (.create hc rfl rfl rfl rfl filler_expression)
  | createName =>
    obtain ⟨c, v, rfl, hc, hv⟩ := h
    exact single (v := fillers [.identifier, .with, .value, .identifier]) (endless_fillers (by decide))
      (.create hc hv rfl rfl rfl filler_expression)
  | createWith name =>
    obtain ⟨c, v, rfl, hc, hv, hn⟩ := h
    exact single (v := fillers [.with, .value, .identifier]) (endless_fillers (by decide))
      (.create hc hv hn rfl rfl filler_expression)
  | createValue name =>
    obtain ⟨c, v, w, rfl, hc, hv, hn, hw⟩ := h
    exact single (v := fillers [.value, .identifier]) (endless_fillers (by decide)) (.create hc hv hn hw rfl filler_expression)
  | assignName =>
    obtain ⟨s, rfl, hs⟩ := h
    exact single (v := fillers [.identifier, .to, .identifier]) (endless_fillers (by decide)) (.assign hs rfl rfl filler_expression)
  | assignTo name =>
    obtain ⟨s, rfl, hs, hn⟩ := h
    exact single (v := fillers [.to, .identifier]) (endless_fillers (by decide)) (.assign hs hn rfl filler_expression)
  | reading goal draft =>
    obtain ⟨gs, es, rfl, hg, hd⟩ := h
    obtain ⟨v, e, hv, he⟩ := hd.completes
    obtain ⟨w, stmt, hw, hs⟩ := hg.completes he
    exact single (endless_append.mpr ⟨hv, hw⟩) (by simpa using hs)
  | branchThen keyword cond =>
    obtain ⟨cs, rfl, hk, hc⟩ := h
    exact single (v := fillers [.then, .end, .if]) (endless_fillers (by decide)) (branch_completes hk hc)
  | loopDo keyword cond =>
    obtain ⟨cs, rfl, hk, hc⟩ := h
    exact single (v := fillers [.do, .end, .while]) (endless_fillers (by decide)) (loop_completes hk hc)
  | closing word done =>
    have hs := h ⟨word, [], .start⟩ rfl
    exact single (fun t ht => hs.endless t (List.mem_append_right ts ht)) hs

theorem OpenBlock.HeadRead.completes {hs vs : List Token} {b : OpenBlock} {body : List Stmt} (h : b.HeadRead hs)
    (hb : Block vs body) : ∃ v stmt, Endless v ∧ Statement (hs ++ (vs ++ v)) stmt := by
  cases b with
  | yes before keyword cond =>
    obtain ⟨cs, th, rfl, hk, hc, hth⟩ := h
    exact ⟨fillers [.end, .if], _, endless_fillers (by decide), by simpa [fillers] using Statement.branch hk hc hth hb rfl rfl⟩
  | no before keyword cond first =>
    obtain ⟨cs, th, ys, el, rfl, hk, hc, hth, hfirst, hel⟩ := h
    exact ⟨fillers [.end, .if], _, endless_fillers (by decide),
      by simpa [fillers] using Statement.branchElse hk hc hth hfirst hel hb rfl rfl⟩
  | body before keyword cond =>
    obtain ⟨cs, d, rfl, hk, hc, hd⟩ := h
    exact ⟨fillers [.end, .while], _, endless_fillers (by decide), by simpa [fillers] using Statement.loop hk hc hd hb rfl rfl⟩

/-- Open blocks are completed from the inside out. -/
theorem BlocksRead.completes {blocks : List OpenBlock} : ∀ {us vs : List Token} {ss more : List Stmt},
    BlocksRead us blocks ss → Block vs more → ∃ v p, Endless v ∧ Grammar.Program (us ++ (vs ++ v)) p := by
  induction blocks with
  | nil =>
    intro us vs ss more hu hv
    exact ⟨[], _, endless_nil, by simpa using Block.append hu hv⟩
  | cons b outer ih =>
    intro us vs ss more hu hv
    obtain ⟨ts, hs, ws, rfl, hbefore, hhead, hblock⟩ := hu
    obtain ⟨v, stmt, hv', hstmt⟩ := hhead.completes (hblock.append hv)
    have hsingle : Block (hs ++ (ws ++ vs ++ v)) [stmt] := by simpa using Block.statement hstmt .nil
    obtain ⟨w, p, hw, hp⟩ := ih hbefore hsingle
    exact ⟨v ++ w, p, endless_append.mpr ⟨hv', hw⟩, by simpa using hp⟩

/-- Whatever the parser has read, it can be completed to a program. -/
theorem StateRead.completes {ts : List Token} {s : ParseState} (h : StateRead ts s) :
    ∃ v p, Endless v ∧ Grammar.Program (ts ++ v) p := by
  obtain ⟨us, vs, rfl, hblocks, hprogress⟩ := h
  obtain ⟨v, ss, hv, hss⟩ := hprogress.completes
  obtain ⟨w, p, hw, hp⟩ := hblocks.completes hss
  exact ⟨v ++ w, p, endless_append.mpr ⟨hv, hw⟩, by simpa using hp⟩

/-- How many tokens of a list a state reads before one does not fit. -/
def ParseState.reach : ParseState → List Token → Nat
  | _, [] => 0
  | s, t :: rest =>
    match s.step t with
    | .ok next => next.reach rest + 1
    | .error _ => 0

/-- The number of tokens that the parser has read when it stops. -/
def parseCursor (tokens : List Token) : Nat :=
  ParseState.initial.reach (bodyTokens tokens)

/-- The token at which an error was found. -/
def ParseError.token : ParseError → Token
  | .unexpected _ got => got
  | .invalidNumber token _ => token

theorem Draft.step_error {d : Draft} {t : Token} {e : ParseError} (h : d.step t = .error e) : e.token = t := by
  cases d with
  | wantsOperand pending outer =>
    simp only [Draft.step, Draft.readOperand] at h
    split at h
    next =>
      split at h
      next => cases h
      next => cases h; rfl
    all_goals cases h
    rfl
  | hasOperand x pending outer =>
    simp only [Draft.step, Draft.readOperator] at h
    split at h
    next => cases h
    next =>
      split at h
      next =>
        split at h
        next => cases h
        next => cases h; rfl
      next => cases h; rfl

namespace ParseState

theorem require_error {kind : Kind} {t : Token} {next : ParseState} {e : ParseError}
    (h : require kind t next = .error e) : e.token = t := by
  unfold require at h
  split at h
  next => cases h
  next => cases h; rfl

theorem begin_error {s : ParseState} {t : Token} {e : ParseError} (h : s.begin t = .error e) : e.token = t := by
  unfold begin at h
  split at h
  case h_7 =>
    unfold close at h
    split at h <;> cases h
    rfl
  case h_8 =>
    unfold turn at h
    split at h <;> cases h
    rfl
  all_goals cases h
  rfl

/-- An error is always about the token being read. -/
theorem consume_error {s : ParseState} {t : Token} {e : ParseError} (h : s.consume t = .error e) : e.token = t := by
  unfold consume at h
  split at h
  case h_1 => exact begin_error h
  case h_8 =>
    next goal draft _ =>
    cases hstep : draft.step t with
    | ok d => rw [hstep] at h; cases h
    | error f =>
      rw [hstep] at h
      cases h
      exact Draft.step_error hstep
  all_goals exact require_error h

theorem finish_error {s : ParseState} {t : Token} {e : ParseError} (h : s.finish t = .error e) : e.token = t := by
  unfold finish at h
  simp only at h
  split at h
  next => cases h
  next => cases h; rfl
  next =>
    cases hc : (s.settle t).consume t with
    | ok next => rw [hc] at h; cases h; rfl
    | error f =>
      rw [hc] at h
      cases h
      exact consume_error hc

/-- The parser reads as far as it reaches; the token there, if there is one, is where it fails. -/
theorem foldlM_reach (ts : List Token) : ∀ s : ParseState, ∃ s', (ts.take (s.reach ts)).foldlM step s = .ok s' ∧
    ((s.reach ts = ts.length ∧ ts.foldlM step s = .ok s') ∨
      ∃ t e, ts[s.reach ts]? = some t ∧ s'.step t = .error e ∧ ts.foldlM step s = .error e) := by
  induction ts with
  | nil => exact fun s => ⟨s, rfl, Or.inl ⟨rfl, rfl⟩⟩
  | cons t rest ih =>
    intro s
    cases hstep : s.step t with
    | error e =>
      have hreach : s.reach (t :: rest) = 0 := by simp [reach, hstep]
      rw [hreach, List.foldlM_cons, hstep]
      exact ⟨s, rfl, Or.inr ⟨t, e, rfl, hstep, rfl⟩⟩
    | ok next =>
      have hreach : s.reach (t :: rest) = next.reach rest + 1 := by simp [reach, hstep]
      obtain ⟨s', hread, hstop⟩ := ih next
      rw [hreach, List.take_succ_cons, foldlM_cons_ok hstep, foldlM_cons_ok hstep, List.getElem?_cons_succ]
      refine ⟨s', hread, ?_⟩
      rcases hstop with ⟨hall, hrun⟩ | hstop
      · exact Or.inl ⟨by rw [hall]; rfl, hrun⟩
      · exact Or.inr hstop

end ParseState

theorem bodyTokens_endless {ts : List Token} (hts : Endless ts) {final : Token} (hfinal : final.kind = .eof) :
    bodyTokens (ts ++ [final]) = ts := by
  unfold bodyTokens
  rw [List.takeWhile_append_of_pos (fun t ht => by simpa using hts t ht)]
  simp [hfinal]

theorem endToken_endless {ts : List Token} (hts : Endless ts) {final : Token} (hfinal : final.kind = .eof) :
    endToken (ts ++ [final]) = final := by
  have hfind : (ts ++ [final]).find? (fun t => t.kind = .eof) = some final := by
    rw [List.find?_append, List.find?_eq_none.mpr (fun t ht => by simpa using hts t ht)]
    simp [hfinal]
  simp [endToken, hfind]

theorem parseProgram_endless {ts : List Token} (hts : Endless ts) {final : Token} (hfinal : final.kind = .eof) :
    parseProgram (ts ++ [final]) = (ts.foldlM ParseState.step .initial).bind fun s => s.finish final := by
  rw [parseProgram, bodyTokens_endless hts hfinal, endToken_endless hts hfinal]

theorem StateRead.of_foldlM {ts : List Token} {s : ParseState} (h : ts.foldlM ParseState.step .initial = .ok s) :
    StateRead ts s := by
  have start : StateRead [] .initial := ⟨[], [], rfl, .nil, rfl⟩
  simpa using foldlM_read ParseState.step_read start h

/-- A token that is reported as unexpected stands where the parser stopped. The tokens before it can be completed to a
program, and no program begins with them and it. -/
theorem parseProgram_unexpected_earliest {w : List Token} (hw : Endless w) {final : Token} (hfinal : final.kind = .eof)
    {expected : Expectation} {got : Token} (h : parseProgram (w ++ [final]) = .error (.unexpected expected got)) :
    (w ++ [final])[parseCursor (w ++ [final])]? = some got ∧
      (∃ v, Endless v ∧ ∀ last : Token, last.kind = .eof →
        ∃ p, parseProgram (w.take (parseCursor (w ++ [final])) ++ v ++ [last]) = .ok p) ∧
      (parseCursor (w ++ [final]) < w.length → ∀ v, Endless v → ∀ last : Token, last.kind = .eof →
        ∀ p, parseProgram (w.take (parseCursor (w ++ [final]) + 1) ++ v ++ [last]) ≠ .ok p) := by
  have hcursor : parseCursor (w ++ [final]) = ParseState.initial.reach w := by
    rw [parseCursor, bodyTokens_endless hw hfinal]
  rw [parseProgram_endless hw hfinal] at h
  rw [hcursor]
  obtain ⟨s, hread, hstop⟩ := ParseState.foldlM_reach w .initial
  have hbegin : Endless (w.take (ParseState.initial.reach w)) := fun t ht => hw t (List.mem_of_mem_take ht)
  refine ⟨?_, ?_, ?_⟩
  · rcases hstop with ⟨hall, hrun⟩ | ⟨t, e, ht, hstep, hrun⟩
    · rw [hrun] at h
      have hgot : got = final := ParseState.finish_error h
      rw [hall, hgot]
      simp
    · rw [hrun] at h
      cases h
      have hgot : got = t := ParseState.consume_error hstep
      rw [hgot, List.getElem?_append_left (List.getElem?_eq_some_iff.mp ht).1]
      exact ht
  · obtain ⟨v, p, hv, hp⟩ := (StateRead.of_foldlM hread).completes
    refine ⟨v, hv, fun last hlast => ⟨p, Grammar.Program.parsed ?_⟩⟩
    rw [bodyTokens_endless (endless_append.mpr ⟨hbegin, hv⟩) hlast]
    exact hp
  · intro hinside v hv last hlast p hp
    rcases hstop with ⟨hall, _⟩ | ⟨t, e, ht, hstep, _⟩
    · omega
    · have htake : w.take (ParseState.initial.reach w + 1) = w.take (ParseState.initial.reach w) ++ [t] := by
        rw [List.take_add_one, ht]
        rfl
      have hend : Endless (w.take (ParseState.initial.reach w + 1) ++ v) :=
        endless_append.mpr ⟨fun t ht => hw t (List.mem_of_mem_take ht), hv⟩
      rw [parseProgram_endless hend hlast, htake, List.append_assoc, foldlM_append_ok hread, List.singleton_append,
        List.foldlM_cons, hstep] at hp
      cases hp

/-- In `if (n + m then` the parenthesis is still open at `then`, the token behind the fifth. -/
theorem parseProgram_unexpected_earliest_bracket :
    parseProgram (fillers [.if, .lparen, .identifier, .plus, .identifier, .then] ++ [Token.endAt .start]) =
        .error (.unexpected (.kind .rparen) ⟨.then, [], .start⟩) ∧
      (∃ v, Endless v ∧
        ∃ p, parseProgram (fillers [.if, .lparen, .identifier, .plus, .identifier] ++ v ++ [Token.endAt .start]) = .ok p) ∧
      ∀ v, Endless v → ∀ p,
        parseProgram (fillers [.if, .lparen, .identifier, .plus, .identifier, .then] ++ v ++ [Token.endAt .start]) ≠
          .ok p := by
  have herror : parseProgram (fillers [.if, .lparen, .identifier, .plus, .identifier, .then] ++ [Token.endAt .start]) =
      .error (.unexpected (.kind .rparen) ⟨.then, [], .start⟩) := rfl
  obtain ⟨_, ⟨v, hv, hcomplete⟩, hnone⟩ := parseProgram_unexpected_earliest (endless_fillers (by decide)) rfl herror
  exact ⟨herror, ⟨v, hv, hcomplete _ rfl⟩, fun v hv => hnone (by decide) v hv _ rfl⟩

end EnglishScript
