import EnglishScript.Proofs.Descent
import EnglishScript.Tree.Listing

namespace EnglishScript

/-- What reading the rest of the tokens from a state comes to. -/
def ParseState.outcome (s : ParseState) (rest : List Token) (final : Token) : Except ParseError Program :=
  (rest.foldlM ParseState.step s).bind fun s => s.finish final

namespace ParseState

variable {s s' settled : ParseState} {rest : List Token} {t final : Token} {e : ParseError}

theorem outcome_append {front : List Token} (h : front.foldlM step s = .ok s') :
    s.outcome (front ++ rest) final = s'.outcome rest final := by
  rw [outcome, foldlM_append_ok h, outcome]

theorem outcome_cons (h : s.step t = .ok s') : s.outcome (t :: rest) final = s'.outcome rest final := by
  rw [outcome, foldlM_cons_ok h, outcome]

theorem outcome_cons_error (h : s.step t = .error e) : s.outcome (t :: rest) final = .error e := by
  rw [outcome, List.foldlM_cons, h]
  rfl

theorem outcome_eq_of_settle (h : s.settle (rest.headD final) = settled.settle (rest.headD final)) :
    s.outcome rest final = settled.outcome rest final := by
  cases rest with
  | nil =>
    have hfinish : s.finish final = settled.finish final := by
      simp only [finish, show s.settle final = settled.settle final from h]
    exact hfinish
  | cons t rest =>
    have hstep : s.step t = settled.step t := by
      rw [step, step, show s.settle t = settled.settle t from h]
    rw [outcome, outcome, List.foldlM_cons, List.foldlM_cons, hstep]

/-- A state inside a statement that breaks off at the next token. -/
theorem outcome_error (hsettle : s.settle (rest.headD final) = s) (hprogress : s.progress ≠ .between)
    (h : s.consume (rest.headD final) = .error e) : s.outcome rest final = .error e := by
  cases rest with
  | nil =>
    rw [List.headD_nil] at hsettle h
    have hfinish : s.finish final = .error e := by
      unfold finish
      simp only [hsettle]
      split
      next hbetween _ => exact absurd hbetween hprogress
      next hbetween _ => exact absurd hbetween hprogress
      next => rw [h]; rfl
    exact hfinish
  | cons t rest =>
    rw [List.headD_cons] at hsettle h
    exact outcome_cons_error (by rw [step, hsettle, h])

theorem settle_reading {blocks : List OpenBlock} {ss : List Stmt} {goal : Goal} {d : Draft}
    (h : d.finished? t = none) :
    ParseState.settle ⟨blocks, ss, .reading goal d⟩ t = ⟨blocks, ss, .reading goal d⟩ := by
  simp only [settle, h]

theorem consume_reading {blocks : List OpenBlock} {ss : List Stmt} {goal : Goal} {d : Draft}
    (h : d.step t = .error e) : ParseState.consume ⟨blocks, ss, .reading goal d⟩ t = .error e := by
  simp only [consume, h]
  rfl

end ParseState

/-- A list with one more element, split at a place, ends behind the place or at it. -/
theorem append_singleton_split {rest front back : List Token} {t final : Token}
    (h : rest ++ [final] = front ++ t :: back) : ∃ more, rest = front ++ more ∧ more.headD final = t := by
  rcases List.eq_nil_or_concat back with rfl | ⟨back, last, rfl⟩
  · obtain ⟨rfl, hlast⟩ := List.append_inj' h rfl
    exact ⟨[], by simp, by simpa using hlast⟩
  · have hinit : rest ++ [final] = (front ++ t :: back) ++ [last] := by simpa using h
    obtain ⟨rfl, _⟩ := List.append_inj' hinit rfl
    exact ⟨t :: back, rfl, rfl⟩

theorem Draft.FailsOn.outcome {d : Draft} {rest : List Token} {final : Token} {e : ParseError}
    (h : d.FailsOn (rest ++ [final]) e) (blocks : List OpenBlock) (ss : List Stmt) (goal : Goal) :
    ParseState.outcome ⟨blocks, ss, .reading goal d⟩ rest final = .error e := by
  obtain ⟨front, t, back, last, hsplit, hfront, hfinished, hstep⟩ := h
  obtain ⟨more, rfl, rfl⟩ := append_singleton_split hsplit
  rw [ParseState.outcome_append (foldlM_simulates ParseState.step_reading hfront)]
  exact ParseState.outcome_error (ParseState.settle_reading hfinished) (by rintro ⟨⟩) (ParseState.consume_reading hstep)

namespace Descent

open Grammar (Rank Expression)

/-- What a descent comes to that keeps step from the state `s`: it ends in the state `next` gives for its result, with
tokens left as `post` says, or both break off. -/
inductive Outcome {α : Type} (s : ParseState) (next : α → ParseState) (post : α → List Token → Prop) (i : Nat)
    (rest : List Token) (final : Token) : Option (Except DescentFailure α × Nat) → Prop
  | reads (front back : List Token) {a : α} {j : Nat} (split : rest = front ++ back)
      (goes : s.outcome rest final = (next a).outcome back final) (left : post a back) (reach : j = i + front.length) :
      Outcome s next post i rest final (some (.ok a, j))
  | fails {e : ParseError} {j : Nat} (reach : j ≤ i + rest.length) (breaks : s.outcome rest final = .error e) :
      Outcome s next post i rest final (some (.error (.unfit e), j))

/-- The descent keeps step from the state `s` wherever the tokens ahead are as `pre` says. -/
def Mirrors {α : Type} (pre : List Token → Prop) (m : Descent α) (s : ParseState) (next : α → ParseState)
    (post : α → List Token → Prop) : Prop :=
  ∀ (tokens rest : List Token) (i : Nat) (final : Token), Ahead tokens i rest final → pre rest →
    Outcome s next post i rest final (m tokens i)

section Rules

variable {α β : Type} {pre : List Token → Prop} {m : Descent α} {f : α → Descent β} {s s' : ParseState}
  {next : α → ParseState} {next' : β → ParseState} {post : α → List Token → Prop} {post' : β → List Token → Prop}
  {tokens rest : List Token} {i : Nat} {t final : Token}

theorem Mirrors.bind (hm : Mirrors pre m s next post) (hf : ∀ a, Mirrors (post a) (f a) (next a) next' post') :
    Mirrors pre (m >>= f) s next' post' := by
  intro tokens rest i final h hpre
  generalize hrun : m tokens i = outcome
  have hfirst := hm _ _ _ _ h hpre
  rw [hrun] at hfirst
  cases hfirst with
  | fails reach breaks =>
    rw [bind_of_error hrun]
    exact .fails reach breaks
  | @reads front back a j split goes left reach =>
    subst split reach
    rw [bind_of_ok hrun]
    generalize hagain : f a tokens (i + front.length) = outcome
    have hsecond := hf a _ _ _ _ h.drop left
    rw [hagain] at hsecond
    cases hsecond with
    | fails reach breaks =>
      refine .fails ?_ (goes.trans breaks)
      rw [List.length_append]
      omega
    | @reads middle back b j split goes' left reach =>
      refine .reads (front ++ middle) back (by simp [split]) (goes.trans goes') left ?_
      rw [reach, List.length_append, Nat.add_assoc]

theorem mirrors_pure {a : α} (hs : s = next a) (h : ∀ rest, pre rest → post a rest) :
    Mirrors pre (pure a) s next post := by
  intro tokens rest i final _ hpre
  exact .reads [] rest rfl (by rw [hs]) (h rest hpre) rfl

theorem Outcome.cons {r : Option (Except DescentFailure α × Nat)} (ht : s.step t = .ok s')
    (h : Outcome s' next post (i + 1) rest final r) : Outcome s next post i (t :: rest) final r := by
  cases h with
  | @reads front back a j split goes left reach =>
    refine .reads (t :: front) back (by rw [split]; rfl) ((ParseState.outcome_cons ht).trans goes) left ?_
    rw [reach, List.length_cons]
    omega
  | fails reach breaks =>
    refine .fails ?_ ((ParseState.outcome_cons ht).trans breaks)
    rw [List.length_cons]
    omega

theorem Outcome.imp {r : Option (Except DescentFailure α × Nat)} {looser : α → List Token → Prop}
    (h : Outcome s next post i rest final r) (himp : ∀ a rest, post a rest → looser a rest) :
    Outcome s next looser i rest final r := by
  cases h with
  | reads front back split goes left reach => exact .reads front back split goes (himp _ _ left) reach
  | fails reach breaks => exact .fails reach breaks

/-- A statement starts with the token that decides its form. -/
theorem Mirrors.start {kind : Kind} {g : Token → Descent α} (hg : Mirrors pre (g t) s' next post) (ht : t.kind = kind)
    (hstep : s.step t = .ok s') (h : Ahead tokens i (t :: rest) final) (hpre : pre rest) :
    Outcome s next post i (t :: rest) final ((consume kind >>= g) tokens i) := by
  rw [bind_of_ok (consume_fits h ht)]
  exact .cons hstep (hg _ _ _ _ h.tail hpre)

end Rules

/-- No more than `n` tokens are left. -/
abbrev Within (n : Nat) (rest : List Token) : Prop := rest.length ≤ n

/-- The next token, if there is one, is of one of the kinds. -/
def StopsAt (kinds : List Kind) (rest : List Token) : Prop :=
  ∀ t ∈ rest.head?, t.kind ∈ kinds

section Parts

variable {n limit : Nat} {blocks : List OpenBlock} {ss : List Stmt}

/-- A token that must come next inside a statement. -/
theorem mirrors_consume {kind : Kind} {s : ParseState} {next : Token → ParseState} (hkind : kind ≠ .eof)
    (hsettle : ∀ t, s.settle t = s) (hprogress : s.progress ≠ .between)
    (hconsume : ∀ t, s.consume t = ParseState.require kind t (next t)) :
    Mirrors (Within n) (consume kind) s next fun _ => Within n := by
  intro tokens rest i final h hn
  by_cases ht : (rest.headD final).kind = kind
  · cases rest with
    | nil => exact absurd (ht.symm.trans h.final) hkind
    | cons t rest =>
      rw [consume_fits h ht]
      have hstep : s.step t = .ok (next t) := by
        rw [ParseState.step, hsettle, hconsume]
        exact if_pos ht
      exact .reads [t] rest rfl (ParseState.outcome_cons hstep) (Nat.le_of_succ_le hn) rfl
  · rw [consume_refuses h hkind ht]
    refine .fails (by omega) (ParseState.outcome_error (hsettle _) hprogress ?_)
    rw [hconsume]
    exact if_neg ht

theorem mirrors_expression (hlimit : 6 * n + 6 ≤ limit) (goal : Goal) :
    Mirrors (Within n) (expression limit .logical) ⟨blocks, ss, .reading goal .empty⟩
      (ParseState.attain ⟨blocks, ss, .between⟩ goal) fun _ => Within n := by
  intro tokens rest i final h hn
  have henough : 6 * rest.length + 6 ≤ limit := by
    rw [Within] at hn
    omega
  generalize hrun : expression limit .logical tokens i = outcome
  have hexpr := expression_outcome h henough
  rw [hrun] at hexpr
  cases hexpr with
  | fails reach fails => exact .fails reach ((fails [] [] (by simp)).outcome blocks ss goal)
  | @reads front back e j split derived loose reach =>
    subst split
    obtain ⟨s, hfront, hrests⟩ := ParseState.run_expression derived blocks ss goal
    have hsettle : s.settle (back.headD final) =
        (ParseState.attain ⟨blocks, ss, .between⟩ goal e).settle (back.headD final) := by
      rw [hrests _ loose.ofKind]
      cases goal <;> rfl
    have hgoes := (ParseState.outcome_append hfront).trans (ParseState.outcome_eq_of_settle hsettle)
    rw [Within, List.length_append] at hn
    exact .reads front back rfl hgoes (by rw [Within]; omega) reach

/-- The `end` of the innermost block, where nothing else can stand. -/
theorem mirrors_end {b : OpenBlock} {closed : ParseState}
    (hclose : ∀ t, ParseState.close ⟨b :: blocks, ss, .between⟩ t = .ok closed) :
    Mirrors (fun rest => Within n rest ∧ StopsAt [.end] rest) (consume .end) ⟨b :: blocks, ss, .between⟩
      (fun _ => closed) fun _ => Within n := by
  rintro tokens rest i final h ⟨hn, hend⟩
  cases rest with
  | nil =>
    have hkind : (List.headD [] final).kind ≠ .end := by
      rw [List.headD_nil, h.final]
      rintro ⟨⟩
    rw [consume_refuses h (by simp) hkind]
    exact .fails (by omega) rfl
  | cons t rest =>
    have ht : t.kind = .end := List.mem_singleton.mp (hend t rfl)
    rw [consume_fits h ht]
    have hstep : ParseState.step ⟨b :: blocks, ss, .between⟩ t = .ok closed := by
      simp only [ParseState.step, ParseState.settle, ParseState.consume, ParseState.begin, ht]
      exact hclose t
    exact .reads [t] rest rfl (ParseState.outcome_cons hstep) (Nat.le_of_succ_le hn) rfl

theorem mirrors_create (hlimit : 6 * n + 6 ≤ limit) :
    Mirrors (Within n)
      (do
        let _ ← consume .variable
        let name ← consume .identifier
        let _ ← consume .with
        let _ ← consume .value
        return .create name (← expression limit .logical))
      ⟨blocks, ss, .createVariable⟩ (fun stmt => ⟨blocks, stmt :: ss, .between⟩) fun _ => Within n := by
  refine Mirrors.bind (mirrors_consume (by rintro ⟨⟩) (fun _ => rfl) (by rintro ⟨⟩) fun _ => rfl) fun _ => ?_
  refine Mirrors.bind (mirrors_consume (by rintro ⟨⟩) (fun _ => rfl) (by rintro ⟨⟩) fun _ => rfl) fun name => ?_
  refine Mirrors.bind (mirrors_consume (by rintro ⟨⟩) (fun _ => rfl) (by rintro ⟨⟩) fun _ => rfl) fun _ => ?_
  refine Mirrors.bind (mirrors_consume (by rintro ⟨⟩) (fun _ => rfl) (by rintro ⟨⟩) fun _ => rfl) fun _ => ?_
  exact (mirrors_expression hlimit (.create name)).bind fun e => mirrors_pure rfl fun _ h => h

theorem mirrors_assign (hlimit : 6 * n + 6 ≤ limit) :
    Mirrors (Within n)
      (do
        let name ← consume .identifier
        let _ ← consume .to
        return .assign name (← expression limit .logical))
      ⟨blocks, ss, .assignName⟩ (fun stmt => ⟨blocks, stmt :: ss, .between⟩) fun _ => Within n := by
  refine Mirrors.bind (mirrors_consume (by rintro ⟨⟩) (fun _ => rfl) (by rintro ⟨⟩) fun _ => rfl) fun name => ?_
  refine Mirrors.bind (mirrors_consume (by rintro ⟨⟩) (fun _ => rfl) (by rintro ⟨⟩) fun _ => rfl) fun _ => ?_
  exact (mirrors_expression hlimit (.assign name)).bind fun e => mirrors_pure rfl fun _ h => h

theorem mirrors_print (hlimit : 6 * n + 6 ≤ limit) (keyword : Token) :
    Mirrors (Within n) (do return .print keyword (← expression limit .logical))
      ⟨blocks, ss, .reading (.print keyword) .empty⟩ (fun stmt => ⟨blocks, stmt :: ss, .between⟩) fun _ => Within n :=
  (mirrors_expression hlimit (.print keyword)).bind fun _ => mirrors_pure rfl fun _ h => h

end Parts

/-- The kinds that end the innermost block. -/
def terminators : List OpenBlock → List Kind
  | [] => []
  | .yes .. :: _ => [.end, .else]
  | .no .. :: _ | .body .. :: _ => [.end]

/-- Every block in front of at most `n` tokens is read as it should be. -/
def BlocksMirror (n : Nat) : Prop :=
  ∀ (limit : Nat) (blocks : List OpenBlock) (ss : List Stmt), 6 * n + 3 ≤ limit →
    Mirrors (Within n) (block limit (terminators blocks)) ⟨blocks, ss, .between⟩
      (fun stmts => ⟨blocks, stmts.reverse ++ ss, .between⟩)
      fun _ rest => Within n rest ∧ StopsAt (terminators blocks) rest

section Blocks

variable {n limit : Nat} (ih : BlocksMirror n) (hlimit : 6 * n + 6 ≤ limit) {blocks : List OpenBlock} {ss : List Stmt}

theorem begin_end {t : Token} (ht : t.kind = .end) (hstop : t.kind ∉ terminators blocks) :
    ParseState.begin ⟨blocks, ss, .between⟩ t = .error (.unexpected .statement t) := by
  rw [ht] at hstop
  rw [ParseState.begin, ht]
  match blocks with
  | [] => rfl
  | .yes .. :: _ | .no .. :: _ | .body .. :: _ => simp [terminators] at hstop

theorem begin_else {t : Token} (ht : t.kind = .else) (hstop : t.kind ∉ terminators blocks) :
    ParseState.begin ⟨blocks, ss, .between⟩ t = .error (.unexpected .statement t) := by
  rw [ht] at hstop
  rw [ParseState.begin, ht]
  match blocks with
  | [] | .no .. :: _ | .body .. :: _ => rfl
  | .yes .. :: _ => simp [terminators] at hstop

include ih hlimit

theorem mirrors_otherwise (keyword : Token) (cond : Expr) (yes : List Stmt) :
    Mirrors (fun rest => Within n rest ∧ StopsAt [.end, .else] rest) (otherwise limit)
      ⟨.yes ss keyword cond :: blocks, yes.reverse, .between⟩
      (fun
        | none => ⟨.yes ss keyword cond :: blocks, yes.reverse, .between⟩
        | some no => ⟨.no ss keyword cond yes :: blocks, no.reverse, .between⟩)
      fun _ rest => Within n rest ∧ StopsAt [.end] rest := by
  rintro tokens rest i final h ⟨hn, hends⟩
  obtain ⟨limit, rfl⟩ := Nat.exists_eq_succ_of_ne_zero (show limit ≠ 0 by omega)
  rw [otherwise, bind_of_ok (sees_run h (by decide))]
  by_cases helse : (rest.headD final).kind = .else
  · simp only [helse, List.mem_singleton, decide_true, ↓reduceIte]
    cases rest with
    | nil =>
      rw [List.headD_nil, h.final] at helse
      cases helse
    | cons t rest =>
      rw [List.headD_cons] at helse
      rw [bind_of_ok (advance_run h)]
      have hturn : ParseState.step ⟨.yes ss keyword cond :: blocks, yes.reverse, .between⟩ t =
          .ok ⟨.no ss keyword cond yes :: blocks, [], .between⟩ := by
        simp [ParseState.step, ParseState.settle, ParseState.consume, ParseState.begin, helse, ParseState.turn]
      refine .cons hturn ?_
      have hblock := ih limit (.no ss keyword cond yes :: blocks) [] (by omega)
      exact hblock.bind (fun no => mirrors_pure (by simp) fun _ hrest => hrest) _ _ _ _ h.tail (Nat.le_of_succ_le hn)
  · simp only [helse, List.mem_singleton, decide_false, Bool.false_eq_true, ↓reduceIte]
    refine .reads [] rest rfl rfl ⟨hn, fun t ht => ?_⟩ rfl
    have hkind := hends t ht
    cases rest with
    | nil => cases ht
    | cons u rest =>
      cases Option.some.inj ht
      simpa [show t.kind ≠ .else from helse] using hkind

theorem mirrors_branch (keyword : Token) :
    Mirrors (Within n)
      (do
        let cond ← expression limit .logical
        let _ ← consume .then
        let yes ← block limit [.end, .else]
        let no ← otherwise limit
        let _ ← consume .end
        let _ ← consume .if
        return .branch keyword cond yes no)
      ⟨blocks, ss, .reading (.branch keyword) .empty⟩ (fun stmt => ⟨blocks, stmt :: ss, .between⟩)
      fun _ => Within n := by
  refine (mirrors_expression hlimit (.branch keyword)).bind fun cond => ?_
  refine Mirrors.bind (mirrors_consume (by rintro ⟨⟩) (fun _ => rfl) (by rintro ⟨⟩) fun _ => rfl) fun _ => ?_
  refine Mirrors.bind (ih limit (.yes ss keyword cond :: blocks) [] (by omega)) fun yes => ?_
  rw [List.append_nil]
  refine Mirrors.bind (mirrors_otherwise ih hlimit keyword cond yes) fun no => ?_
  cases no with
  | none =>
    refine Mirrors.bind (mirrors_end fun _ => rfl) fun _ => ?_
    refine Mirrors.bind (mirrors_consume (by rintro ⟨⟩) (fun _ => rfl) (by rintro ⟨⟩) fun _ => rfl) fun _ => ?_
    exact mirrors_pure (by simp [ParseState.add]) fun _ h => h
  | some no =>
    refine Mirrors.bind (mirrors_end fun _ => rfl) fun _ => ?_
    refine Mirrors.bind (mirrors_consume (by rintro ⟨⟩) (fun _ => rfl) (by rintro ⟨⟩) fun _ => rfl) fun _ => ?_
    exact mirrors_pure (by simp [ParseState.add]) fun _ h => h

theorem mirrors_loop (keyword : Token) :
    Mirrors (Within n)
      (do
        let cond ← expression limit .logical
        let _ ← consume .do
        let body ← block limit [.end]
        let _ ← consume .end
        let _ ← consume .while
        return .loop keyword cond body)
      ⟨blocks, ss, .reading (.loop keyword) .empty⟩ (fun stmt => ⟨blocks, stmt :: ss, .between⟩) fun _ => Within n := by
  refine (mirrors_expression hlimit (.loop keyword)).bind fun cond => ?_
  refine Mirrors.bind (mirrors_consume (by rintro ⟨⟩) (fun _ => rfl) (by rintro ⟨⟩) fun _ => rfl) fun _ => ?_
  refine Mirrors.bind (ih limit (.body ss keyword cond :: blocks) [] (by omega)) fun body => ?_
  refine Mirrors.bind (mirrors_end fun _ => rfl) fun _ => ?_
  refine Mirrors.bind (mirrors_consume (by rintro ⟨⟩) (fun _ => rfl) (by rintro ⟨⟩) fun _ => rfl) fun _ => ?_
  exact mirrors_pure (by simp [ParseState.add]) fun _ h => h

/-- A token where a statement has to start. -/
theorem statement_outcome {tokens rest : List Token} {i : Nat} {t final : Token} (h : Ahead tokens i (t :: rest) final)
    (hn : rest.length ≤ n) (hnewline : t.kind ≠ .newline) (hstop : t.kind ∉ terminators blocks) :
    Outcome ⟨blocks, ss, .between⟩ (fun stmt => ⟨blocks, stmt :: ss, .between⟩) (fun _ => Within n) i (t :: rest) final
      (statement (limit + 2) tokens i) := by
  have hmore : 6 * n + 6 ≤ limit + 1 := Nat.le_succ_of_le hlimit
  have hbegin : ParseState.step ⟨blocks, ss, .between⟩ t = ParseState.begin ⟨blocks, ss, .between⟩ t := rfl
  rw [statement, bind_of_ok (peek_run h), List.headD_cons]
  cases ht : t.kind with
  | create => exact (mirrors_create hmore).start ht (by rw [hbegin, ParseState.begin, ht]; rfl) h hn
  | set => exact (mirrors_assign hmore).start ht (by rw [hbegin, ParseState.begin, ht]; rfl) h hn
  | print => exact (mirrors_print hmore t).start ht (by rw [hbegin, ParseState.begin, ht]; rfl) h hn
  | «if» =>
    dsimp only
    rw [branch]
    exact (mirrors_branch ih hlimit t).start ht (by rw [hbegin, ParseState.begin, ht]; rfl) h hn
  | «while» =>
    dsimp only
    rw [loop]
    exact (mirrors_loop ih hlimit t).start ht (by rw [hbegin, ParseState.begin, ht]; rfl) h hn
  | newline => exact absurd ht hnewline
  | «end» => exact .fails (by omega) (ParseState.outcome_cons_error (begin_end ht hstop))
  | «else» => exact .fails (by omega) (ParseState.outcome_cons_error (begin_else ht hstop))
  | _ =>
    refine .fails (by omega) (ParseState.outcome_cons_error ?_)
    rw [hbegin, ParseState.begin, ht]

/-- A token inside a block: a line end or the first one of a statement. -/
theorem block_cons_outcome {tokens rest : List Token} {i : Nat} {t final : Token}
    (h : Ahead tokens i (t :: rest) final) (hn : rest.length ≤ n) (hstop : t.kind ∉ terminators blocks) :
    Outcome ⟨blocks, ss, .between⟩ (fun stmts => ⟨blocks, stmts.reverse ++ ss, .between⟩)
      (fun _ rest => Within n rest ∧ StopsAt (terminators blocks) rest) i (t :: rest) final
      (((do
        if ← sees [.newline] then
          let _ ← advance
          block (limit + 2) (terminators blocks)
        else
          let s ← statement (limit + 2)
          return s :: (← block (limit + 2) (terminators blocks))) : Descent (List Stmt)) tokens i) := by
  rw [bind_of_ok (sees_run h (by decide)), List.headD_cons]
  by_cases hnewline : t.kind = .newline
  · simp only [hnewline, List.mem_singleton, decide_true, ↓reduceIte]
    rw [bind_of_ok (advance_run h)]
    have hskip : ParseState.step ⟨blocks, ss, .between⟩ t = .ok ⟨blocks, ss, .between⟩ := by
      simp only [ParseState.step, ParseState.settle, ParseState.consume, ParseState.begin, hnewline]
    exact .cons hskip (ih _ blocks ss (by omega) _ _ _ _ h.tail hn)
  · simp only [hnewline, List.mem_singleton, decide_false, Bool.false_eq_true, ↓reduceIte]
    have hfirst : Mirrors (fun rest => ∃ t more, rest = t :: more ∧ more.length ≤ n ∧ t.kind ≠ .newline ∧
        t.kind ∉ terminators blocks) (statement (limit + 2)) ⟨blocks, ss, .between⟩
        (fun stmt => ⟨blocks, stmt :: ss, .between⟩) fun _ => Within n := by
      rintro tokens _ i final h ⟨t, more, rfl, hn, hnewline, hstop⟩
      exact statement_outcome ih hlimit h hn hnewline hstop
    refine hfirst.bind (fun stmt => ?_) _ _ _ _ h ⟨t, rest, rfl, hn, hnewline, hstop⟩
    refine (ih _ blocks (stmt :: ss) (by omega)).bind fun stmts => ?_
    exact mirrors_pure (by simp) fun _ hrest => hrest

end Blocks

theorem eof_not_mem_terminators (blocks : List OpenBlock) : .eof ∉ terminators blocks := by
  match blocks with
  | [] | .yes .. :: _ | .no .. :: _ | .body .. :: _ => simp [terminators]

theorem block_nil_outcome (n limit : Nat) (blocks : List OpenBlock) (ss : List Stmt) {tokens : List Token} {i : Nat}
    {final : Token} (h : Ahead tokens i [] final) :
    Outcome ⟨blocks, ss, .between⟩ (fun stmts => ⟨blocks, stmts.reverse ++ ss, .between⟩)
      (fun _ rest => Within n rest ∧ StopsAt (terminators blocks) rest) i [] final
      (block (limit + 1) (terminators blocks) tokens i) := by
  rw [block, bind_of_ok (isAtEnd_run h)]
  exact .reads [] [] rfl rfl ⟨Nat.zero_le n, by rintro t ⟨⟩⟩ rfl

theorem mirrors_block (n : Nat) : BlocksMirror n := by
  induction n with
  | zero =>
    intro limit blocks ss hlimit tokens rest i final h hn
    obtain ⟨limit, rfl⟩ := Nat.exists_eq_add_of_le' hlimit
    cases List.length_eq_zero_iff.mp (Nat.le_zero.mp hn)
    exact block_nil_outcome 0 (limit + 2) blocks ss h
  | succ n ih =>
    intro limit blocks ss hlimit tokens rest i final h hn
    obtain ⟨limit, rfl⟩ := Nat.exists_eq_add_of_le' (show 3 ≤ limit by omega)
    cases rest with
    | nil => exact block_nil_outcome (n + 1) (limit + 2) blocks ss h
    | cons t rest =>
      rw [block, bind_of_ok (isAtEnd_run h)]
      simp only [List.isEmpty_cons, Bool.false_eq_true, ↓reduceIte]
      rw [bind_of_ok (sees_run h (eof_not_mem_terminators blocks)), List.headD_cons]
      by_cases hstop : t.kind ∈ terminators blocks
      · simp only [hstop, decide_true, ↓reduceIte]
        refine .reads [] (t :: rest) rfl rfl ⟨hn, fun u hu => ?_⟩ rfl
        cases Option.some.inj hu
        exact hstop
      · simp only [hstop, decide_false, Bool.false_eq_true, ↓reduceIte]
        refine (block_cons_outcome ih (by omega) h (Nat.le_of_succ_le_succ hn) hstop).imp fun _ _ hrest => ?_
        exact ⟨Nat.le_succ_of_le hrest.1, hrest.2⟩

theorem program_run {tokens rest : List Token} {limit : Nat} {final : Token} (h : Ahead tokens 0 rest final)
    (hlimit : 6 * rest.length + 6 ≤ limit) :
    ∃ i ≤ rest.length,
      program limit tokens 0 = some ((ParseState.outcome .initial rest final).mapError DescentFailure.unfit, i) := by
  generalize hrun : program limit tokens 0 = outcome
  have hblock := mirrors_block rest.length limit [] [] (by omega) _ _ _ _ h (Nat.le_refl _)
  rw [show block limit (terminators []) tokens 0 = outcome from hrun] at hblock
  cases hblock with
  | @reads front back stmts j split goes left reach =>
    -- no token ends a program, so nothing is left
    have hback : back = [] := by
      cases back with
      | nil => rfl
      | cons t back => exact absurd (left.2 t rfl) (by simp [terminators])
    subst hback
    have hfinish : ParseState.outcome ⟨[], stmts.reverse ++ [], .between⟩ [] final = .ok stmts := by
      simp [ParseState.outcome, ParseState.finish, ParseState.settle, Except.bind, pure, Except.pure]
    have houtcome : ParseState.outcome .initial rest final = .ok stmts := goes.trans hfinish
    rw [houtcome]
    refine ⟨j, ?_, rfl⟩
    rw [split, List.length_append, reach]
    omega
  | @fails e j reach breaks =>
    have houtcome : ParseState.outcome .initial rest final = .error e := breaks
    rw [houtcome]
    exact ⟨j, by omega, rfl⟩

end Descent

/-- What reading the rest of the tokens as a whole expression comes to. -/
def WholeExpr.outcome (w : WholeExpr) (rest : List Token) (final : Token) : Except ParseError Expr :=
  (rest.foldlM WholeExpr.step w).bind fun w => w.finish final

namespace WholeExpr

variable {w w' : WholeExpr} {rest : List Token} {t final : Token} {e : ParseError}

theorem outcome_append {front : List Token} (h : front.foldlM step w = .ok w') :
    w.outcome (front ++ rest) final = w'.outcome rest final := by
  rw [outcome, foldlM_append_ok h, outcome]

theorem outcome_of_settle (h : w.settle (rest.headD final) = w'.settle (rest.headD final)) :
    w.outcome rest final = w'.outcome rest final := by
  cases rest with
  | nil =>
    have hfinish : w.finish final = w'.finish final := by
      rw [finish, finish, show w.settle final = w'.settle final from h]
    exact hfinish
  | cons t rest =>
    have hstep : w.step t = w'.step t := by
      rw [step, step, show w.settle t = w'.settle t from h]
    rw [outcome, outcome, List.foldlM_cons, List.foldlM_cons, hstep]

theorem outcome_error {d : Draft} (hfinished : d.finished? (rest.headD final) = none)
    (h : d.step (rest.headD final) = .error e) : (WholeExpr.reading d).outcome rest final = .error e := by
  have hsettle : (WholeExpr.reading d).settle (rest.headD final) = .reading d := by simp only [settle, hfinished]
  cases rest with
  | nil =>
    rw [List.headD_nil] at hsettle h
    have hfinish : (WholeExpr.reading d).finish final = .error e := by
      simp only [finish, hsettle, h]
      rfl
    exact hfinish
  | cons t rest =>
    rw [List.headD_cons] at hsettle h
    have hstep : (WholeExpr.reading d).step t = .error e := by
      simp only [step, hsettle, h]
      rfl
    rw [outcome, List.foldlM_cons, hstep]
    rfl

/-- Behind a complete expression only line ends may follow. -/
theorem outcome_complete {x : Expr} {ns : List Token} (hns : ∀ n ∈ ns, n.kind = .newline) :
    (WholeExpr.complete x).outcome (ns ++ rest) final = (WholeExpr.complete x).outcome rest final := by
  induction ns with
  | nil => rfl
  | cons n ns ih =>
    have hstep : (WholeExpr.complete x).step n = .ok (.complete x) := by
      simp [step, settle, hns n (by simp)]
    rw [List.cons_append, outcome, foldlM_cons_ok hstep]
    exact ih fun m hm => hns m (by simp [hm])

end WholeExpr

theorem Draft.FailsOn.whole {d : Draft} {rest : List Token} {final : Token} {e : ParseError}
    (h : d.FailsOn (rest ++ [final]) e) : (WholeExpr.reading d).outcome rest final = .error e := by
  obtain ⟨front, t, back, last, hsplit, hfront, hfinished, hstep⟩ := h
  obtain ⟨more, rfl, rfl⟩ := append_singleton_split hsplit
  rw [WholeExpr.outcome_append (foldlM_simulates WholeExpr.step_reading hfront)]
  exact WholeExpr.outcome_error hfinished hstep

namespace Descent

theorem newlines_run {tokens rest : List Token} {final : Token} : ∀ {i limit : Nat}, Ahead tokens i rest final →
    rest.length < limit → ∃ ns back, rest = ns ++ back ∧ (∀ n ∈ ns, n.kind = .newline) ∧
      (∀ t ∈ back.head?, t.kind ≠ .newline) ∧ newlines limit tokens i = some (.ok (), i + ns.length) := by
  induction rest with
  | nil =>
    intro i limit h hlimit
    obtain ⟨limit, rfl⟩ := Nat.exists_eq_succ_of_ne_zero (Nat.ne_zero_of_lt hlimit)
    refine ⟨[], [], rfl, by simp, by simp, ?_⟩
    rw [newlines, bind_of_ok (sees_run h (by decide)), List.headD_nil, h.final]
    rfl
  | cons t rest ih =>
    intro i limit h hlimit
    obtain ⟨limit, rfl⟩ := Nat.exists_eq_succ_of_ne_zero (Nat.ne_zero_of_lt hlimit)
    by_cases ht : t.kind = .newline
    · obtain ⟨ns, back, rfl, hns, hback, hrun⟩ := ih h.tail (Nat.lt_of_succ_lt_succ hlimit)
      refine ⟨t :: ns, back, rfl, by simpa [ht] using hns, hback, ?_⟩
      rw [newlines, bind_of_ok (sees_run h (by decide)), List.headD_cons]
      simp only [ht, List.mem_singleton, decide_true, ↓reduceIte]
      rw [bind_of_ok (advance_run h), hrun, List.length_cons, Nat.add_assoc, Nat.add_comm 1]
    · refine ⟨[], t :: rest, rfl, by simp, by simpa using ht, ?_⟩
      rw [newlines, bind_of_ok (sees_run h (by decide)), List.headD_cons]
      simp only [ht, List.mem_singleton, decide_false, Bool.false_eq_true, ↓reduceIte]
      rfl

theorem wholeExpression_run {tokens rest : List Token} {limit : Nat} {final : Token} (h : Ahead tokens 0 rest final)
    (hlimit : 6 * rest.length + 6 ≤ limit) :
    ∃ i ≤ rest.length, wholeExpression limit tokens 0 =
      some (((WholeExpr.reading .empty).outcome rest final).mapError DescentFailure.unfit, i) := by
  unfold wholeExpression
  generalize hrun : expression limit .logical tokens 0 = outcome
  have hexpr := expression_outcome h hlimit
  rw [hrun] at hexpr
  cases hexpr with
  | @fails e j reach fails =>
    have houtcome : (WholeExpr.reading .empty).outcome rest final = .error e := (fails [] [] (by simp)).whole
    rw [bind_of_error hrun, houtcome]
    exact ⟨j, by omega, rfl⟩
  | @reads front back e j split derived loose reach =>
    subst split reach
    obtain ⟨x, inner, hread, hclose, _⟩ := derived.read [] [] (by simp)
    have hsettle : (WholeExpr.reading (.hasOperand x (inner ++ []) [])).settle (back.headD final) =
        (WholeExpr.complete e).settle (back.headD final) := by
      simp only [WholeExpr.settle, Draft.finished?, loose.ofKind, List.append_nil, hclose, Option.isNone_none,
        ↓reduceIte]
    have hfront := foldlM_simulates WholeExpr.step_reading hread
    have hexpression : (WholeExpr.reading .empty).outcome (front ++ back) final =
        (WholeExpr.complete e).outcome back final :=
      (WholeExpr.outcome_append hfront).trans (WholeExpr.outcome_of_settle hsettle)
    rw [List.length_append] at hlimit
    obtain ⟨ns, more, rfl, hns, hmore, hskip⟩ := newlines_run h.drop (show back.length < limit by omega)
    have hend : Ahead tokens (0 + front.length + ns.length) more final := h.drop.drop
    rw [bind_of_ok hrun, bind_of_ok hskip, bind_of_ok (isAtEnd_run hend), hexpression, WholeExpr.outcome_complete hns]
    refine ⟨0 + front.length + ns.length, by simp only [List.length_append]; omega, ?_⟩
    cases more with
    | nil => rfl
    | cons t more =>
      have hstep : (WholeExpr.complete e).step t = .error (.unexpected (.kind .eof) t) := by
        simp [WholeExpr.step, WholeExpr.settle, show t.kind ≠ .newline from hmore t rfl]
      rw [WholeExpr.outcome, List.foldlM_cons, hstep]
      change (peek >>= _) tokens _ = _
      rw [bind_of_ok (peek_run hend)]
      rfl

end Descent

/-- The first end token behind its tokens: it is there, or it is added. -/
theorem withEnd_eq (tokens : List Token) : ∃ more, withEnd tokens = bodyTokens tokens ++ endToken tokens :: more := by
  cases hfind : tokens.find? fun t => t.kind = .eof with
  | some t =>
    obtain ⟨ht, front, back, rfl, hfront⟩ := List.find?_eq_some_iff_append.mp hfind
    have hbody : bodyTokens (front ++ t :: back) = front := by
      unfold bodyTokens
      rw [List.takeWhile_append_of_pos (fun u hu => by simpa using hfront u hu),
        List.takeWhile_cons_of_neg (by simpa using ht), List.append_nil]
    have hend : endToken (front ++ t :: back) = t := by simp only [endToken, hfind]
    rw [hbody, hend, withEnd]
    split
    next last _ =>
      split
      · exact ⟨back, rfl⟩
      · exact ⟨back ++ [Token.endAt ⟨last.pos.line, 1⟩], by simp⟩
    next hnone => simp at hnone
  | none =>
    have hall : ∀ t ∈ tokens, t.kind ≠ .eof := by simpa using List.find?_eq_none.mp hfind
    have hbody : bodyTokens tokens = tokens := by
      have hpos : ∀ t ∈ tokens, decide (t.kind ≠ .eof) = true := by simpa using hall
      simpa [bodyTokens] using @List.takeWhile_append_of_pos _ _ tokens [] hpos
    rw [hbody, endToken, hfind, withEnd]
    refine ⟨[], ?_⟩
    cases hlast : tokens.getLast? with
    | some last => simp [hall last (List.mem_of_getLast? hlast)]
    | none =>
      cases List.getLast?_eq_none_iff.mp hlast
      rfl

theorem bodyTokens_ahead (tokens : List Token) :
    Descent.Ahead (withEnd tokens) 0 (bodyTokens tokens) (endToken tokens) where
  behind := withEnd_eq tokens
  endless := fun t ht => by simpa using List.all_eq_true.mp List.all_takeWhile t ht
  final := endToken_kind tokens

/-- The place of the first end token. -/
def firstEnd (tokens : List Token) : Nat :=
  tokens.findIdx fun t => t.kind = .eof

theorem firstEnd_withEnd (tokens : List Token) : firstEnd (withEnd tokens) = (bodyTokens tokens).length := by
  obtain ⟨more, hmore⟩ := withEnd_eq tokens
  have hbody : (bodyTokens tokens).findIdx (fun t => t.kind = .eof) = (bodyTokens tokens).length :=
    List.findIdx_eq_length_of_false fun t ht => by simpa using (bodyTokens_ahead tokens).endless t ht
  rw [firstEnd, hmore, List.findIdx_append, hbody, if_neg (Nat.lt_irrefl _), List.findIdx_cons]
  simp [endToken_kind]

namespace Grammar

theorem Expression.holeless {rank : Rank} {ts : List Token} {e : Expr} (h : Expression rank ts e) :
    ∀ n ∈ e.walk, n.isHole = false := by
  induction h with
  | number | string | var => simp [Expr.walk, Node.isHole]
  | group _ _ _ ih => exact ih
  | operand _ ih => exact ih
  | operation _ _ _ ihl ihr =>
    intro n hn
    rcases List.mem_cons.mp hn with rfl | hn
    · rfl
    · rcases List.mem_append.mp hn with hn | hn
      · exact ihl n hn
      · exact ihr n hn

mutual

theorem Statement.holeless : ∀ {ts : List Token} {s : Stmt}, Statement ts s → ∀ n ∈ s.walk, n.isHole = false
  | _, _, .create _ _ _ _ _ value, n, hn | _, _, .assign _ _ _ value, n, hn | _, _, .print _ value, n, hn => by
    rcases List.mem_cons.mp hn with rfl | hn
    · rfl
    · exact value.holeless n hn
  | _, _, .branch _ hc _ hy _ _, n, hn => by
    simp only [Stmt.walk, List.mem_cons, List.mem_append, List.not_mem_nil, or_false] at hn
    rcases hn with rfl | hn | hn
    · rfl
    · exact hc.holeless n hn
    · exact Block.holeless hy n hn
  | _, _, .branchElse _ hc _ hy _ ho _ _, n, hn => by
    simp only [Stmt.walk, List.mem_cons, List.mem_append] at hn
    rcases hn with rfl | (hn | hn) | hn
    · rfl
    · exact hc.holeless n hn
    · exact Block.holeless hy n hn
    · exact Block.holeless ho n hn
  | _, _, .loop _ hc _ hb _ _, n, hn => by
    simp only [Stmt.walk, List.mem_cons, List.mem_append] at hn
    rcases hn with rfl | hn | hn
    · rfl
    · exact hc.holeless n hn
    · exact Block.holeless hb n hn

theorem Block.holeless : ∀ {ts : List Token} {ss : List Stmt}, Block ts ss → ∀ n ∈ walkBlock ss, n.isHole = false
  | _, _, .nil, _, hn => nomatch hn
  | _, _, .newline _ rest, n, hn => Block.holeless rest n hn
  | _, _, .statement first rest, n, hn => by
    rcases List.mem_append.mp hn with hn | hn
    · exact Statement.holeless first n hn
    · exact Block.holeless rest n hn

end

end Grammar

/-- For every list of tokens a descent comes to an end, for a program and for an expression: its calls nest no deeper
than six for each token, it stays at the first end token or before it, and it never looks outside the list. Its result
is that of the parser: one error, or a tree without a hole. -/
theorem descent_total (tokens : List Token) :
    (∀ limit ≥ 6 * firstEnd (withEnd tokens) + 6,
        (∃ i ≤ firstEnd (withEnd tokens),
          Descent.program limit (withEnd tokens) 0 = some ((parseProgram tokens).mapError .unfit, i)) ∧
        ∃ i ≤ firstEnd (withEnd tokens),
          Descent.wholeExpression limit (withEnd tokens) 0 = some ((parseExpr tokens).mapError .unfit, i)) ∧
      (∀ p, parseProgram tokens = .ok p → Program.hasHole p = false) ∧
      ∀ e, parseExpr tokens = .ok e → ∀ n ∈ e.walk, n.isHole = false := by
  rw [firstEnd_withEnd]
  refine ⟨fun limit hlimit => ?_, ?_, ?_⟩
  · have hahead := bodyTokens_ahead tokens
    exact ⟨Descent.program_run hahead hlimit, Descent.wholeExpression_run hahead hlimit⟩
  · intro p hp
    have hblock := (parseProgram_derived hp).holeless
    simpa [Program.hasHole, Program.walk, Node.isHole] using hblock
  · intro e he n hn
    obtain ⟨us, ns, _, hexpression, _⟩ := parseExpr_derived he
    exact hexpression.holeless n hn

end EnglishScript
