import EnglishScript.Proofs.NormalForm
import EnglishScript.Tree.Parser

namespace EnglishScript

/-- A change of tokens that the parser does not see. -/
structure Relabels (f : Token → Token) : Prop where
  kind : ∀ t, (f t).kind = t.kind
  number : ∀ t, t.kind = .number → (f t).lexeme = t.lexeme
  string : ∀ t, t.kind = .string → (f t).lexeme = t.lexeme

def Expr.relabel (f : Token → Token) : Expr → Expr
  | .number t value => .number (f t) value
  | .string t value => .string (f t) value
  | .var t => .var (f t)
  | .operation form left op right => .operation form (left.relabel f) (f op) (right.relabel f)
  | .hole => .hole

mutual

def Stmt.relabel (f : Token → Token) : Stmt → Stmt
  | .create name value => .create (f name) (value.relabel f)
  | .assign name value => .assign (f name) (value.relabel f)
  | .print keyword value => .print (f keyword) (value.relabel f)
  | .branch keyword cond yes no =>
    .branch (f keyword) (cond.relabel f) (relabelBlock f yes)
      (match no with
      | none => none
      | some block => some (relabelBlock f block))
  | .loop keyword cond body => .loop (f keyword) (cond.relabel f) (relabelBlock f body)
  | .hole => .hole

def relabelBlock (f : Token → Token) : List Stmt → List Stmt
  | [] => []
  | s :: rest => s.relabel f :: relabelBlock f rest

end

theorem relabelBlock_eq_map (f : Token → Token) (ss : List Stmt) : relabelBlock f ss = ss.map (Stmt.relabel f) := by
  induction ss with
  | nil => rfl
  | cons s rest ih => rw [relabelBlock, ih, List.map_cons]

def Pending.relabel (f : Token → Token) (p : Pending) : Pending :=
  ⟨p.left.relabel f, f p.op, p.level⟩

def Draft.relabel (f : Token → Token) : Draft → Draft
  | .wantsOperand pending outer =>
    .wantsOperand (pending.map (Pending.relabel f)) (outer.map fun ps => ps.map (Pending.relabel f))
  | .hasOperand e pending outer =>
    .hasOperand (e.relabel f) (pending.map (Pending.relabel f)) (outer.map fun ps => ps.map (Pending.relabel f))

def Goal.relabel (f : Token → Token) : Goal → Goal
  | .create name => .create (f name)
  | .assign name => .assign (f name)
  | .print keyword => .print (f keyword)
  | .branch keyword => .branch (f keyword)
  | .loop keyword => .loop (f keyword)

def Progress.relabel (f : Token → Token) : Progress → Progress
  | .between => .between
  | .createVariable => .createVariable
  | .createName => .createName
  | .createWith name => .createWith (f name)
  | .createValue name => .createValue (f name)
  | .assignName => .assignName
  | .assignTo name => .assignTo (f name)
  | .reading goal draft => .reading (goal.relabel f) (draft.relabel f)
  | .branchThen keyword cond => .branchThen (f keyword) (cond.relabel f)
  | .loopDo keyword cond => .loopDo (f keyword) (cond.relabel f)
  | .closing word done => .closing word (done.relabel f)

def OpenBlock.relabel (f : Token → Token) : OpenBlock → OpenBlock
  | .yes before keyword cond => .yes (relabelBlock f before) (f keyword) (cond.relabel f)
  | .no before keyword cond first => .no (relabelBlock f before) (f keyword) (cond.relabel f) (relabelBlock f first)
  | .body before keyword cond => .body (relabelBlock f before) (f keyword) (cond.relabel f)

def ParseState.relabel (f : Token → Token) (s : ParseState) : ParseState :=
  ⟨s.blocks.map (OpenBlock.relabel f), relabelBlock f s.statements, s.progress.relabel f⟩

def ParseError.relabel (f : Token → Token) : ParseError → ParseError
  | .unexpected expected got => .unexpected expected (f got)
  | .invalidNumber token cause => .invalidNumber (f token) cause

/-- A result with its value changed by `g`, or its error with the token changed. -/
def relabelled {α : Type} (f : Token → Token) (g : α → α) : Except ParseError α → Except ParseError α
  | .ok a => .ok (g a)
  | .error e => .error (e.relabel f)

theorem Pending.close_relabel (f : Token → Token) (p : Pending) (e : Expr) :
    (p.relabel f).close (e.relabel f) = (p.close e).relabel f :=
  rfl

theorem Pending.closeAll_relabel (f : Token → Token) (pending : List Pending) (e : Expr) :
    Pending.closeAll (pending.map (Pending.relabel f)) (e.relabel f) = (Pending.closeAll pending e).relabel f := by
  induction pending generalizing e with
  | nil => rfl
  | cons p rest ih =>
    rw [List.map_cons, Pending.closeAll, Pending.close_relabel, ih]
    rfl

theorem Pending.closeTo_relabel (f : Token → Token) (level : Level) (pending : List Pending) (e : Expr) :
    Pending.closeTo level (pending.map (Pending.relabel f)) (e.relabel f) =
      ((Pending.closeTo level pending e).1.map (Pending.relabel f), (Pending.closeTo level pending e).2.relabel f) := by
  induction pending generalizing e with
  | nil => rfl
  | cons p rest ih =>
    have hlevel : (p.relabel f).level = p.level := rfl
    simp only [List.map_cons, Pending.closeTo, hlevel]
    by_cases hle : level.rank ≤ p.level.rank
    · simp only [hle, ↓reduceIte]
      rw [Pending.close_relabel, ih]
    · simp only [hle, ↓reduceIte, List.map_cons]

theorem ParseState.attain_relabel (f : Token → Token) (s : ParseState) (goal : Goal) (e : Expr) :
    (s.relabel f).attain (goal.relabel f) (e.relabel f) = (s.attain goal e).relabel f := by
  cases goal <;> rfl

theorem relabelBlock_reverse (f : Token → Token) (ss : List Stmt) :
    relabelBlock f ss.reverse = (relabelBlock f ss).reverse := by
  rw [relabelBlock_eq_map, relabelBlock_eq_map, List.map_reverse]

theorem ParseState.close_relabel (f : Token → Token) (s : ParseState) (t : Token) :
    (s.relabel f).close (f t) = relabelled f (ParseState.relabel f) (s.close t) := by
  obtain ⟨blocks, ss, progress⟩ := s
  cases blocks with
  | nil => rfl
  | cons b outer =>
    cases b <;>
      simp only [ParseState.close, ParseState.relabel, List.map_cons, OpenBlock.relabel, relabelled, Progress.relabel,
        Stmt.relabel, relabelBlock_reverse]

theorem ParseState.turn_relabel (f : Token → Token) (s : ParseState) (t : Token) :
    (s.relabel f).turn (f t) = relabelled f (ParseState.relabel f) (s.turn t) := by
  obtain ⟨blocks, ss, progress⟩ := s
  cases blocks with
  | nil => rfl
  | cons b outer =>
    cases b with
    | yes before keyword cond =>
      simp only [ParseState.turn, ParseState.relabel, List.map_cons, OpenBlock.relabel, relabelled, Progress.relabel,
        relabelBlock, relabelBlock_reverse]
    | no before keyword cond first => rfl
    | body before keyword cond => rfl

namespace Relabels

variable {f : Token → Token} (hf : Relabels f)
include hf

theorem finished (d : Draft) (t : Token) : (d.relabel f).finished? (f t) = (d.finished? t).map (Expr.relabel f) := by
  cases d with
  | wantsOperand pending outer => rfl
  | hasOperand e pending outer =>
    cases outer with
    | nil =>
      simp only [Draft.relabel, List.map_nil, Draft.finished?, hf.kind, Pending.closeAll_relabel]
      split <;> rfl
    | cons around outer => rfl

theorem readOperand (pending : List Pending) (outer : List (List Pending)) (t : Token) :
    Draft.readOperand (pending.map (Pending.relabel f)) (outer.map fun ps => ps.map (Pending.relabel f)) (f t) =
      relabelled f (Draft.relabel f) (Draft.readOperand pending outer t) := by
  unfold Draft.readOperand
  rw [hf.kind]
  split
  next hk =>
    rw [hf.number t hk]
    split <;> rfl
  next hk =>
    rw [hf.string t hk]
    rfl
  next => rfl
  next => rfl
  next => rfl

theorem readOperator (e : Expr) (pending : List Pending) (outer : List (List Pending)) (t : Token) :
    Draft.readOperator (e.relabel f) (pending.map (Pending.relabel f)) (outer.map fun ps => ps.map (Pending.relabel f))
        (f t) = relabelled f (Draft.relabel f) (Draft.readOperator e pending outer t) := by
  unfold Draft.readOperator
  rw [hf.kind]
  split
  next level hlevel =>
    rw [Pending.closeTo_relabel]
    rfl
  next =>
    cases outer with
    | nil => rfl
    | cons around outer =>
      simp only [List.map_cons]
      split
      next =>
        rw [Pending.closeAll_relabel]
        rfl
      next => rfl

theorem draft_step (d : Draft) (t : Token) : (d.relabel f).step (f t) = relabelled f (Draft.relabel f) (d.step t) := by
  cases d with
  | wantsOperand pending outer => exact hf.readOperand pending outer t
  | hasOperand e pending outer => exact hf.readOperator e pending outer t

theorem settle (s : ParseState) (t : Token) : (s.relabel f).settle (f t) = (s.settle t).relabel f := by
  obtain ⟨blocks, ss, progress⟩ := s
  cases progress with
  | reading goal draft =>
    simp only [ParseState.settle, ParseState.relabel, Progress.relabel, hf.finished]
    cases hd : draft.finished? t with
    | none => rfl
    | some e => exact ParseState.attain_relabel f ⟨blocks, ss, .reading goal draft⟩ goal e
  | _ => rfl

theorem require (kind : Kind) (t : Token) (next : ParseState) :
    ParseState.require kind (f t) (next.relabel f) = relabelled f (ParseState.relabel f) (ParseState.require kind t next) := by
  unfold ParseState.require
  rw [hf.kind]
  split <;> rfl

theorem begin (s : ParseState) (t : Token) :
    (s.relabel f).begin (f t) = relabelled f (ParseState.relabel f) (s.begin t) := by
  unfold ParseState.begin
  rw [hf.kind]
  split
  case h_7 => exact ParseState.close_relabel f s t
  case h_8 => exact ParseState.turn_relabel f s t
  all_goals rfl

theorem consume (s : ParseState) (t : Token) :
    (s.relabel f).consume (f t) = relabelled f (ParseState.relabel f) (s.consume t) := by
  obtain ⟨blocks, ss, progress⟩ := s
  cases progress with
  | between => exact hf.begin ⟨blocks, ss, .between⟩ t
  | reading goal draft =>
    simp only [ParseState.consume, ParseState.relabel, Progress.relabel, hf.draft_step]
    cases draft.step t <;> rfl
  | createVariable => exact hf.require .variable t ⟨blocks, ss, .createName⟩
  | createName => exact hf.require .identifier t ⟨blocks, ss, .createWith t⟩
  | createWith name => exact hf.require .with t ⟨blocks, ss, .createValue name⟩
  | createValue name => exact hf.require .value t ⟨blocks, ss, .reading (.create name) .empty⟩
  | assignName => exact hf.require .identifier t ⟨blocks, ss, .assignTo t⟩
  | assignTo name => exact hf.require .to t ⟨blocks, ss, .reading (.assign name) .empty⟩
  | branchThen keyword cond => exact hf.require .then t ⟨.yes ss keyword cond :: blocks, [], .between⟩
  | loopDo keyword cond => exact hf.require .do t ⟨.body ss keyword cond :: blocks, [], .between⟩
  | closing word done => exact hf.require word t ⟨blocks, done :: ss, .between⟩

theorem step (s : ParseState) (t : Token) :
    (s.relabel f).step (f t) = relabelled f (ParseState.relabel f) (s.step t) := by
  rw [ParseState.step, hf.settle, hf.consume]
  rfl

theorem finish (s : ParseState) (t : Token) :
    (s.relabel f).finish (f t) = relabelled f (relabelBlock f) (s.finish t) := by
  unfold ParseState.finish
  rw [hf.settle]
  obtain ⟨blocks, ss, progress⟩ := s.settle t
  have hconsume := hf.consume ⟨blocks, ss, progress⟩ t
  cases progress with
  | between =>
    cases blocks with
    | nil => exact congrArg Except.ok (relabelBlock_reverse f ss).symm
    | cons b outer => rfl
  | _ =>
    simp only [ParseState.relabel, Progress.relabel] at hconsume ⊢
    rw [hconsume]
    cases ParseState.consume _ t <;> rfl

theorem foldlM (tokens : List Token) (s : ParseState) :
    (tokens.map f).foldlM ParseState.step (s.relabel f) =
      relabelled f (ParseState.relabel f) (tokens.foldlM ParseState.step s) := by
  induction tokens generalizing s with
  | nil => rfl
  | cons t rest ih =>
    rw [List.map_cons, List.foldlM_cons, List.foldlM_cons, hf.step]
    cases s.step t with
    | error e => rfl
    | ok s' => exact ih s'

/-- The tokens up to the end token decide the tree, and only by what the parser sees of them. -/
theorem foldlM_finish (tokens : List Token) (final : Token) (s : ParseState) :
    (((tokens.map f).foldlM ParseState.step (s.relabel f)).bind fun s => s.finish (f final)) =
      relabelled f (relabelBlock f) ((tokens.foldlM ParseState.step s).bind fun s => s.finish final) := by
  rw [hf.foldlM]
  cases tokens.foldlM ParseState.step s with
  | error e => rfl
  | ok s' => exact hf.finish s' final

end Relabels

/-- The change leaves what the normal form of a node shows of its tokens: a name, or the symbol of an operation. -/
def Node.Keeps (f : Token → Token) : Node → Prop
  | .stmt (.create name _) => (f name).lexeme = name.lexeme
  | .stmt (.assign name _) => (f name).lexeme = name.lexeme
  | .expr (.var name) => (f name).lexeme = name.lexeme
  | .expr (.operation form _ op _) => form.symbol (f op) = form.symbol op
  | _ => True

section KeepsKinds

-- the number of a node is in the tree, so a change may touch its lexeme
variable {f : Token → Token}

theorem Token.bare_relabel (hf : ∀ t, (f t).kind = t.kind) (t : Token) (lexeme : Text) :
    (f t).bare lexeme = t.bare lexeme := by
  simp only [Token.bare, hf]

theorem Expr.bare_relabel (hf : ∀ t, (f t).kind = t.kind) {e : Expr} (h : ∀ n ∈ e.walk, n.Keeps f) :
    (e.relabel f).bare = e.bare := by
  induction e with
  | number t value => simp only [Expr.relabel, Expr.bare, Token.bare_relabel hf]
  | string t value => simp only [Expr.relabel, Expr.bare, Token.bare_relabel hf]
  | var name =>
    have hname : (f name).lexeme = name.lexeme := h _ (List.mem_cons_self ..)
    simp only [Expr.relabel, Expr.bare, Token.bare_relabel hf, hname]
  | operation form left op right ihl ihr =>
    simp only [Expr.walk, List.forall_mem_cons, List.forall_mem_append] at h
    obtain ⟨hop, hleft, hright⟩ := h
    have hsymbol : form.symbol (f op) = form.symbol op := hop
    simp only [Expr.relabel, Expr.bare, Token.bare_relabel hf, hsymbol, ihl hleft, ihr hright]
  | hole => rfl

mutual

theorem Stmt.bare_relabel (hf : ∀ t, (f t).kind = t.kind) : ∀ {s : Stmt}, (∀ n ∈ s.walk, n.Keeps f) →
    (s.relabel f).bare = s.bare
  | .create name value, h => by
    obtain ⟨hname, hvalue⟩ := List.forall_mem_cons.mp h
    have hlexeme : (f name).lexeme = name.lexeme := hname
    simp only [Stmt.relabel, Stmt.bare, Token.bare_relabel hf, hlexeme, Expr.bare_relabel hf hvalue]
  | .assign name value, h => by
    obtain ⟨hname, hvalue⟩ := List.forall_mem_cons.mp h
    have hlexeme : (f name).lexeme = name.lexeme := hname
    simp only [Stmt.relabel, Stmt.bare, Token.bare_relabel hf, hlexeme, Expr.bare_relabel hf hvalue]
  | .print keyword value, h => by
    simp only [Stmt.relabel, Stmt.bare, Token.bare_relabel hf, Expr.bare_relabel hf (List.forall_mem_cons.mp h).2]
  | .branch keyword cond yes none, h => by
    simp only [Stmt.walk, List.append_nil, List.forall_mem_cons, List.forall_mem_append] at h
    obtain ⟨_, hcond, hyes⟩ := h
    simp only [Stmt.relabel, Stmt.bare, Token.bare_relabel hf, Expr.bare_relabel hf hcond, bareBlock_relabel hf hyes]
  | .branch keyword cond yes (some []), h => by
    simp only [Stmt.walk, List.forall_mem_cons, List.forall_mem_append] at h
    obtain ⟨_, ⟨hcond, hyes⟩, _⟩ := h
    simp only [Stmt.relabel, relabelBlock, Stmt.bare, Token.bare_relabel hf, Expr.bare_relabel hf hcond,
      bareBlock_relabel hf hyes]
  | .branch keyword cond yes (some (s :: rest)), h => by
    simp only [Stmt.walk, List.forall_mem_cons, List.forall_mem_append] at h
    obtain ⟨_, ⟨hcond, hyes⟩, hno⟩ := h
    have hsecond := bareBlock_relabel hf hno
    simp only [relabelBlock] at hsecond
    simp only [Stmt.relabel, relabelBlock, Stmt.bare, Token.bare_relabel hf, Expr.bare_relabel hf hcond,
      bareBlock_relabel hf hyes, hsecond]
  | .loop keyword cond body, h => by
    simp only [Stmt.walk, List.forall_mem_cons, List.forall_mem_append] at h
    obtain ⟨_, hcond, hbody⟩ := h
    simp only [Stmt.relabel, Stmt.bare, Token.bare_relabel hf, Expr.bare_relabel hf hcond, bareBlock_relabel hf hbody]
  | .hole, _ => rfl

/-- A changed block has the normal form of the block if every node keeps what its normal form shows. -/
theorem bareBlock_relabel (hf : ∀ t, (f t).kind = t.kind) : ∀ {ss : List Stmt}, (∀ n ∈ walkBlock ss, n.Keeps f) →
    bareBlock (relabelBlock f ss) = bareBlock ss
  | [], _ => rfl
  | s :: rest, h => by
    obtain ⟨hfirst, hrest⟩ := List.forall_mem_append.mp h
    simp only [relabelBlock, bareBlock, Stmt.bare_relabel hf hfirst, bareBlock_relabel hf hrest]

end

end KeepsKinds

/-- A change of tokens that leaves all but their places. -/
structure Moves (f : Token → Token) : Prop where
  kind : ∀ t, (f t).kind = t.kind
  lexeme : ∀ t, (f t).lexeme = t.lexeme

namespace Moves

variable {f : Token → Token}

theorem relabels (hf : Moves f) : Relabels f :=
  ⟨hf.kind, fun t _ => hf.lexeme t, fun t _ => hf.lexeme t⟩

theorem keeps (hf : Moves f) (n : Node) : n.Keeps f := by
  unfold Node.Keeps
  split
  next => exact hf.lexeme _
  next => exact hf.lexeme _
  next => exact hf.lexeme _
  next => simp only [Form.symbol, hf.kind, hf.lexeme]
  next => trivial

theorem bare_block (hf : Moves f) (ss : List Stmt) : bareBlock (relabelBlock f ss) = bareBlock ss :=
  bareBlock_relabel hf.kind fun n _ => hf.keeps n

theorem python_block (hf : Moves f) (depth : Nat) (ss : List Stmt) :
    pythonBlock depth (relabelBlock f ss) = pythonBlock depth ss := by
  rw [← pythonBlock_bare, hf.bare_block, pythonBlock_bare]

end Moves

end EnglishScript
