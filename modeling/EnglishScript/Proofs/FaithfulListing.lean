import EnglishScript.Proofs.DecimalText
import EnglishScript.Proofs.Layout
import EnglishScript.Proofs.RoundTrip
import EnglishScript.Tree.Listing

namespace EnglishScript

/-- The token as far as a listing shows it: without its place, and without its spelling if it is a keyword or a number. -/
def Token.shown (t : Token) : Token :=
  if t.kind = .number then ⟨.number, [], ⟨0, 0⟩⟩ else t.word

theorem Token.shown_kind (t : Token) : t.shown.kind = t.kind := by
  unfold Token.shown
  split
  next h => exact h.symm
  next => rfl

theorem Token.shown_of_ne {t : Token} (h : t.kind ≠ .number) : t.shown = t.word :=
  if_neg h

theorem Token.shown_eq {t u : Token} {kind : Kind} (ht : t.kind = kind) (hu : u.kind = kind)
    (h : kind.isOpen = true → kind ≠ .number → t.lexeme = u.lexeme) : t.shown = u.shown := by
  by_cases hnumber : kind = .number
  · rw [Token.shown, Token.shown, if_pos (ht.trans hnumber), if_pos (hu.trans hnumber)]
  · rw [Token.shown_of_ne (ht ▸ hnumber), Token.shown_of_ne (hu ▸ hnumber), Token.word_eq_iff]
    exact ⟨ht.trans hu.symm, fun hopen => h (ht ▸ hopen) hnumber⟩

theorem Token.shown_closed {t u : Token} {kind : Kind} (hclosed : kind.isOpen = false) (ht : t.Is kind) (hu : u.Is kind) :
    t.shown = u.shown :=
  Token.shown_eq ht.1 hu.1 fun hopen => absurd hopen (by simp [hclosed])

theorem Form.operators_closed (form : Form) : ∀ kind ∈ form.operators, kind.isOpen = false := by
  cases form <;> decide

/-- Programs that differ only in the places of their tokens and in the spellings of keywords and numbers. -/
def Program.Alike (p q : Program) : Prop :=
  relabelBlock Token.shown p = relabelBlock Token.shown q

namespace Listing

/-- Texts that end where a byte of another class stands are told apart by what they are part of. -/
theorem append_inj_stop {c : UInt8 → Bool} {s t u v : Text} (hs : ∀ b ∈ s, c b = true) (ht : ∀ b ∈ t, c b = true)
    (hu : ∀ b ∈ u.head?, c b = false) (hv : ∀ b ∈ v.head?, c b = false) (h : s ++ u = t ++ v) : s = t ∧ u = v := by
  have htake := congrArg (List.takeWhile c) h
  rw [ReadBack.takeWhile_append_stop hs hu, ReadBack.takeWhile_append_stop ht hv] at htake
  subst htake
  exact ⟨rfl, List.append_cancel_left h⟩

/-- The parts with a space in front of each. -/
def tail (parts : List Text) : Text :=
  parts.flatMap (Text.space :: ·)

theorem tail_cons (t : Text) (parts : List Text) : tail (t :: parts) = Text.space :: (t ++ tail parts) :=
  rfl

theorem join_space (t : Text) (parts : List Text) : Text.join (utf8 " ") (t :: parts) = t ++ tail parts := by
  induction parts generalizing t with
  | nil => simp [Text.join, tail]
  | cons u parts ih =>
    rw [Text.join, ih, tail_cons, List.append_assoc]
    rfl

/-- A group is its parts between parentheses if none of them is empty. -/
theorem group_cons {t : Text} {parts : List Text} (ht : t ≠ []) (h : ∀ p ∈ parts, p ≠ []) :
    group (t :: parts) = 40 :: (t ++ (tail parts ++ [41])) := by
  have hfilter : (t :: parts).filter (fun p => !p.isEmpty) = t :: parts :=
    List.filter_eq_self.mpr (List.forall_mem_cons.mpr ⟨by simpa using ht, fun p hp => by simpa using h p hp⟩)
  rw [group, spaced, hfilter, join_space]
  simp only [List.append_assoc]
  rfl

theorem group_ne_nil (parts : List Text) : group parts ≠ [] :=
  List.cons_ne_nil _ _

theorem ends_space (rest : Text) : ReadBack.Ends (Text.space :: rest) :=
  ReadBack.ends_space rest

theorem ends_close (rest : Text) : ReadBack.Ends (41 :: rest) :=
  ReadBack.ends_close rest

theorem space_stops (rest : Text) : ∀ b ∈ (Text.space :: rest).head?, (b != Text.space) = false := by
  rintro _ ⟨⟩
  rfl

/-- The kinds of expressions that listings tell apart by their first byte. -/
inductive Shape where
  | number
  | string
  | name
  | operation
  deriving DecidableEq

/-- The kind of expression whose listing starts with the byte. -/
def shapeOf (b : UInt8) : Shape :=
  if Text.isDigit b then .number else if b = Text.quote then .string else if b = 40 then .operation else .name

def shape? : Expr → Option Shape
  | .number _ _ => some .number
  | .string _ _ => some .string
  | .var _ => some .name
  | .operation _ _ _ _ => some .operation
  | .hole => none

theorem shape?_listing {e : Expr} (h : e.Sourced) (rest : Text) : (e.listing ++ rest).head?.map shapeOf = shape? e := by
  cases e with
  | number t value =>
    obtain ⟨b, hread, hpos⟩ := Text.IsNumeral.reading h.1.2 h.2
    obtain ⟨_, d, more, htext, hd⟩ := listingFloat_digits hread hpos
    simp [Expr.listing, htext, shapeOf, hd, shape?]
  | string t value => rfl
  | var t =>
    obtain ⟨c, more, hlexeme, hc, _⟩ := h.2.1
    have hquote : c ≠ Text.quote := by rintro rfl; exact absurd hc (by decide)
    have hopen : c ≠ 40 := by rintro rfl; exact absurd hc (by decide)
    simp [Expr.listing, hlexeme, shapeOf, Text.isDigit_of_isAlpha hc, hquote, hopen, shape?]
  | operation form left op right => rfl
  | hole => exact h.elim

theorem listing_ne_nil {e : Expr} (h : e.Sourced) : e.listing ≠ [] := by
  intro hnil
  have hshape := shape?_listing h []
  rw [hnil] at hshape
  cases e with
  | hole => exact h
  | _ => cases hshape

theorem symbol_spaceless {form : Form} {op : Token} {kind : Kind} (hk : kind ∈ form.operators) (hop : op.Is kind) :
    form.symbol op ≠ [] ∧ ∀ b ∈ form.symbol op, (b != Text.space) = true := by
  have hall : (ReadBack.operators.all fun x => !x.1.isEmpty && x.1.all (· != Text.space)) = true := by decide
  have hboth := List.all_eq_true.mp hall _ (ReadBack.symbol_mem_operators hk hop)
  rw [Bool.and_eq_true, Bool.not_eq_true', List.isEmpty_eq_false_iff] at hboth
  exact ⟨hboth.1, List.all_eq_true.mp hboth.2⟩

/-- Operators with the same symbol are of the same form and kind. -/
theorem symbol_inj {form form' : Form} {op op' : Token} {kind kind' : Kind} (hk : kind ∈ form.operators)
    (hop : op.Is kind) (hk' : kind' ∈ form'.operators) (hop' : op'.Is kind')
    (h : form.symbol op = form'.symbol op') : form = form' ∧ kind = kind' := by
  have hlookup : ∀ x ∈ ReadBack.operators, ReadBack.operators.lookup x.1 = some x.2 := by decide
  have hfirst := hlookup _ (ReadBack.symbol_mem_operators hk hop)
  have hsecond := hlookup _ (ReadBack.symbol_mem_operators hk' hop')
  simp only [h, hop.1, hop'.1] at hfirst hsecond
  exact Prod.mk.inj (Option.some.inj (hfirst.symm.trans hsecond))

theorem listing_operation {form : Form} {left right : Expr} {op : Token} (h : (Expr.operation form left op right).Sourced)
    (rest : Text) :
    (Expr.operation form left op right).listing ++ rest =
      40 :: (form.symbol op ++ Text.space :: (left.listing ++ Text.space :: (right.listing ++ 41 :: rest))) := by
  obtain ⟨hl, ⟨kind, hk, hop⟩, hr⟩ := h
  have hparts : ∀ p ∈ [left.listing, right.listing], p ≠ [] := by
    simp [listing_ne_nil hl, listing_ne_nil hr]
  rw [Expr.listing, group_cons (symbol_spaceless hk hop).1 hparts]
  simp [tail]

theorem number_inj {t t' : Token} {value value' : Float} (h : (Expr.number t value).Sourced)
    (h' : (Expr.number t' value').Sourced) {rest rest' : Text} (hrest : ReadBack.Ends rest) (hrest' : ReadBack.Ends rest')
    (heq : listingFloat value ++ rest = listingFloat value' ++ rest') : value = value' ∧ rest = rest' := by
  obtain ⟨b, hread, hpos⟩ := Text.IsNumeral.reading h.1.2 h.2
  obtain ⟨b', hread', hpos'⟩ := Text.IsNumeral.reading h'.1.2 h'.2
  obtain ⟨htext, hrests⟩ := append_inj_stop (listingFloat_digits hread hpos).1 (listingFloat_digits hread' hpos').1
    (fun b hb => (hrest b hb).2) (fun b hb => (hrest' b hb).2) heq
  exact ⟨listingFloat_inj hread hpos hread' hpos' htext, hrests⟩

theorem string_inj {t t' : Token} (h : t.Is .string) (h' : t'.Is .string) {rest rest' : Text}
    (heq : t.lexeme ++ Text.quote :: rest = t'.lexeme ++ Text.quote :: rest') : t.lexeme = t'.lexeme ∧ rest = rest' := by
  have hinside {t : Token} (h : t.Is .string) : ∀ b ∈ t.lexeme, (b != Text.quote) = true := fun b hb =>
    bne_iff_ne.mpr fun hb' => h.quote_not_mem (hb' ▸ hb)
  have hquote (rest : Text) : ∀ b ∈ (Text.quote :: rest).head?, (b != Text.quote) = false := by
    rintro _ ⟨⟩
    rfl
  obtain ⟨hlexeme, hrests⟩ := append_inj_stop (hinside h) (hinside h') (hquote rest) (hquote rest') heq
  exact ⟨hlexeme, (List.cons.inj hrests).2⟩

theorem name_inj {t t' : Token} (h : t.Is .identifier) (h' : t'.Is .identifier) {rest rest' : Text}
    (hrest : ReadBack.Ends rest) (hrest' : ReadBack.Ends rest') (heq : t.lexeme ++ rest = t'.lexeme ++ rest') :
    t.shown = t'.shown ∧ rest = rest' := by
  obtain ⟨hlexeme, hrests⟩ := append_inj_stop (ReadBack.isWord_lexeme h) (ReadBack.isWord_lexeme h')
    (fun b hb => (hrest b hb).1) (fun b hb => (hrest' b hb).1) heq
  exact ⟨Token.shown_eq h.1 h'.1 fun _ _ => hlexeme, hrests⟩

theorem shape?_eq {e e' : Expr} (h : e.Sourced) (h' : e'.Sourced) {rest rest' : Text}
    (heq : e.listing ++ rest = e'.listing ++ rest') : shape? e = shape? e' := by
  rw [← shape?_listing h rest, heq, shape?_listing h']

/-- The listing of an expression determines the expression and where it ends. -/
theorem expr_inj {e : Expr} (h : e.Sourced) : ∀ {e' : Expr} {rest rest' : Text}, e'.Sourced → ReadBack.Ends rest →
    ReadBack.Ends rest' → e.listing ++ rest = e'.listing ++ rest' →
    e.relabel Token.shown = e'.relabel Token.shown ∧ rest = rest' := by
  induction e with
  | number t value =>
    intro e' rest rest' h' hrest hrest' heq
    have hshape := shape?_eq h h' heq
    cases e' with
    | number t' value' =>
      obtain ⟨rfl, hrests⟩ := number_inj h h' hrest hrest' heq
      have htoken : t.shown = t'.shown := Token.shown_eq h.1.1 h'.1.1 fun _ hne => absurd rfl hne
      exact ⟨by rw [Expr.relabel, Expr.relabel, htoken], hrests⟩
    | _ => cases hshape
  | string t value =>
    intro e' rest rest' h' hrest hrest' heq
    have hshape := shape?_eq h h' heq
    cases e' with
    | string t' value' =>
      obtain ⟨ht, rfl⟩ := h
      obtain ⟨ht', rfl⟩ := h'
      simp only [Expr.listing, List.append_assoc, List.singleton_append] at heq
      obtain ⟨hlexeme, hrests⟩ := string_inj ht ht' (List.cons.inj heq).2
      have htoken : t.shown = t'.shown := Token.shown_eq ht.1 ht'.1 fun _ _ => hlexeme
      exact ⟨by rw [Expr.relabel, Expr.relabel, htoken, hlexeme], hrests⟩
    | _ => cases hshape
  | var t =>
    intro e' rest rest' h' hrest hrest' heq
    have hshape := shape?_eq h h' heq
    cases e' with
    | var t' =>
      obtain ⟨htoken, hrests⟩ := name_inj h h' hrest hrest' heq
      exact ⟨by rw [Expr.relabel, Expr.relabel, htoken], hrests⟩
    | _ => cases hshape
  | operation form left op right ihl ihr =>
    intro e' rest rest' h' hrest hrest' heq
    have hshape := shape?_eq h h' heq
    cases e' with
    | operation form' left' op' right' =>
      rw [listing_operation h, listing_operation h'] at heq
      obtain ⟨hl, ⟨kind, hk, hop⟩, hr⟩ := h
      obtain ⟨hl', ⟨kind', hk', hop'⟩, hr'⟩ := h'
      obtain ⟨hsymbol, hleft⟩ := append_inj_stop (symbol_spaceless hk hop).2 (symbol_spaceless hk' hop').2
        (space_stops _) (space_stops _) (List.cons.inj heq).2
      obtain ⟨rfl, rfl⟩ := symbol_inj hk hop hk' hop' hsymbol
      obtain ⟨hleft, hright⟩ := ihl hl hl' (ends_space _) (ends_space _) (List.cons.inj hleft).2
      obtain ⟨hright, hrests⟩ := ihr hr hr' (ends_close _) (ends_close _) (List.cons.inj hright).2
      have htoken : op.shown = op'.shown := Token.shown_closed (form.operators_closed _ hk) hop hop'
      exact ⟨by rw [Expr.relabel, Expr.relabel, hleft, htoken, hright], (List.cons.inj hrests).2⟩
    | _ => cases hshape
  | hole => exact h.elim

theorem ends_tail (parts : List Text) (rest : Text) : ReadBack.Ends (tail parts ++ 41 :: rest) := by
  cases parts with
  | nil => exact ends_close rest
  | cons t parts => exact ends_space _

/-- A group determines the word that it starts with. -/
theorem group_inj {w w' : Text} {parts parts' : List Text} (hw : w.all Text.isWord && !w.isEmpty)
    (hw' : w'.all Text.isWord && !w'.isEmpty) (h : ∀ p ∈ parts, p ≠ []) (h' : ∀ p ∈ parts', p ≠ []) {rest rest' : Text}
    (heq : group (w :: parts) ++ rest = group (w' :: parts') ++ rest') :
    w = w' ∧ tail parts ++ 41 :: rest = tail parts' ++ 41 :: rest' := by
  rw [Bool.and_eq_true, Bool.not_eq_true', List.isEmpty_eq_false_iff] at hw hw'
  rw [group_cons hw.2 h, group_cons hw'.2 h'] at heq
  simp only [List.cons_append, List.append_assoc, List.nil_append] at heq
  exact append_inj_stop (List.all_eq_true.mp hw.1) (List.all_eq_true.mp hw'.1) (fun b hb => (ends_tail parts rest b hb).1)
    (fun b hb => (ends_tail parts' rest' b hb).1) (List.cons.inj heq).2

/-- The word that the listing of a statement starts with. -/
def heading : Stmt → Text
  | .create _ _ => utf8 "create"
  | .assign _ _ => utf8 "set"
  | .print _ _ => utf8 "print"
  | .branch _ _ _ _ => utf8 "if"
  | .loop _ _ _ => utf8 "while"
  | .hole => []

/-- The parts of the listing of a statement behind its first word. -/
def details : Stmt → List Text
  | .create name value => [name.lexeme, value.listing]
  | .assign name value => [name.lexeme, value.listing]
  | .print _ value => [value.listing]
  | .branch _ cond yes none => [cond.listing, group (utf8 "then" :: listBlock yes)]
  | .branch _ cond yes (some no) =>
    [cond.listing, group (utf8 "then" :: listBlock yes), group (utf8 "else" :: listBlock no)]
  | .loop _ cond body => [cond.listing, group (utf8 "do" :: listBlock body)]
  | .hole => []

theorem listing_eq {s : Stmt} (h : s.Sourced) : s.listing = group (heading s :: details s) := by
  cases s with
  | branch keyword cond yes no => cases no <;> rfl
  | hole => exact h.elim
  | _ => rfl

theorem name_ne_nil {t : Token} (h : t.Is .identifier) : t.lexeme ≠ [] := by
  obtain ⟨c, more, hlexeme, _⟩ := h.2.1
  rw [hlexeme]
  exact List.cons_ne_nil c more

theorem details_ne_nil {s : Stmt} (h : s.Sourced) : ∀ p ∈ details s, p ≠ [] := by
  cases s with
  | create name value => simp [details, name_ne_nil h.1, listing_ne_nil h.2]
  | assign name value => simp [details, name_ne_nil h.1, listing_ne_nil h.2]
  | print keyword value => simp [details, listing_ne_nil h.2]
  | branch keyword cond yes no =>
    cases no <;> simp [details, listing_ne_nil h.2.1, group_ne_nil]
  | loop keyword cond body => simp [details, listing_ne_nil h.2.1, group_ne_nil]
  | hole => exact h.elim

theorem heading_word {s : Stmt} (h : s.Sourced) : ((heading s).all Text.isWord && !(heading s).isEmpty) = true := by
  cases s with
  | hole => exact h.elim
  | _ => rfl

theorem stmt_ne_nil {s : Stmt} (h : s.Sourced) : s.listing ≠ [] := by
  rw [listing_eq h]
  exact group_ne_nil _

theorem listBlock_ne_nil {ss : List Stmt} (h : BlockSourced ss) : ∀ p ∈ listBlock ss, p ≠ [] := by
  induction ss with
  | nil => simp [listBlock]
  | cons s rest ih => exact List.forall_mem_cons.mpr ⟨stmt_ne_nil h.1, ih h.2⟩

/-- Statements whose listings start alike are of one kind, and their parts are listed alike. -/
theorem details_eq {s s' : Stmt} (h : s.Sourced) (h' : s'.Sourced) {rest rest' : Text}
    (heq : s.listing ++ rest = s'.listing ++ rest') :
    heading s = heading s' ∧ tail (details s) ++ 41 :: rest = tail (details s') ++ 41 :: rest' := by
  rw [listing_eq h, listing_eq h'] at heq
  exact group_inj (heading_word h) (heading_word h') (details_ne_nil h) (details_ne_nil h') heq

/-- The listing of a value at the end of a statement determines the value. -/
theorem value_inj {e e' : Expr} (h : e.Sourced) (h' : e'.Sourced) {rest rest' : Text}
    (heq : tail [e.listing] ++ 41 :: rest = tail [e'.listing] ++ 41 :: rest') :
    e.relabel Token.shown = e'.relabel Token.shown ∧ rest = rest' := by
  simp only [tail_cons, List.cons_append, List.append_assoc] at heq
  obtain ⟨hvalue, hrests⟩ := expr_inj h h' (ends_tail [] rest) (ends_tail [] rest') (List.cons.inj heq).2
  exact ⟨hvalue, (List.cons.inj hrests).2⟩

/-- The listings of a name and a value determine both. -/
theorem named_inj {name name' : Token} {e e' : Expr} (hname : name.Is .identifier) (hname' : name'.Is .identifier)
    (h : e.Sourced) (h' : e'.Sourced) {rest rest' : Text}
    (heq : tail [name.lexeme, e.listing] ++ 41 :: rest = tail [name'.lexeme, e'.listing] ++ 41 :: rest') :
    name.shown = name'.shown ∧ e.relabel Token.shown = e'.relabel Token.shown ∧ rest = rest' := by
  rw [tail_cons, tail_cons name'.lexeme, List.cons_append, List.cons_append, List.append_assoc, List.append_assoc] at heq
  obtain ⟨hshown, hvalue⟩ := name_inj hname hname' (ends_tail _ rest) (ends_tail _ rest') (List.cons.inj heq).2
  exact ⟨hshown, value_inj h h' hvalue⟩

/-- What a listing of a block is required to determine. -/
def Determines (ss ss' : List Stmt) : Prop :=
  ∀ {rest rest' : Text}, tail (listBlock ss) ++ 41 :: rest = tail (listBlock ss') ++ 41 :: rest' →
    relabelBlock Token.shown ss = relabelBlock Token.shown ss' ∧ rest = rest'

theorem word_block_inj {w : Text} (hw : (w.all Text.isWord && !w.isEmpty) = true) {ss ss' : List Stmt}
    (h : BlockSourced ss) (h' : BlockSourced ss') (hblock : Determines ss ss') {rest rest' : Text}
    (heq : group (w :: listBlock ss) ++ rest = group (w :: listBlock ss') ++ rest') :
    relabelBlock Token.shown ss = relabelBlock Token.shown ss' ∧ rest = rest' :=
  hblock (group_inj hw hw (listBlock_ne_nil h) (listBlock_ne_nil h') heq).2

/-- The listings of a condition and a block determine both, whatever parts are behind them. -/
theorem guarded_inj {w : Text} (hw : (w.all Text.isWord && !w.isEmpty) = true) {e e' : Expr} (h : e.Sourced)
    (h' : e'.Sourced) {ss ss' : List Stmt} (hss : BlockSourced ss) (hss' : BlockSourced ss') (hblock : Determines ss ss')
    {parts parts' : List Text} {rest rest' : Text}
    (heq : tail (e.listing :: group (w :: listBlock ss) :: parts) ++ 41 :: rest =
      tail (e'.listing :: group (w :: listBlock ss') :: parts') ++ 41 :: rest') :
    e.relabel Token.shown = e'.relabel Token.shown ∧ relabelBlock Token.shown ss = relabelBlock Token.shown ss' ∧
      tail parts ++ 41 :: rest = tail parts' ++ 41 :: rest' := by
  rw [tail_cons, tail_cons e'.listing, List.cons_append, List.cons_append, List.append_assoc, List.append_assoc] at heq
  obtain ⟨hcond, hparts⟩ := expr_inj h h' (ends_tail _ rest) (ends_tail _ rest') (List.cons.inj heq).2
  rw [tail_cons, tail_cons, List.cons_append, List.cons_append, List.append_assoc, List.append_assoc] at hparts
  exact ⟨hcond, word_block_inj hw hss hss' hblock (List.cons.inj hparts).2⟩

mutual

theorem stmt_inj : ∀ {s s' : Stmt}, s.Sourced → s'.Sourced → ∀ {rest rest' : Text},
    s.listing ++ rest = s'.listing ++ rest' → s.relabel Token.shown = s'.relabel Token.shown ∧ rest = rest'
  | .create name value, s', h, h', rest, rest', heq => by
    obtain ⟨hheading, hdetails⟩ := details_eq h h' heq
    cases s' with
    | create name' value' =>
      obtain ⟨hname, hvalue, hrests⟩ := named_inj h.1 h'.1 h.2 h'.2 hdetails
      exact ⟨by rw [Stmt.relabel, Stmt.relabel, hname, hvalue], hrests⟩
    | _ => exact absurd hheading (by simp only [heading]; decide)
  | .assign name value, s', h, h', rest, rest', heq => by
    obtain ⟨hheading, hdetails⟩ := details_eq h h' heq
    cases s' with
    | assign name' value' =>
      obtain ⟨hname, hvalue, hrests⟩ := named_inj h.1 h'.1 h.2 h'.2 hdetails
      exact ⟨by rw [Stmt.relabel, Stmt.relabel, hname, hvalue], hrests⟩
    | _ => exact absurd hheading (by simp only [heading]; decide)
  | .print keyword value, s', h, h', rest, rest', heq => by
    obtain ⟨hheading, hdetails⟩ := details_eq h h' heq
    cases s' with
    | print keyword' value' =>
      obtain ⟨hvalue, hrests⟩ := value_inj h.2 h'.2 hdetails
      have hkeyword : keyword.shown = keyword'.shown := Token.shown_closed rfl h.1 h'.1
      exact ⟨by rw [Stmt.relabel, Stmt.relabel, hkeyword, hvalue], hrests⟩
    | _ => exact absurd hheading (by simp only [heading]; decide)
  | .branch keyword cond yes none, s', h, h', rest, rest', heq => by
    obtain ⟨hheading, hdetails⟩ := details_eq h h' heq
    cases s' with
    | branch keyword' cond' yes' no' =>
      cases no' with
      | none =>
        obtain ⟨hk, hcond, hyes, _⟩ := h
        obtain ⟨hk', hcond', hyes', _⟩ := h'
        obtain ⟨hconds, hblocks, hrests⟩ := guarded_inj rfl hcond hcond' hyes hyes' (block_inj hyes hyes') hdetails
        have hkeyword : keyword.shown = keyword'.shown := Token.shown_closed rfl hk hk'
        exact ⟨by simp only [Stmt.relabel, hkeyword, hconds, hblocks], (List.cons.inj hrests).2⟩
      | some no' =>
        obtain ⟨_, _, hrests⟩ := guarded_inj rfl h.2.1 h'.2.1 h.2.2.1 h'.2.2.1 (block_inj h.2.2.1 h'.2.2.1) hdetails
        exact absurd (List.cons.inj hrests).1 (by decide)
    | _ => exact absurd hheading (by simp only [heading]; decide)
  | .branch keyword cond yes (some no), s', h, h', rest, rest', heq => by
    obtain ⟨hheading, hdetails⟩ := details_eq h h' heq
    cases s' with
    | branch keyword' cond' yes' no' =>
      cases no' with
      | none =>
        obtain ⟨_, _, hrests⟩ := guarded_inj rfl h.2.1 h'.2.1 h.2.2.1 h'.2.2.1 (block_inj h.2.2.1 h'.2.2.1) hdetails
        exact absurd (List.cons.inj hrests).1 (by decide)
      | some no' =>
        obtain ⟨hk, hcond, hyes, hno⟩ := h
        obtain ⟨hk', hcond', hyes', hno'⟩ := h'
        obtain ⟨hconds, hblocks, helse⟩ := guarded_inj rfl hcond hcond' hyes hyes' (block_inj hyes hyes') hdetails
        simp only [tail_cons, List.cons_append, List.append_assoc] at helse
        obtain ⟨hothers, hrests⟩ := word_block_inj rfl hno hno' (block_inj hno hno') (List.cons.inj helse).2
        have hkeyword : keyword.shown = keyword'.shown := Token.shown_closed rfl hk hk'
        exact ⟨by simp only [Stmt.relabel, hkeyword, hconds, hblocks, hothers], (List.cons.inj hrests).2⟩
    | _ => exact absurd hheading (by simp only [heading]; decide)
  | .loop keyword cond body, s', h, h', rest, rest', heq => by
    obtain ⟨hheading, hdetails⟩ := details_eq h h' heq
    cases s' with
    | loop keyword' cond' body' =>
      obtain ⟨hk, hcond, hbody⟩ := h
      obtain ⟨hk', hcond', hbody'⟩ := h'
      obtain ⟨hconds, hblocks, hrests⟩ := guarded_inj rfl hcond hcond' hbody hbody' (block_inj hbody hbody') hdetails
      have hkeyword : keyword.shown = keyword'.shown := Token.shown_closed rfl hk hk'
      exact ⟨by simp only [Stmt.relabel, hkeyword, hconds, hblocks], (List.cons.inj hrests).2⟩
    | _ => exact absurd hheading (by simp only [heading]; decide)
  | .hole, _, h, _, _, _, _ => h.elim

/-- The listing of a block determines the block and where it ends. -/
theorem block_inj : ∀ {ss ss' : List Stmt}, BlockSourced ss → BlockSourced ss' → ∀ {rest rest' : Text},
    tail (listBlock ss) ++ 41 :: rest = tail (listBlock ss') ++ 41 :: rest' →
    relabelBlock Token.shown ss = relabelBlock Token.shown ss' ∧ rest = rest'
  | [], [], _, _, _, _, heq => ⟨rfl, (List.cons.inj heq).2⟩
  | [], _ :: _, _, _, _, _, heq => absurd (List.cons.inj heq).1 (by decide)
  | _ :: _, [], _, _, _, _, heq => absurd (List.cons.inj heq).1 (by decide)
  | s :: ss, s' :: ss', h, h', rest, rest', heq => by
    simp only [listBlock, tail_cons, List.cons_append, List.append_assoc] at heq
    obtain ⟨hfirst, hothers⟩ := stmt_inj h.1 h'.1 (List.cons.inj heq).2
    obtain ⟨hrest, hrests⟩ := block_inj h.2 h'.2 hothers
    exact ⟨by rw [relabelBlock, relabelBlock, hfirst, hrest], hrests⟩

end

end Listing

theorem Listing.program_inj {p q : Program} (hp : BlockSourced p) (hq : BlockSourced q)
    (h : Program.listing p = Program.listing q) : p.Alike q := by
  have hrests : Program.listing p ++ [] = Program.listing q ++ [] := by rw [h]
  exact (word_block_inj rfl hp hq (block_inj hp hq) hrests).1

theorem Token.Is.shown_eq_word {t : Token} {kind : Kind} (h : t.Is kind) (hne : kind ≠ .number) : t.shown = t.word :=
  Token.shown_of_ne (h.1 ▸ hne)

theorem Node.Sourced.keeps_shown {n : Node} (h : n.Sourced) : n.Keeps Token.shown := by
  have hword := h.keeps_word
  cases n with
  | program p => trivial
  | stmt s =>
    cases s with
    | create name value => rwa [Node.Keeps, h.1.shown_eq_word (by decide)]
    | assign name value => rwa [Node.Keeps, h.1.shown_eq_word (by decide)]
    | _ => trivial
  | expr e =>
    cases e with
    | var name => rwa [Node.Keeps, Token.Is.shown_eq_word h (by decide)]
    | operation form left op right =>
      obtain ⟨_, ⟨kind, hk, hop⟩, _⟩ := h
      have hne : kind ≠ .number := by
        rintro rfl
        exact absurd (form.operators_closed _ hk) (by decide)
      rwa [Node.Keeps, hop.shown_eq_word hne]
    | _ => trivial

/-- Programs that are shown alike have the same Python text. -/
theorem Program.Alike.python {p q : Program} (h : p.Alike q) (hp : BlockSourced p) (hq : BlockSourced q) :
    Program.python p = Program.python q := by
  have hbare {p : Program} (hp : BlockSourced p) : bareBlock (relabelBlock Token.shown p) = bareBlock p :=
    bareBlock_relabel Token.shown_kind fun _ hn => (hp.node (List.mem_cons_of_mem _ hn)).keeps_shown
  have hsame : bareBlock p = bareBlock q := by rw [← hbare hp, h, hbare hq]
  rw [Program.python_eq, Program.python_eq, ← pythonBlock_bare, hsame, pythonBlock_bare]

/-- Sources whose programs have the same listing have programs that differ only in the places of tokens and in the
spellings of keywords and numbers, and the same Python text. -/
theorem listing_faithful {source source' : Text} {p q : Program} (hp : parseSource source = .ok p)
    (hq : parseSource source' = .ok q) (h : Program.listing p = Program.listing q) :
    p.Alike q ∧ Program.python p = Program.python q := by
  have halike := Listing.program_inj (parseSource_sourced hp) (parseSource_sourced hq) h
  exact ⟨halike, halike.python (parseSource_sourced hp) (parseSource_sourced hq)⟩

/-- A branch with an `else` that has no statements, in two layouts and with two spellings of its numbers. -/
theorem listing_faithful_respelled :
    let a := utf8 "IF x is less than 2 THEN\nPRINT \"(set x\" + 0.5\nELSE\nEND IF"
    let b := utf8 "if\tx  IS Less   THAN 2.0 then\r\n print \"(set x\"+(0.50) \nElse\n\nEnd if"
    ∃ p q, parseSource a = .ok p ∧ parseSource b = .ok q ∧ Program.listing p = Program.listing q ∧
      p.Alike q ∧ Program.python p = Program.python q := by
  intro a b
  have hlistings : ((parseSource a).toOption.bind fun p => (parseSource b).toOption.map fun q =>
      decide (Program.listing p = Program.listing q)) = some true := by decide +kernel
  cases ha : parseSource a with
  | error e => simp [ha, Except.toOption] at hlistings
  | ok p =>
    cases hb : parseSource b with
    | error e => simp [ha, hb, Except.toOption] at hlistings
    | ok q =>
      simp only [ha, hb, Except.toOption, Option.bind_some, Option.map_some, Option.some.injEq,
        decide_eq_true_eq] at hlistings
      exact ⟨p, q, rfl, rfl, hlistings, listing_faithful ha hb hlistings⟩

end EnglishScript
