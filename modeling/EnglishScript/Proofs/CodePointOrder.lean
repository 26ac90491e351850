import Mathlib.Data.List.Lex
import EnglishScript.Run.Evaluation

namespace EnglishScript

namespace Text

theorem before_cons_same (a : UInt8) (s t : Text) : before (a :: s) (a :: t) = before s t := by
  simp [before]

theorem before_append_same (front s t : Text) : before (front ++ s) (front ++ t) = before s t := by
  induction front with
  | nil => rfl
  | cons a front ih => rw [List.cons_append, List.cons_append, before_cons_same, ih]

theorem before_asymm : ∀ {s t : Text}, before s t = true → before t s = false
  | [], [], h => by cases h
  | [], _ :: _, _ => rfl
  | _ :: _, [], h => by cases h
  | a :: s, b :: t, h => by
    by_cases hab : a = b
    · subst hab
      rw [before_cons_same] at h ⊢
      exact before_asymm h
    · have hlt : a < b := by simpa [before, hab] using h
      have hba : b ≠ a := fun heq => hab heq.symm
      have hge : ¬b < a := UInt8.lt_asymm hlt
      simp [before, hba, hge]

theorem before_irrefl (s : Text) : before s s = false := by
  cases h : before s s with
  | false => rfl
  | true => exact h.symm.trans (before_asymm h)

/-- The first difference of two lists of numbers lies inside both, and the first list has the smaller number there. -/
def Below : List Nat → List Nat → Prop
  | a :: s, b :: t => a < b ∨ (a = b ∧ Below s t)
  | _, _ => False

theorem before_of_below : ∀ {front front' : Text}, Below (front.map UInt8.toNat) (front'.map UInt8.toNat) →
    ∀ s t : Text, before (front ++ s) (front' ++ t) = true
  | a :: front, b :: front', h, s, t => by
    rw [List.cons_append, List.cons_append]
    rcases h with hlt | ⟨heq, hrest⟩
    · have hne : a ≠ b := by
        rintro rfl
        omega
      have hlt' : a < b := UInt8.lt_iff_toNat_lt.mpr hlt
      simp [before, hne, hlt']
    · cases UInt8.toNat_inj.mp heq
      rw [before_cons_same]
      exact before_of_below hrest s t

theorem toNat_lt_of_char (c : Char) : c.toNat < 0x110000 := by
  rcases c.valid with h | h
  · exact Nat.lt_trans h (by decide)
  · exact h.2

/-- The bytes of a character as numbers: its code in base 64, the first byte showing how many there are. -/
theorem ofChar_bytes (c : Char) :
    (c.toNat < 0x80 ∧ (ofChar c).map UInt8.toNat = [c.toNat]) ∨
    (0x80 ≤ c.toNat ∧ c.toNat < 0x800 ∧
      (ofChar c).map UInt8.toNat = [c.toNat / 64 + 0xC0, c.toNat % 64 + 0x80]) ∨
    (0x800 ≤ c.toNat ∧ c.toNat < 0x10000 ∧ (ofChar c).map UInt8.toNat =
      [c.toNat / 4096 + 0xE0, c.toNat / 64 % 64 + 0x80, c.toNat % 64 + 0x80]) ∨
    (0x10000 ≤ c.toNat ∧ (ofChar c).map UInt8.toNat =
      [c.toNat / 262144 + 0xF0, c.toNat / 4096 % 64 + 0x80, c.toNat / 64 % 64 + 0x80, c.toNat % 64 + 0x80]) := by
  have hc := toNat_lt_of_char c
  have hval : c.val.toNat = c.toNat := rfl
  unfold ofChar String.utf8EncodeChar
  simp only [hval]
  split
  next h =>
    refine Or.inl ⟨by omega, ?_⟩
    simp only [List.map_cons, List.map_nil, UInt8.toNat_ofNat', List.cons.injEq, and_true]
    omega
  next h =>
    split
    next h' =>
      refine Or.inr (Or.inl ⟨by omega, by omega, ?_⟩)
      simp only [List.map_cons, List.map_nil, UInt8.toNat_ofNat', List.cons.injEq, and_true]
      omega
    next h' =>
      split
      next h'' =>
        refine Or.inr (Or.inr (Or.inl ⟨by omega, by omega, ?_⟩))
        simp only [List.map_cons, List.map_nil, UInt8.toNat_ofNat', List.cons.injEq, and_true]
        omega
      next h'' =>
        refine Or.inr (Or.inr (Or.inr ⟨by omega, ?_⟩))
        simp only [List.map_cons, List.map_nil, UInt8.toNat_ofNat', List.cons.injEq, and_true]
        omega

theorem below_ofChar {c d : Char} (h : c.toNat < d.toNat) :
    Below ((ofChar c).map UInt8.toNat) ((ofChar d).map UInt8.toNat) := by
  have hc := toNat_lt_of_char c
  have hd := toNat_lt_of_char d
  -- the shorter encoding has the smaller first byte; encodings of one length are compared digit by digit
  rcases ofChar_bytes c with ⟨hc1, hcb⟩ | ⟨hc1, hc2, hcb⟩ | ⟨hc1, hc2, hcb⟩ | ⟨hc1, hcb⟩ <;>
    rcases ofChar_bytes d with ⟨hd1, hdb⟩ | ⟨hd1, hd2, hdb⟩ | ⟨hd1, hd2, hdb⟩ | ⟨hd1, hdb⟩ <;>
    rw [hcb, hdb] <;> simp only [Below, and_false, or_false] <;> omega

theorem ofChar_ne_nil (c : Char) : ofChar c ≠ [] := by
  intro h
  rcases ofChar_bytes c with ⟨_, hb⟩ | ⟨_, _, hb⟩ | ⟨_, _, hb⟩ | ⟨_, hb⟩ <;> simp [h] at hb

/-- One sequence of characters precedes another: at the first difference its character has the smaller code, or it
ends. -/
def Precedes (u v : List Char) : Prop :=
  List.Lex (fun c d => c.toNat < d.toNat) u v

theorem precedes_cons_iff {c d : Char} {u v : List Char} :
    Precedes (c :: u) (d :: v) ↔ c.toNat < d.toNat ∨ (c = d ∧ Precedes u v) := by
  constructor
  · intro h
    cases h with
    | rel hlt => exact Or.inl hlt
    | cons hrest => exact Or.inr ⟨rfl, hrest⟩
  · rintro (hlt | ⟨rfl, hrest⟩)
    · exact List.Lex.rel hlt
    · exact List.Lex.cons hrest

theorem ofChars_cons (c : Char) (u : List Char) : ofChars (c :: u) = ofChar c ++ ofChars u :=
  List.flatMap_cons

theorem ofChars_eq_nil_iff {u : List Char} : ofChars u = [] ↔ u = [] := by
  cases u with
  | nil => simp [ofChars]
  | cons c u => simp [ofChars_cons, ofChar_ne_nil]

theorem before_nil (s : Text) : before s [] = false := by
  cases s <;> rfl

theorem nil_before {s : Text} (h : s ≠ []) : before [] s = true := by
  cases s with
  | nil => exact absurd rfl h
  | cons a s => rfl

/-- Texts are in the order of their characters. -/
theorem before_ofChars_iff : ∀ {u v : List Char}, before (ofChars u) (ofChars v) = true ↔ Precedes u v
  | [], [] => by simp [Precedes, before_irrefl]
  | [], d :: v => by
    have hne : ofChars (d :: v) ≠ [] := by simp [ofChars_eq_nil_iff]
    exact iff_of_true (nil_before hne) List.Lex.nil
  | c :: u, [] => by
    have hnot : ¬Precedes (c :: u) [] := List.not_lex_nil
    have hend : before (ofChars (c :: u)) (ofChars []) = false := before_nil _
    simp [hend, hnot]
  | c :: u, d :: v => by
    rw [ofChars_cons, ofChars_cons, precedes_cons_iff]
    rcases Nat.lt_trichotomy c.toNat d.toNat with hlt | heq | hgt
    · simp [before_of_below (below_ofChar hlt), hlt]
    · cases Char.toNat_inj.mp heq
      rw [before_append_same, before_ofChars_iff]
      simp
    · have hno := before_asymm (before_of_below (below_ofChar hgt) (ofChars v) (ofChars u))
      have hne : c ≠ d := by
        rintro rfl
        omega
      simp [hno, hne, Nat.le_of_lt hgt]

theorem ofChars_inj : ∀ {u v : List Char}, ofChars u = ofChars v ↔ u = v
  | [], v => by rw [eq_comm, eq_comm (a := []), show ofChars [] = [] from rfl, ofChars_eq_nil_iff]
  | u, [] => by rw [show ofChars [] = [] from rfl, ofChars_eq_nil_iff]
  | c :: u, d :: v => by
    refine ⟨fun h => ?_, fun h => congrArg ofChars h⟩
    rw [ofChars_cons, ofChars_cons] at h
    rcases Nat.lt_trichotomy c.toNat d.toNat with hlt | heq | hgt
    · have hbefore := before_of_below (below_ofChar hlt) (ofChars u) (ofChars v)
      rw [h, before_irrefl] at hbefore
      cases hbefore
    · cases Char.toNat_inj.mp heq
      rw [ofChars_inj.mp (List.append_cancel_left h)]
    · have hbefore := before_of_below (below_ofChar hgt) (ofChars v) (ofChars u)
      rw [h, before_irrefl] at hbefore
      cases hbefore

end Text

namespace Evaluation

/-- The result is a truth value, and it is true exactly if the statement holds. -/
def Decides (result : Except RunError Value) (statement : Prop) : Prop :=
  ∃ holds : Bool, result = .ok (.bool holds) ∧ (holds = true ↔ statement)

section Symbols

variable {op : Token} (l r : Text)

theorem comparison_less (h : Form.comparison.symbol op = utf8 "<") :
    comparison op (.str l) (.str r) = .ok (.bool (Text.before l r)) := by
  have hequal : utf8 "<" ≠ utf8 "==" := by decide
  have hunequal : utf8 "<" ≠ utf8 "!=" := by decide
  have hgreater : (utf8 "<" == utf8 ">") = false := by decide
  simp [comparison, ordered, h, hequal, hunequal, hgreater]

theorem comparison_greater (h : Form.comparison.symbol op = utf8 ">") :
    comparison op (.str l) (.str r) = .ok (.bool (Text.before r l)) := by
  have hequal : utf8 ">" ≠ utf8 "==" := by decide
  have hunequal : utf8 ">" ≠ utf8 "!=" := by decide
  simp [comparison, ordered, h, hequal, hunequal]

theorem comparison_equal (h : Form.comparison.symbol op = utf8 "==") :
    comparison op (.str l) (.str r) = .ok (.bool (l == r)) := by
  simp [comparison, equal, h]

end Symbols

/-- Strings of characters are compared by the codes of the characters, from left to right: `<` holds if the left string
precedes the right one, `>` if it follows it, and `==` if the two are the same. -/
theorem comparison_by_code (op : Token) (u v : List Char) :
    (Form.comparison.symbol op = utf8 "<" →
      Decides (comparison op (.str (Text.ofChars u)) (.str (Text.ofChars v))) (Text.Precedes u v)) ∧
    (Form.comparison.symbol op = utf8 ">" →
      Decides (comparison op (.str (Text.ofChars u)) (.str (Text.ofChars v))) (Text.Precedes v u)) ∧
    (Form.comparison.symbol op = utf8 "==" →
      Decides (comparison op (.str (Text.ofChars u)) (.str (Text.ofChars v))) (u = v)) := by
  refine ⟨fun h => ?_, fun h => ?_, fun h => ?_⟩
  · exact ⟨_, comparison_less _ _ h, Text.before_ofChars_iff⟩
  · exact ⟨_, comparison_greater _ _ h, Text.before_ofChars_iff⟩
  · exact ⟨_, comparison_equal _ _ h, by rw [beq_iff_eq, Text.ofChars_inj]⟩

/-- The last character of three bytes precedes the first one of four, behind a common beginning and whatever follows. -/
theorem comparison_by_code_planes :
    comparison ⟨.isLessThan, utf8 "IS LESS THAN", ⟨1, 5⟩⟩ (.str (Text.ofChars ['é', Char.ofNat 0xFFFF, 'z']))
      (.str (Text.ofChars ['é', Char.ofNat 0x10000])) = .ok (.bool true) := by
  obtain ⟨holds, hresult, hiff⟩ := (comparison_by_code ⟨.isLessThan, utf8 "IS LESS THAN", ⟨1, 5⟩⟩
    ['é', Char.ofNat 0xFFFF, 'z'] ['é', Char.ofNat 0x10000]).1 rfl
  have hprecedes : Text.Precedes ['é', Char.ofNat 0xFFFF, 'z'] ['é', Char.ofNat 0x10000] :=
    List.Lex.cons (List.Lex.rel (by decide))
  rw [hresult, hiff.mpr hprecedes]

end Evaluation

end EnglishScript
