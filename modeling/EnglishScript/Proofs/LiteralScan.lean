import EnglishScript.Proofs.LiteralQuote
import EnglishScript.Proofs.SourceTree

namespace EnglishScript

namespace Python

/-- Where the scan behind an opening quote ends: at a closing quote, at a line end or at the end of the text. A number
says how many bytes it has passed. -/
inductive LiteralEnd where
  | quote (passed : Nat)
  | lineEnd (passed : Nat)
  | textEnd
  deriving DecidableEq, Repr

namespace LiteralEnd

/-- The same end behind more bytes. -/
def after (n : Nat) : LiteralEnd → LiteralEnd
  | .quote passed => .quote (passed + n)
  | .lineEnd passed => .lineEnd (passed + n)
  | .textEnd => .textEnd

end LiteralEnd

/-- Scans a literal of one line behind its opening quote. A backslash protects the byte behind it, and a line feed or a
carriage return that is not protected ends the line. -/
def literalEnd : Text → LiteralEnd
  | [] => .textEnd
  | b :: rest =>
    if b = Text.quote then .quote 0
    else if b = Text.lf ∨ b = Text.cr then .lineEnd 0
    else if b = Text.backslash then
      match rest with
      | [] => .textEnd
      | _ :: more => (literalEnd more).after 2
    else (literalEnd rest).after 1

/-- A carriage return stands at a place of the text, and no backslash protects it. -/
def RawReturn (t : Text) (i : Nat) : Prop :=
  t[i]? = some Text.cr ∧ trailing (t.take i) % 2 = 0

instance (t : Text) (i : Nat) : Decidable (RawReturn t i) :=
  inferInstanceAs (Decidable (_ ∧ _))

instance (t : Text) : Decidable (∀ i, ¬RawReturn t i) :=
  decidable_of_iff (∀ i < t.length, ¬RawReturn t i)
    ⟨fun h i hi => h i (List.getElem?_eq_some_iff.mp hi.1).1 hi, fun h i _ => h i⟩

section Steps

variable {b : UInt8} (v : Text)

theorem trailing_plain (hb : b ≠ Text.backslash) : trailing (b :: v) = trailing v := by
  rw [trailing_cons, if_neg (fun h => hb h.1), Nat.add_zero]

/-- A backslash and the byte that it protects do not change what the backslashes behind them protect. -/
theorem trailing_protected (c : UInt8) : trailing (Text.backslash :: c :: v) % 2 = trailing v % 2 := by
  have hle := trailing_le v
  rw [trailing_cons, trailing_cons]
  simp only [List.length_cons, true_and]
  split <;> split <;> omega

theorem rawReturn_plain (hb : b ≠ Text.backslash) (hcr : b ≠ Text.cr) (i : Nat) :
    RawReturn (b :: v) i ↔ ∃ j, i = j + 1 ∧ RawReturn v j := by
  cases i with
  | zero => simp [RawReturn, hcr]
  | succ i => simp [RawReturn, trailing_plain (v.take i) hb]

theorem rawReturn_protected (c : UInt8) (i : Nat) :
    RawReturn (Text.backslash :: c :: v) i ↔ ∃ j, i = j + 2 ∧ RawReturn v j := by
  match i with
  | 0 =>
    have hne : Text.backslash ≠ Text.cr := by decide
    simp [RawReturn, hne]
  | 1 =>
    have hodd : trailing [Text.backslash] % 2 = 1 := by decide
    simp [RawReturn, hodd]
  | i + 2 => simp [RawReturn, trailing_protected (v.take i) c]

end Steps

/-- A literal without a quote and a line feed that does not end in an odd number of backslashes is scanned up to its own
quote, or else up to a carriage return that is not protected. -/
theorem literalEnd_own : ∀ {v : Text}, (∀ b ∈ v, Lexer.isStringByte b = true) → trailing v % 2 = 0 → ∀ rest : Text,
    (literalEnd (v ++ Text.quote :: rest) = .quote v.length ∧ ∀ i, ¬RawReturn v i) ∨
      ∃ i, RawReturn v i ∧ literalEnd (v ++ Text.quote :: rest) = .lineEnd i
  | [], _, _, rest => by
    refine Or.inl ⟨?_, ?_⟩
    · rw [List.nil_append, literalEnd.eq_def]
      simp
    · simp [RawReturn]
  | b :: v, hbytes, heven, rest => by
    have hb := hbytes b (by simp)
    simp only [Lexer.isStringByte, Bool.and_eq_true, bne_iff_ne, ne_eq] at hb
    obtain ⟨hquote, hlf⟩ := hb
    rw [List.cons_append, literalEnd.eq_def]
    simp only [hquote, hlf, false_or, ↓reduceIte]
    by_cases hcr : b = Text.cr
    · have hraw : RawReturn (b :: v) 0 := by simp [RawReturn, hcr, trailing]
      exact Or.inr ⟨0, hraw, by rw [if_pos hcr]⟩
    · rw [if_neg hcr]
      by_cases hback : b = Text.backslash
      · subst hback
        rw [if_pos rfl]
        cases v with
        | nil => exact absurd heven (by decide)
        | cons c v =>
          rw [trailing_protected] at heven
          simp only [List.cons_append, rawReturn_protected]
          rcases literalEnd_own (fun a ha => hbytes a (by simp [ha])) heven rest with ⟨hend, hnone⟩ | ⟨i, hraw, hend⟩
          · refine Or.inl ⟨by rw [hend]; rfl, ?_⟩
            rintro _ ⟨j, rfl, hj⟩
            exact hnone j hj
          · exact Or.inr ⟨i + 2, ⟨i, rfl, hraw⟩, by rw [hend]; rfl⟩
      · rw [if_neg hback]
        rw [trailing_plain v hback] at heven
        simp only [rawReturn_plain v hback hcr]
        rcases literalEnd_own (fun a ha => hbytes a (by simp [ha])) heven rest with ⟨hend, hnone⟩ | ⟨i, hraw, hend⟩
        · refine Or.inl ⟨by rw [hend]; rfl, ?_⟩
          rintro _ ⟨j, rfl, hj⟩
          exact hnone j hj
        · exact Or.inr ⟨i + 1, ⟨i, rfl, hraw⟩, by rw [hend]; rfl⟩

end Python

open Python

/-- A literal that is not refused does not end in an odd number of backslashes. -/
theorem Node.trailing_of_accepted {t : Token} {value : Text} (h : (Node.expr (.string t value)).refusal? = none) :
    trailing value % 2 = 0 := by
  apply trailing_even
  cases hend : Literal.escapesEnd value with
  | false => rfl
  | true => simp [Node.refusal?, Evaluation.literal, hend] at h

/-- Every literal of a program that is not refused is scanned, from its opening quote in the Python text, up to the closing
quote that was written for it, whatever follows, unless a carriage return in it is not protected. The scan then ends at
such a carriage return. -/
theorem literal_scanned {source : Text} {p : Program} (h : parseSource source = .ok p)
    (hclean : Program.refusal? p = none) {t : Token} {value : Text} (hmem : .expr (.string t value) ∈ Program.walk p) :
    (Expr.string t value).python = Text.quote :: (value ++ [Text.quote]) ∧
      ∀ rest : Text,
        (literalEnd (value ++ Text.quote :: rest) = .quote value.length ↔ ∀ i, ¬RawReturn value i) ∧
        ∀ i, RawReturn value i → ∃ j, RawReturn value j ∧ literalEnd (value ++ Text.quote :: rest) = .lineEnd j := by
  obtain ⟨hstring, hvalue⟩ : t.Is .string ∧ value = t.lexeme := (parseSource_sourced h).node hmem
  have hbytes : ∀ b ∈ value, Lexer.isStringByte b = true := hvalue ▸ hstring.2
  have heven := Node.trailing_of_accepted (List.findSome?_eq_none_iff.mp hclean _ hmem)
  refine ⟨rfl, fun rest => ?_⟩
  rcases literalEnd_own hbytes heven rest with ⟨hend, hnone⟩ | ⟨i, hraw, hend⟩
  · exact ⟨iff_of_true hend hnone, fun j hj => absurd hj (hnone j)⟩
  · refine ⟨iff_of_false ?_ fun hnone => hnone i hraw, fun _ _ => ⟨i, hraw, hend⟩⟩
    rw [hend]
    rintro ⟨⟩

/-- A literal that ends in two backslashes, with a carriage return that a third one protects. -/
theorem literal_scanned_protected :
    ∃ p t, parseSource (utf8 "PRINT \"b\\\r\\\\\"") = .ok p ∧ Program.refusal? p = none ∧
      .expr (.string t (utf8 "b\\\r\\\\")) ∈ Program.walk p ∧
      literalEnd (utf8 "b\\\r\\\\" ++ Text.quote :: utf8 ")") = .quote 5 := by
  have hparse : parseSource (utf8 "PRINT \"b\\\r\\\\\"") = .ok [.print ⟨.print, utf8 "PRINT", ⟨1, 1⟩⟩
      (.string ⟨.string, utf8 "b\\\r\\\\", ⟨1, 7⟩⟩ (utf8 "b\\\r\\\\"))] := by
    rfl
  have hclean : Program.refusal? [.print ⟨.print, utf8 "PRINT", ⟨1, 1⟩⟩
      (.string ⟨.string, utf8 "b\\\r\\\\", ⟨1, 7⟩⟩ (utf8 "b\\\r\\\\"))] = none := by
    decide +kernel
  have hmem : .expr (.string ⟨.string, utf8 "b\\\r\\\\", ⟨1, 7⟩⟩ (utf8 "b\\\r\\\\")) ∈ Program.walk
      [.print ⟨.print, utf8 "PRINT", ⟨1, 1⟩⟩ (.string ⟨.string, utf8 "b\\\r\\\\", ⟨1, 7⟩⟩ (utf8 "b\\\r\\\\"))] := by
    simp [Program.walk, walkBlock, Stmt.walk, Expr.walk]
  have hraw : ∀ i, ¬RawReturn (utf8 "b\\\r\\\\") i := by decide
  exact ⟨_, _, hparse, hclean, hmem, (((literal_scanned hparse hclean hmem).2 _).1).mpr hraw⟩

/-- The carriage return of `PRINT "a\rb"` is not refused, and the scan of the literal ends there. -/
theorem raw_return_ends_scan :
    ∃ p t, parseSource (utf8 "PRINT \"a\rb\"") = .ok p ∧ Program.refusal? p = none ∧
      .expr (.string t (utf8 "a\rb")) ∈ Program.walk p ∧
      literalEnd (utf8 "a\rb" ++ Text.quote :: utf8 ")") = .lineEnd 1 := by
  have hparse : parseSource (utf8 "PRINT \"a\rb\"") = .ok [.print ⟨.print, utf8 "PRINT", ⟨1, 1⟩⟩
      (.string ⟨.string, utf8 "a\rb", ⟨1, 7⟩⟩ (utf8 "a\rb"))] := by
    rfl
  refine ⟨_, ⟨.string, utf8 "a\rb", ⟨1, 7⟩⟩, hparse, by decide +kernel, ?_, by decide⟩
  simp [Program.walk, walkBlock, Stmt.walk, Expr.walk]

end EnglishScript
