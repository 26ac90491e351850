import EnglishScript.Python.Symbol

namespace EnglishScript.Python

/-- The number of backslashes at the end of a text. -/
def trailing (t : Text) : Nat :=
  (t.reverse.takeWhile (· == Text.backslash)).length

theorem trailing_cons (b : UInt8) (t : Text) :
    trailing (b :: t) = trailing t + if b = Text.backslash ∧ trailing t = t.length then 1 else 0 := by
  unfold trailing
  rw [List.reverse_cons, List.takeWhile_append]
  by_cases hall : (t.reverse.takeWhile (· == Text.backslash)).length = t.reverse.length
  · rw [if_pos hall]
    by_cases hb : b = Text.backslash <;> simp_all
  · rw [if_neg hall]
    have : ¬ (t.reverse.takeWhile (· == Text.backslash)).length = t.length := by simpa using hall
    simp [this]

theorem trailing_le (t : Text) : trailing t ≤ t.length := by
  have := (List.takeWhile_sublist (l := t.reverse) (· == Text.backslash)).length_le
  simpa [trailing] using this

/-- A literal without a quote that does not end in an odd number of backslashes closes at its own quote. -/
theorem closing_own_quote : ∀ {v : Text}, Text.quote ∉ v → trailing v % 2 = 0 → ∀ rest : Text,
    Scan.closing Text.quote (v ++ Text.quote :: rest) = some v.length
  | [], _, _, rest => by simp [Scan.closing.eq_def]
  | b :: v, hquote, heven, rest => by
    have hb : b ≠ Text.quote := fun h => hquote (by simp [h])
    rw [List.cons_append, Scan.closing.eq_def]
    simp only [hb, ↓reduceIte]
    by_cases hback : b = Text.backslash
    · cases v with
      | nil =>
        subst hback
        exact absurd heven (by decide)
      | cons c v =>
        have hv : trailing v % 2 = 0 := by
          have hle := trailing_le v
          rw [trailing_cons, trailing_cons] at heven
          simp only [hback, List.length_cons, true_and] at heven
          split at heven <;> split at heven <;> omega
        simp only [hback, ↓reduceIte, List.cons_append]
        rw [closing_own_quote (fun h => hquote (by simp [h])) hv rest]
        simp
    · have hv : trailing v % 2 = 0 := by
        rw [trailing_cons] at heven
        simpa [hback] using heven
      simp only [hback, ↓reduceIte]
      rw [closing_own_quote (fun h => hquote (by simp [h])) hv rest]
      simp

theorem trailing_even {t : Text} (h : Literal.escapesEnd t = false) : trailing t % 2 = 0 := by
  simp only [Literal.escapesEnd, beq_eq_false_iff_ne, ne_eq] at h
  simp only [trailing]
  omega

end EnglishScript.Python
