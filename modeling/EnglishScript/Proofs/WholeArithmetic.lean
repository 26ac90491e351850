import Mathlib
import EnglishScript.Proofs.Locality
import EnglishScript.Proofs.WholeFloat

namespace EnglishScript

namespace Whole

/-- The exact result of a sum, a difference or a product. -/
def result? (symbol : Text) (m n : Int) : Option Int :=
  if symbol = utf8 "+" then some (m + n)
  else if symbol = utf8 "-" then some (m - n)
  else if symbol = utf8 "*" then some (m * n)
  else none

/-- Whether a comparison holds. Every symbol but the first three asks for the smaller number on the left. -/
def compares (symbol : Text) (m n : Int) : Bool :=
  if symbol = utf8 "==" then m == n
  else if symbol = utf8 "!=" then m != n
  else if symbol = utf8 ">" then n < m
  else m < n

end Whole

open Whole

namespace Value

/-- The whole number that a value counts as. -/
def whole? : Value → Option Int
  | .int n => some n
  | .bool b => some (if b then 1 else 0)
  | _ => none

/-- A whole number that is the value is a floating-point number. -/
def Fits : Value → Prop
  | .int n => Whole.Fits n
  | _ => True

theorem Fits.number {v : Value} (h : v.Fits) {n : Int} (hn : v.whole? = some n) :
    ∃ f, v.number? = some (f, false) ∧ Is f n := by
  cases v with
  | int k =>
    cases hn
    exact ⟨_, rfl, is_ofInt h⟩
  | bool b =>
    cases hn
    cases b with
    | true =>
      have hone : Is (Float.ofNat 1) ((1 : Nat) : Int) := is_ofNat (short_of_lt (by decide)) (by decide)
      exact ⟨Float.ofNat 1, rfl, hone⟩
    | false =>
      have hzero : Is (Float.ofNat 0) ((0 : Nat) : Int) := is_ofNat (short_of_lt (by decide)) (by decide)
      exact ⟨Float.ofNat 0, rfl, hzero⟩
  | float | str => cases hn

end Value

namespace Evaluation

theorem arithmetic_numbers {op : Token} {l r : Value} {m n : Int} (hm : l.whole? = some m) (hn : r.whole? = some n) :
    arithmetic op l r = numbers op l r := by
  unfold arithmetic
  cases l with
  | float | str => cases hm
  | _ =>
    cases r with
    | float | str => cases hn
    | _ => simp only [ite_self]

/-- Arithmetic on whole numbers rounds a floating-point number that is exact if the result fits. -/
theorem numeric_exact {op : Token} {f g : Float} {m n k : Int} (hf : Is f m) (hg : Is g n)
    (hk : result? op.lexeme m n = some k) :
    ∃ h, numeric op f g false = .ok (.int (Value.wholeOf h)) ∧ (Whole.Fits k → Is h k) := by
  unfold result? at hk
  unfold numeric
  split at hk
  next hop =>
    cases hk
    exact ⟨f + g, by rw [if_pos hop]; rfl, is_add hf hg⟩
  next hplus =>
    rw [if_neg hplus]
    split at hk
    next hop =>
      cases hk
      exact ⟨f - g, by rw [if_pos hop]; rfl, is_sub hf hg⟩
    next hminus =>
      rw [if_neg hminus]
      split at hk
      next hop =>
        cases hk
        exact ⟨f * g, by rw [if_pos hop]; rfl, is_mul hf hg⟩
      next => cases hk

theorem arithmetic_whole {op : Token} {l r : Value} (hl : l.Fits) (hr : r.Fits) {m n k : Int} (hm : l.whole? = some m)
    (hn : r.whole? = some n) (hk : result? op.lexeme m n = some k) :
    ∃ j, arithmetic op l r = .ok (.int j) ∧ (InRange k → (j = k ↔ Short k.natAbs)) := by
  obtain ⟨f, hf, hfm⟩ := hl.number hm
  obtain ⟨g, hg, hgn⟩ := hr.number hn
  obtain ⟨h, hresult, hexact⟩ := numeric_exact hfm hgn hk
  refine ⟨Value.wholeOf h, ?_, fun hrange => ⟨?_, fun hshort => ?_⟩⟩
  · rw [arithmetic_numbers hm hn, numbers, hf, hg]
    exact hresult
  · rintro rfl
    exact (fits_wholeOf h).short
  · exact (hexact ⟨hrange, hshort⟩).wholeOf hrange

theorem comparison_whole {op : Token} {l r : Value} (hl : l.Fits) (hr : r.Fits) {m n : Int} (hm : l.whole? = some m)
    (hn : r.whole? = some n) : comparison op l r = .ok (.bool (compares (Form.comparison.symbol op) m n)) := by
  obtain ⟨f, hf, hfm⟩ := hl.number hm
  obtain ⟨g, hg, hgn⟩ := hr.number hn
  have hequal : equal l r = (m == n) := by
    rw [← hfm.beq_eq hgn]
    unfold equal
    cases l with
    | float | str => cases hm
    | _ =>
      dsimp only
      rw [hf, hg]
  have hordered : ordered op l r = .ok (.bool (if Form.comparison.symbol op = utf8 ">" then n < m else m < n)) := by
    unfold ordered
    cases l with
    | float | str => cases hm
    | _ =>
      dsimp only
      rw [hf, hg]
      dsimp only
      split
      next hgreater => rw [if_pos (beq_iff_eq.mp hgreater), decide_eq_decide.mpr (hgn.lt_iff hfm)]
      next hless => rw [if_neg (fun h => hless (beq_iff_eq.mpr h)), decide_eq_decide.mpr (hfm.lt_iff hgn)]
  unfold comparison compares
  dsimp only
  rw [hequal, hordered]
  split
  · rfl
  · split
    · rfl
    · rfl

theorem ofResult_fits (f : Float) (isFloat : Bool) : (Value.ofResult f isFloat).Fits := by
  unfold Value.ofResult
  split
  · trivial
  · exact fits_wholeOf f

theorem repetition_fits {op : Token} {s : Text} {count v : Value} (h : repetition op s count = .ok v) : v.Fits := by
  unfold repetition at h
  split at h
  next =>
    split at h
    next => cases h; trivial
    next =>
      split at h
      next => cases h
      next => cases h; trivial
  next => cases h

theorem numbers_fits {op : Token} {l r v : Value} (h : numbers op l r = .ok v) : v.Fits := by
  unfold numbers at h
  split at h
  next =>
    unfold numeric at h
    split at h
    next => cases h; exact ofResult_fits _ _
    next =>
      split at h
      next => cases h; exact ofResult_fits _ _
      next =>
        split at h
        next => cases h; exact ofResult_fits _ _
        next =>
          split at h
          next => split at h <;> cases h; trivial
          next => cases h
  next => cases h

theorem arithmetic_fits {op : Token} {l r v : Value} (h : arithmetic op l r = .ok v) : v.Fits := by
  unfold arithmetic at h
  split at h
  next =>
    split at h
    next => cases h; trivial
    next => cases h
    next => exact numbers_fits h
  next =>
    split at h
    next =>
      split at h
      next => exact repetition_fits h
      next => exact repetition_fits h
      next => exact numbers_fits h
    next => exact numbers_fits h

theorem comparison_fits {op : Token} {l r v : Value} (h : comparison op l r = .ok v) : v.Fits := by
  have hbool : ∃ b, v = .bool b := by
    unfold comparison at h
    dsimp only at h
    split at h
    next => exact ⟨_, (Except.ok.inj h).symm⟩
    next =>
      split at h
      next => exact ⟨_, (Except.ok.inj h).symm⟩
      next =>
        unfold ordered at h
        dsimp only at h
        split at h
        next => exact ⟨_, (Except.ok.inj h).symm⟩
        next =>
          split at h
          next => exact ⟨_, (Except.ok.inj h).symm⟩
          next => cases h
  obtain ⟨b, rfl⟩ := hbool
  trivial

end Evaluation

/-- Every whole number among the values of the variables is a floating-point number. -/
def Env.Fits (env : Env) : Prop :=
  ∀ name v, env.get? name = some v → v.Fits

theorem Env.Fits.set {env : Env} (h : env.Fits) (name : Text) {v : Value} (hv : v.Fits) : (env.set name v).Fits := by
  intro other w hw
  rw [Env.get_set] at hw
  split at hw
  next => cases hw; exact hv
  next => exact h other w hw

theorem Env.fits_empty : Env.empty.Fits := by
  intro name v h
  cases h

theorem Expr.eval_operation [Python.Decoder] (form : Form) (env : Env) (left : Expr) (op : Token) (right : Expr) :
    (Expr.operation form left op right).eval env = (left.eval env).bind fun l =>
      if form = .logic then
        if (op.kind == .and) != l.truthy then .ok l else right.eval env
      else (right.eval env).bind fun r =>
        if form = .arithmetic then Evaluation.arithmetic op l r else Evaluation.comparison op l r := by
  rw [Expr.eval.eq_def]
  cases form <;> dsimp only <;> cases left.eval env <;> first | rfl | cases right.eval env <;> rfl

theorem Expr.eval_fits [Python.Decoder] {env : Env} (henv : env.Fits) {e : Expr} {v : Value} (h : e.eval env = .ok v) : v.Fits := by
  induction e generalizing v with
  | number t value =>
    cases h
    trivial
  | string t raw =>
    rw [Expr.eval] at h
    cases hliteral : Evaluation.literal t raw with
    | error e => rw [hliteral] at h; cases h
    | ok text => rw [hliteral] at h; cases h; trivial
  | var name =>
    rw [Expr.eval] at h
    split at h
    next w hw =>
      cases h
      exact henv _ _ hw
    next => cases h
  | operation form left op right ihl ihr =>
    cases hl : left.eval env with
    | error e =>
      rw [Expr.eval_operation, hl] at h
      cases h
    | ok l =>
      rw [Expr.eval_operation, hl, Except.bind] at h
      split at h
      next =>
        split at h
        next =>
          cases h
          exact ihl hl
        next => exact ihr h
      next =>
        cases hr : right.eval env with
        | error e =>
          rw [hr] at h
          cases h
        | ok r =>
          rw [hr, Except.bind] at h
          split at h
          next => exact Evaluation.arithmetic_fits h
          next => exact Evaluation.comparison_fits h
  | hole => cases h

end EnglishScript
