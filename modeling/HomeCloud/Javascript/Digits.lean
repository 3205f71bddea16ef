import HomeCloud.Javascript.Double
import HomeCloud.Text

/-!
# Strings of digits

* `isDigit`, `digitsValue`, `number`: `Number(text)` of a text of digits.
* `isSafeInteger`, `isSafeInteger_number`: it is a safe integer exactly when its value is below `2 ^ 53`.
-/

namespace Javascript

open HomeCloud

def isDigit (c : UInt16) : Bool := 0x30 ≤ c && c ≤ 0x39

/-- The value of a string of digits. -/
def digitsValue (digits : JsString) : ℕ := digits.foldl (fun n c => n * 10 + (c.toNat - 0x30)) 0

/-- `Number` of a string of digits. -/
def number (digits : JsString) : ℚ := toDouble (digitsValue digits)

def isSafeInteger (x : ℚ) : Bool := x.isInt && |x| < 2 ^ 53

theorem isSafeInteger_intCast {n : ℤ} : isSafeInteger n = true ↔ |n| < 2 ^ 53 := by
  have hcast : |(n : ℚ)| < 2 ^ 53 ↔ |n| < 2 ^ 53 := by exact_mod_cast Iff.rfl
  unfold isSafeInteger
  rw [Bool.and_eq_true, decide_eq_true_eq, hcast]
  exact and_iff_right (by simp [Rat.isInt])

theorem isSafeInteger_natCast {n : ℕ} : isSafeInteger n = true ↔ n < 2 ^ 53 := by
  have hcast : isSafeInteger n = true ↔ |(n : ℤ)| < 2 ^ 53 := isSafeInteger_intCast (n := n)
  rw [hcast, Nat.abs_cast]
  exact_mod_cast Iff.rfl

/-- **Rounding does not make a safe integer.** -/
theorem isSafeInteger_number {digits : JsString} : isSafeInteger (number digits) = true ↔ digitsValue digits < 2 ^ 53 := by
  unfold number
  constructor
  · intro h
    by_contra hlarge
    have hround : (2 : ℚ) ^ 53 ≤ toDouble (digitsValue digits) := le_toDouble (by exact_mod_cast not_lt.mp hlarge)
    unfold isSafeInteger at h
    rw [Bool.and_eq_true, decide_eq_true_eq] at h
    exact absurd (hround.trans (le_abs_self _)) (not_le.mpr h.2)
  · intro h
    rw [toDouble_natCast h]
    exact isSafeInteger_natCast.mpr h

theorem number_eq {digits : JsString} (h : digitsValue digits < 2 ^ 53) : number digits = digitsValue digits :=
  toDouble_natCast h

theorem exists_of_isSafeInteger {x : ℚ} (h : isSafeInteger x = true) (hx : 0 ≤ x) : ∃ n : ℕ, x = n ∧ n < 2 ^ 53 := by
  unfold isSafeInteger at h
  rw [Bool.and_eq_true, decide_eq_true_eq] at h
  have hint : x.den = 1 := by simpa [Rat.isInt] using h.1
  have hnum : 0 ≤ x.num := Rat.num_nonneg.mpr hx
  have heq : x = (x.num.toNat : ℕ) := by
    have hcast : ((x.num.toNat : ℕ) : ℤ) = x.num := Int.toNat_of_nonneg hnum
    calc x = x.num / x.den := (Rat.num_div_den x).symm
      _ = ((x.num.toNat : ℕ) : ℤ) := by rw [hint, Nat.cast_one, div_one, hcast]
      _ = (x.num.toNat : ℕ) := Int.cast_natCast _
  refine ⟨x.num.toNat, heq, ?_⟩
  have hlt := (le_abs_self x).trans_lt h.2
  rw [heq] at hlt
  exact_mod_cast hlt

end Javascript
