import Mathlib.Algebra.Order.Field.Basic
import Mathlib.Tactic.Linarith
import Mathlib.Tactic.Positivity
import Mathlib.Tactic.Ring

/-!
# Token buckets

A bucket earns tokens at a rate, up to a bound, and gives one away at a time.

* `Rule`, `Bucket`, `Rule.level`: how full a bucket is at a time.
* `Rule.take`, `Rule.admissions`: taking tokens at given times, and how many are given in a window.
* **`Rule.admissions_le`**: in any window there are at most `burst + rate * length` of them.
* `Rule.level_of_idle`, `Rule.one_le_level`: when a bucket is full, and when it has a token again.
-/

namespace HomeCloud

namespace Tokens

/-- How fast a bucket fills, and how much it holds. -/
structure Rule (K : Type) where
  rate : K
  burst : K

/-- The tokens that were there at a time. -/
structure Bucket (K : Type) where
  tokens : K
  since : K

variable {K : Type} [Field K] [LinearOrder K]

namespace Rule

variable (r : Rule K)

/-- The tokens of a bucket at a later time. -/
def level (b : Bucket K) (t : K) : K := min r.burst (b.tokens + (t - b.since) * r.rate)

/-- Whether there is a token, and the bucket without it. -/
def take (b : Bucket K) (t : K) : Bucket K × Bool :=
  if r.level b t < 1 then (⟨r.level b t, t⟩, false) else (⟨r.level b t - 1, t⟩, true)

/-- How many tokens are given away from `t₁` to `t₂` when they are asked for at the times `ts`. -/
def admissions (t₁ t₂ : K) (b : Bucket K) : List K → ℕ
  | [] => 0
  | t :: ts =>
    (if (r.take b t).2 && t₁ ≤ t && t ≤ t₂ then 1 else 0) + admissions t₁ t₂ (r.take b t).1 ts

variable {r} {b : Bucket K} {s t t₁ t₂ : K}

theorem level_le_burst : r.level b t ≤ r.burst := min_le_left _ _

theorem take_since : (r.take b t).1.since = t := by
  unfold take
  split_ifs <;> rfl

theorem admissions_cons {ts : List K} : r.admissions t₁ t₂ b (t :: ts) =
    (if (r.take b t).2 && t₁ ≤ t && t ≤ t₂ then 1 else 0) + r.admissions t₁ t₂ (r.take b t).1 ts :=
  rfl

variable [IsStrictOrderedRing K]

/-- The tokens may be counted on the way. -/
theorem level_level (hrate : 0 ≤ r.rate) (hst : s ≤ t) : r.level ⟨r.level b s, s⟩ t = r.level b t := by
  have hearned : 0 ≤ (t - s) * r.rate := mul_nonneg (sub_nonneg.mpr hst) hrate
  unfold level
  dsimp only
  rw [← min_add_add_right, ← min_assoc, min_eq_left (le_add_of_nonneg_right hearned), add_assoc, ← add_mul]
  congr 3
  ring

theorem level_le_add (hrate : 0 ≤ r.rate) (hst : s ≤ t) : r.level b t ≤ r.level b s + (t - s) * r.rate := by
  rw [← level_level hrate hst]
  exact min_le_right _ _

theorem level_nonneg (hrate : 0 ≤ r.rate) (hburst : 0 ≤ r.burst) (htokens : 0 ≤ b.tokens) (ht : b.since ≤ t) :
    0 ≤ r.level b t :=
  le_min hburst (add_nonneg htokens (mul_nonneg (sub_nonneg.mpr ht) hrate))

/-- **A bucket that has been left alone for long is full.** -/
theorem level_of_idle {d : K} (hrate : 0 ≤ r.rate) (htokens : 0 ≤ b.tokens) (hd : r.burst ≤ d * r.rate)
    (ht : b.since + d ≤ t) : r.level b t = r.burst := by
  refine min_eq_left ?_
  have hearned : d * r.rate ≤ (t - b.since) * r.rate := mul_le_mul_of_nonneg_right (by linarith) hrate
  linarith

/-- **A bucket has a token again** once it has earned what it lacks. -/
theorem one_le_level {d : K} (hrate : 0 ≤ r.rate) (hburst : 1 ≤ r.burst) (hd : 1 ≤ b.tokens + d * r.rate)
    (ht : b.since + d ≤ t) : 1 ≤ r.level b t := by
  refine le_min hburst ?_
  have hearned : d * r.rate ≤ (t - b.since) * r.rate := mul_le_mul_of_nonneg_right (by linarith) hrate
  linarith

theorem take_tokens (hrate : 0 ≤ r.rate) (hburst : 0 ≤ r.burst) (htokens : 0 ≤ b.tokens) (ht : b.since ≤ t) :
    0 ≤ (r.take b t).1.tokens ∧
      (r.take b t).1.tokens + (if (r.take b t).2 then 1 else 0) = r.level b t := by
  have hlevel := level_nonneg hrate hburst htokens ht
  unfold take
  by_cases hlt : r.level b t < 1
  · rw [if_pos hlt]
    exact ⟨hlevel, add_zero _⟩
  · rw [if_neg hlt]
    exact ⟨sub_nonneg.mpr (not_lt.mp hlt), sub_add_cancel _ _⟩

omit [Field K] [IsStrictOrderedRing K] in
theorem head_le {ts : List K} (h : (t :: ts).Pairwise (· ≤ ·)) : ∀ t' ∈ t :: ts, t ≤ t' := by
  intro t' ht'
  rcases List.mem_cons.mp ht' with rfl | hmem
  · exact le_rfl
  · exact List.rel_of_pairwise_cons h hmem

omit [IsStrictOrderedRing K] in
/-- Nothing is given away in a window that is over. -/
theorem admissions_eq_zero {ts : List K} (hts : ∀ t ∈ ts, t₂ < t) : r.admissions t₁ t₂ b ts = 0 := by
  induction ts generalizing b with
  | nil => rfl
  | cons t ts ih =>
    have hlt := hts t List.mem_cons_self
    rw [admissions_cons, ih fun t' ht' => hts t' (List.mem_cons_of_mem t ht'), decide_eq_false (not_le.mpr hlt), Bool.and_false]
    rfl

/-- What is given away from a time on is what was there and what is earned. -/
theorem admissions_le_level {ts : List K} (hrate : 0 ≤ r.rate) (hburst : 0 ≤ r.burst) (htokens : 0 ≤ b.tokens)
    (hs : b.since ≤ s) (hts : (s :: ts).Pairwise (· ≤ ·)) (hst : s ≤ t₂) :
    (r.admissions t₁ t₂ b ts : K) ≤ r.level b s + (t₂ - s) * r.rate := by
  induction ts generalizing b s with
  | nil =>
    have hlevel := level_nonneg hrate hburst htokens hs
    have hearned : 0 ≤ (t₂ - s) * r.rate := mul_nonneg (sub_nonneg.mpr hst) hrate
    have hzero : (r.admissions t₁ t₂ b [] : K) = 0 := Nat.cast_zero
    linarith
  | cons t ts ih =>
    have hfirst : s ≤ t := List.rel_of_pairwise_cons hts List.mem_cons_self
    have hrest := List.Pairwise.of_cons hts
    by_cases htt : t ≤ t₂
    · obtain ⟨hnonneg, hgiven⟩ := take_tokens hrate hburst htokens (hs.trans hfirst)
      have hlater := ih hnonneg take_since.le hrest htt
      have hnow : r.level (r.take b t).1 t ≤ (r.take b t).1.tokens := by
        refine (min_le_right _ _).trans ?_
        rw [take_since, sub_self, zero_mul, add_zero]
      have hadd := level_le_add (b := b) hrate hfirst
      have hcount : (if (r.take b t).2 && t₁ ≤ t && t ≤ t₂ then 1 else 0 : K) ≤
          if (r.take b t).2 then 1 else 0 := by
        cases (r.take b t).2 with
        | false => exact le_rfl
        | true =>
          rw [if_pos rfl]
          split_ifs
          · exact le_rfl
          · exact zero_le_one
      have hsplit : (t₂ - t) * r.rate + (t - s) * r.rate = (t₂ - s) * r.rate := by ring
      rw [admissions_cons]
      push_cast
      linarith
    · rw [admissions_eq_zero fun t' ht' => (not_le.mp htt).trans_le (head_le hrest t' ht'), Nat.cast_zero]
      exact add_nonneg (level_nonneg hrate hburst htokens hs) (mul_nonneg (sub_nonneg.mpr hst) hrate)

/-- **The tokens that are given away in a window.** -/
theorem admissions_le {ts : List K} (hrate : 0 ≤ r.rate) (hburst : 0 ≤ r.burst) (htokens : 0 ≤ b.tokens)
    (hts : (b.since :: ts).Pairwise (· ≤ ·)) (ht : t₁ ≤ t₂) :
    (r.admissions t₁ t₂ b ts : K) ≤ r.burst + (t₂ - t₁) * r.rate := by
  have hwindow : 0 ≤ (t₂ - t₁) * r.rate := mul_nonneg (sub_nonneg.mpr ht) hrate
  induction ts generalizing b with
  | nil =>
    have hzero : (r.admissions t₁ t₂ b [] : K) = 0 := Nat.cast_zero
    linarith
  | cons t ts ih =>
    have hfirst : b.since ≤ t := List.rel_of_pairwise_cons hts List.mem_cons_self
    have hrest := List.Pairwise.of_cons hts
    by_cases hbefore : t < t₁
    · -- The window has not begun.
      have hlater := ih (take_tokens hrate hburst htokens hfirst).1 (by rwa [take_since])
      rw [admissions_cons, decide_eq_false (not_le.mpr hbefore), Bool.and_false, Bool.false_and, if_neg Bool.false_ne_true, Nat.zero_add]
      exact hlater
    by_cases hover : t₂ < t
    · rw [admissions_eq_zero fun t' ht' => hover.trans_le (head_le hrest t' ht'), Nat.cast_zero]
      linarith
    · have hlevel := @admissions_le_level K _ _ r b t t₁ t₂ _ (t :: ts) hrate hburst htokens hfirst
        (List.pairwise_cons.mpr ⟨head_le hrest, hrest⟩) (not_lt.mp hover)
      have hmax := level_le_burst (r := r) (b := b) (t := t)
      have hshorter : (t₂ - t) * r.rate ≤ (t₂ - t₁) * r.rate :=
        mul_le_mul_of_nonneg_right (sub_le_sub_left (not_lt.mp hbefore) t₂) hrate
      linarith

end Rule

end Tokens

end HomeCloud
