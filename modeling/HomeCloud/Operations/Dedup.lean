import Mathlib.Data.Rat.Defs
import Mathlib.Algebra.Order.Ring.Rat

/-!
# A log of notifications and what is remembered of it

Notifications are sent about keys, each with a reason; one reason says that all is well. Of each key the last
notification that was kept is remembered, unless it says that. A notification is due if what is remembered of its key
allows it.

* `Notifications`: what is read off a notification.
* `memory`, `Due`, `Lawful`: what is remembered, when a notification is due, and logs in which every one was.
* `memory_append`: how the memory changes with the next notification.
* **`recovery_after_problem`**, **`apart`**: recoveries follow problems, and repetitions keep their distance.
-/

namespace Dedup

variable {α κ ρ : Type}

/-- What is read off a notification: its key, its reason, its time, and whether it was kept. -/
structure Notifications (α κ ρ : Type) where
  key : α → κ
  reason : α → ρ
  ok : ρ
  time : α → ℚ
  kept : α → Bool

namespace Notifications

variable [DecidableEq κ] (N : Notifications α κ ρ)

/-- The last notification about a key. -/
def last (log : List α) (k : κ) : Option α := (log.filter fun a => N.key a = k).getLast?

/-- The last one that was kept. -/
def lastKept (log : List α) (k : κ) : Option α := (log.filter fun a => N.key a = k && N.kept a).getLast?

variable {N} {log : List α} {a p : α} {k : κ}

theorem lastKept_append :
    N.lastKept (log ++ [a]) k = if N.key a = k && N.kept a then some a else N.lastKept log k := by
  unfold lastKept
  rw [List.filter_append, List.filter_cons, List.filter_nil]
  split
  next h => rw [List.getLast?_concat]
  next h => rw [List.append_nil]

/-- If the last notification was kept, it is the last one that was kept. -/
theorem lastKept_of_last (hlast : N.last log k = some p) (hkept : N.kept p = true) :
    N.lastKept log k = some p := by
  obtain ⟨before, hbefore⟩ := List.getLast?_eq_some_iff.mp hlast
  have hfilter : (log.filter fun a => N.key a = k && N.kept a) = (log.filter fun a => N.key a = k).filter N.kept := by
    rw [List.filter_filter]
    exact List.filter_congr fun a _ => Bool.and_comm _ _
  rw [lastKept, hfilter, hbefore, List.filter_append, List.filter_cons_of_pos hkept, List.filter_nil,
    List.getLast?_concat]

theorem exists_last (h : p ∈ log) (hkey : N.key p = k) : ∃ q, N.last log k = some q := by
  cases hlast : N.last log k with
  | some q => exact ⟨q, rfl⟩
  | none =>
    have hmem : p ∈ log.filter fun a => N.key a = k := List.mem_filter.mpr ⟨h, decide_eq_true hkey⟩
    rw [List.getLast?_eq_none_iff.mp hlast] at hmem
    exact absurd hmem List.not_mem_nil

variable [DecidableEq ρ]

variable (N)

/-- What is remembered of a key: the last notification that was kept, if it is a problem. -/
def memory (log : List α) (k : κ) : Option α := (N.lastKept log k).filter fun a => N.reason a ≠ N.ok

/-- A recovery is due if a problem is remembered, and the remembered reason only after the cooldown. -/
structure Due (cooldown : ℚ) (log : List α) (a : α) : Prop where
  recovery : N.reason a = N.ok → ∃ p, N.memory log (N.key a) = some p
  cooldown : ∀ p, N.memory log (N.key a) = some p → N.reason p = N.reason a → cooldown ≤ N.time a - N.time p

/-- A log in which every notification was due. -/
def Lawful (cooldown : ℚ) (log : List α) : Prop :=
  ∀ earlier a later, earlier ++ a :: later = log → N.Due cooldown earlier a

variable {N} {cooldown : ℚ} {earlier : List α}

theorem lawful_nil : N.Lawful cooldown [] :=
  fun _ _ _ h => absurd (List.append_eq_nil_iff.mp h).2 (List.cons_ne_nil _ _)

/-- **The next notification.** -/
theorem Lawful.append (h : N.Lawful cooldown log) (hdue : N.Due cooldown log a) : N.Lawful cooldown (log ++ [a]) := by
  intro earlier b later heq
  rcases List.eq_nil_or_concat later with rfl | ⟨later, c, rfl⟩
  · obtain ⟨rfl, hab⟩ := List.append_inj' heq rfl
    cases hab
    exact hdue
  · refine h earlier b later ?_
    rw [List.concat_eq_append, ← List.cons_append, ← List.append_assoc] at heq
    exact (List.append_inj' heq rfl).1

/-- **How the memory changes.** A notification that was kept replaces what was remembered of its key. -/
theorem memory_append :
    N.memory (log ++ [a]) k =
      if N.key a = k && N.kept a then (if N.reason a = N.ok then none else some a) else N.memory log k := by
  unfold memory
  rw [lastKept_append]
  split
  next h =>
    split
    next hok => rw [Option.filter_some, if_neg (by simp [hok])]
    next hok => rw [Option.filter_some, if_pos (by simp [hok])]
  next h => rfl

theorem memory_eq_some (h : N.memory log k = some p) :
    p ∈ log ∧ N.key p = k ∧ N.reason p ≠ N.ok := by
  obtain ⟨hlast, hreason⟩ := Option.filter_eq_some_iff.mp h
  have hmem := List.mem_of_getLast? hlast
  rw [List.mem_filter, Bool.and_eq_true, decide_eq_true_eq] at hmem
  exact ⟨hmem.1, hmem.2.1, of_decide_eq_true hreason⟩

/-- **A recovery follows a problem**, or a recovery that was not kept. -/
theorem recovery_after_problem (h : N.Due cooldown earlier a) (hok : N.reason a = N.ok) :
    ∃ p, N.last earlier (N.key a) = some p ∧ (N.reason p ≠ N.ok ∨ N.kept p = false) := by
  obtain ⟨q, hq⟩ := h.recovery hok
  obtain ⟨hmem, hkey, -⟩ := memory_eq_some hq
  obtain ⟨p, hp⟩ := exists_last hmem hkey
  refine ⟨p, hp, ?_⟩
  cases hkept : N.kept p with
  | false => exact .inr rfl
  | true =>
    left
    rw [memory, lastKept_of_last hp hkept, Option.filter_eq_some_iff] at hq
    cases hq.1
    exact of_decide_eq_true hq.2

/-- **A notification after one with the same reason that was kept** is a problem, and comes after the cooldown. -/
theorem apart (h : N.Due cooldown earlier a) (hlast : N.last earlier (N.key a) = some p) (hkept : N.kept p = true)
    (hreason : N.reason p = N.reason a) : N.reason a ≠ N.ok ∧ cooldown ≤ N.time a - N.time p := by
  have hkeptLast := lastKept_of_last hlast hkept
  have hproblem : N.reason a ≠ N.ok := by
    intro hok
    obtain ⟨q, hq⟩ := h.recovery hok
    rw [memory, hkeptLast, Option.filter_eq_some_iff] at hq
    cases hq.1
    exact of_decide_eq_true hq.2 (hreason.trans hok)
  refine ⟨hproblem, h.cooldown p ?_ hreason⟩
  rw [memory, hkeptLast, Option.filter_some, if_pos (decide_eq_true (hreason ▸ hproblem))]

end Notifications

end Dedup
