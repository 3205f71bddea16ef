import HomeCloud.Auth.Respects
import HomeCloud.Journal.Respects
import HomeCloud.Sharing.Respects
import HomeCloud.Uploads.Respects

/-!
# Commits

* `Tx.Ok`: what a thread has established when it commits the writes of a service.
* `Committing`: what a commit that takes effect has met.
* **`Tx.Ok.respects`**: it respects locks, owners and mirrors; **`Tx.Ok.operations`**: and the operations,
  unless the SSD is locked.
-/

namespace HomeCloud

open Concurrent

/-- What `t` has established when it commits the writes of a service. -/
def Tx.Ok (t : ℕ) (w : World) : Tx → Prop
  | .none => True
  | .files tx => tx.Ok t w
  | .auth tx => tx.Ok t w
  | .uploads tx => tx.Ok t w
  | .journal tx => tx.Ok t w
  | .sharing tx => tx.Ok t w

theorem Tx.Ok.respects {t : ℕ} {w : World} {tx : Tx} (h : tx.Ok t w) (hi : Inv w)
    (ha : tx.allowed w.db = true) (hw : w.waits tx t = false) :
    Respects t w (tx.apply w.db) (tx.entered w.db) := by
  replace ha : tx.constraints w.db = true := (Bool.and_eq_true_iff.mp ha).1
  cases tx with
  | none => exact .unchanged hi
  | files tx => exact FilesTx.Ok.respects h hi ha hw
  | auth tx => exact AuthTx.Ok.respects h hi
  | uploads tx => exact UploadsTx.Ok.respects h hi
  | journal tx => exact JournalTx.Ok.respects h hi ha
  | sharing tx => exact SharingTx.Ok.respects h hi

/-- Only a thread that has the SSD locked changes the operations. -/
theorem Tx.Ok.operations {t : ℕ} {w : World} {tx : Tx} (h : tx.Ok t w) (hl : w.disk.flock ≠ some t) (id : ℕ) :
    (tx.apply w.db).finalizationOperations.get id = w.db.finalizationOperations.get id := by
  cases tx with
  | none => rfl
  | auth tx => cases tx <;> rfl
  | sharing tx => cases tx <;> rfl
  | uploads tx => cases tx <;> rfl
  | journal tx => exact absurd h.1 hl
  | files tx =>
    cases tx with
    | trashFile i patch =>
      simp only [Tx.apply, FilesTx.apply]
      cases w.db.files.get i <;> rfl
    | _ => rfl

/-- What a commit that takes effect has met. -/
structure Committing (t : ℕ) (w : World) (tx : Tx) : Prop where
  inv : Inv w
  allowed : tx.allowed w.db = true
  waits : w.waits tx t = false
  ok : tx.Ok t w

theorem Committing.respects {t : ℕ} {w : World} {tx : Tx} (hc : Committing t w tx) :
    Respects t w (tx.apply w.db) (tx.entered w.db) :=
  hc.ok.respects hc.inv hc.allowed hc.waits

end HomeCloud
