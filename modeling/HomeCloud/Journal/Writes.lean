import HomeCloud.Files.Writes

/-!
# What the finalization store writes

* `JournalTx`, `JournalTx.apply`, `JournalTx.allowed`: the writes of the finalization store and the
  constraints checked on them, less the triggers.
* `JournalTx.entered`: the directory in which a commit makes a live entry.
-/

namespace HomeCloud

open Concurrent

/-- The rows the finalization store writes. `commit` adds the file of the operation under the name
it allocated, charges the owner and completes the session. -/
inductive JournalTx where
  | begin (id : ℕ) (operation : FinalizationOperation)
  | recordTarget (id : ℕ) (identity : ArtifactIdentity)
  | recordMimeType (id : ℕ) (mimeType : JsString)
  | transition (id : ℕ) (state : FinalizationState)
  | commit (id sessionId : ℕ) (file : File) (choice : NameChoice)
  | finishCleanup (id sessionId : ℕ)

/-- Updates the operation `id`. -/
def Db.updateOperation (db : Db) (id : ℕ) (f : FinalizationOperation → FinalizationOperation) : Db :=
  { db with
    finalizationOperations := db.finalizationOperations.map fun i r => if i = id then f r else r }

/-- Updates the session `id`. -/
def Db.updateSession (db : Db) (id : ℕ) (f : UploadSession → UploadSession) : Db :=
  { db with uploadSessions := db.uploadSessions.map fun i r => if i = id then f r else r }

/-- The database after the writes. -/
def JournalTx.apply (db : Db) : JournalTx → Db
  | .begin id operation =>
    { db with finalizationOperations := db.finalizationOperations.put id operation }
  | .recordTarget id identity =>
    db.updateOperation id fun r => { r with targetIdentity := some identity }
  | .recordMimeType id mimeType =>
    db.updateOperation id fun r => { r with mimeType := mimeType, mimeTypeCheckpointed := true }
  | .transition id state => db.updateOperation id fun r => { r with state := state }
  | .commit id sessionId file _ =>
    ((({ db with files := db.files.insert file }.charge file.userId file.size).updateOperation id
      fun r => { r with state := .committed, fileId := some db.files.bound }).updateSession sessionId
      fun r => { r with status := .completed })
  | .finishCleanup id sessionId =>
    (db.updateOperation id fun r => { r with cleanupState := .cleaned }).updateSession sessionId
      fun r => { r with chunks := [] }

/-- The constraints that a commit of the writes has to meet. -/
def JournalTx.allowed (db : Db) : JournalTx → Bool
  | .begin id operation =>
    (db.finalizationOperations.get id).isNone && (db.users.get operation.userId).isSome
  | .commit _ _ file _ => db.placementFree file.placement
  | _ => true

/-- The directory in which the writes make a live entry. -/
def JournalTx.entered : JournalTx → List Slot
  | .commit _ _ file _ => enters none file.shown
  | _ => []

end HomeCloud
