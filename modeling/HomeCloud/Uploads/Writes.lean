import HomeCloud.Files.Writes

/-!
# What the legacy uploads write

* `UploadsTx`, `UploadsTx.apply`, `UploadsTx.allowed`: the writes of the upload operations and the
  constraints checked on them.
* `UploadsTx.entered`: the directory in which a publication makes a live entry.
* `Db.reserved`: the bytes that the active sessions of a user have reserved.
-/

namespace HomeCloud

open Concurrent

/-- The rows an upload operation writes. `publish` adds the file of a session, under the name it
allocated, and charges the owner. -/
inductive UploadsTx where
  | createSession (session : UploadSession) (receipt : Option PublicShareOperation)
  | saveSession (id : ℕ) (session : UploadSession)
  | deleteSession (id : ℕ)
  | publish (id : ℕ) (session : UploadSession) (file : File) (choice : NameChoice)

/-- The database after the writes. -/
def UploadsTx.apply (db : Db) : UploadsTx → Db
  | .createSession session receipt =>
    { db with
      uploadSessions := db.uploadSessions.insert session
      publicShareOperations := receipt.elim db.publicShareOperations fun r =>
        db.publicShareOperations.insert
          { r with resultUploadSessionId := some db.uploadSessions.bound } }
  | .saveSession id session => { db with uploadSessions := db.uploadSessions.put id session }
  | .deleteSession id =>
    { db with
      uploadSessions := db.uploadSessions.erase id
      publicShareOperations := db.publicShareOperations.map fun _ r =>
        { r with resultUploadSessionId := dropRef [id] r.resultUploadSessionId } }
  | .publish id session file _ =>
    { db with
      files := db.files.insert file
      uploadSessions := db.uploadSessions.put id session }.charge file.userId file.size

/-- The constraints that a commit of the writes has to meet. -/
def UploadsTx.allowed (db : Db) : UploadsTx → Bool
  | .createSession session receipt => db.parentExists session.parentId && receipt.all db.receiptFree
  | .publish _ _ file _ => db.placementFree file.placement
  | _ => true

/-- The directory in which the writes make a live entry. -/
def UploadsTx.entered : UploadsTx → List Slot
  | .publish _ _ file _ => enters none file.shown
  | _ => []

/-- The bytes that the active sessions of a user have reserved. -/
def Db.reserved (db : Db) (userId : ℕ) : ℕ :=
  db.uploadSessions.total fun _ s => if s.userId = userId ∧ s.active then s.totalSize else 0

end HomeCloud
