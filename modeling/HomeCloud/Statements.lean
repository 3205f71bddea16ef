import HomeCloud.Concurrent.Prog
import HomeCloud.World

/-!
# Programs of statements

The building blocks of the services: queries, row locks, transactions, the choice of a name and the
charges to a user's storage.

* `transaction`: runs statements and commits their writes, or rolls back.
* `allocateNamespaceName`, `updateStorageUsed`, `decrementStorageUsed`.
-/

namespace HomeCloud

open Concurrent

/-! ## Errors -/

/-- What the database or its driver reports instead of a result. -/
inductive DbError where
  | constraint
  | serialization
  | connectionLost
  deriving DecidableEq

/-- Why an operation fails: a response with a status and a text, a database error, or an error of
the file system. -/
inductive Err where
  | http (status : ℕ) (message : String)
  | database (e : DbError)
  | filesystem
  deriving DecidableEq

namespace Err

def badRequest (message : String) : Err := .http 400 message
def unauthorized (message : String) : Err := .http 401 message
def forbidden (message : String) : Err := .http 403 message
def notFound (message : String) : Err := .http 404 message
def conflict (message : String) : Err := .http 409 message
def tooManyRequests (message : String) : Err := .http 429 message
def unavailable (message : String) : Err := .http 503 message

end Err

/-- An operation of a service. -/
abbrev Op (α : Type) := Prog World Instr Err α

/-! ## Statements -/

/-- A statement and what it reads. It fails when the connection is found broken. -/
def statement {α : Type} (i : Instr) (f : ℕ → World → α) : Op α :=
  .act i fun t w => if w.lost t then .fail (.database .connectionLost) else .ret (f t w)

/-- A statement that reads. -/
def query {α : Type} (f : World → α) : Op α := statement .read fun _ w => f w

/-- `SELECT … FOR UPDATE` of one row, and what it reads. -/
def selectForUpdate {α : Type} (k : LockKey) (f : Db → α) : Op α :=
  statement (.lock k) fun _ w => f w.db

def lockUser (id : ℕ) : Op (Option User) := selectForUpdate (.user id) (·.users.get id)
def lockFolder (id : ℕ) : Op (Option Folder) := selectForUpdate (.folder id) (·.folders.get id)
def lockFile (id : ℕ) : Op (Option File) := selectForUpdate (.file id) (·.files.get id)
def lockLink (id : ℕ) : Op (Option ShareLink) := selectForUpdate (.link id) (·.shareLinks.get id)

def lockToken (id : ℕ) : Op (Option RefreshToken) :=
  selectForUpdate (.token id) (·.refreshTokens.get id)

def lockSession (id : ℕ) : Op (Option UploadSession) :=
  selectForUpdate (.session id) (·.uploadSessions.get id)

/-- Fails with `e` unless there is a value. -/
def require {α : Type} (e : Err) : Option α → Op α
  | some a => .ret a
  | none => .fail e

/-- Fails with `e` unless `b`. -/
def assert (e : Err) (b : Bool) : Op Unit := if b then .ret () else .fail e

def rollback : Op Unit := .exec .rollback

/-- Commits the writes and returns what `f` reads before them. The acknowledgement of a commit may be
lost. -/
def commitWith {α : Type} (tx : Tx) (f : World → α) : Op α :=
  .act (.commit tx) fun t w =>
    if w.lost t then .fail (.database .connectionLost)
    else if tx.allowed w.db then
      .pick fun n => if n = 0 then .ret (f w) else .fail (.database .connectionLost)
    else .fail (.database .constraint)

def commit (tx : Tx) : Op Unit := commitWith tx fun _ => ()

/-- Ends the transaction after a failure of `p`. -/
def orRollback {α : Type} (p : Op α) : Op α :=
  tryCatch p fun e => do
    rollback
    throw e

/-- Runs the statements of a transaction and commits what they want written. -/
def transaction {α : Type} (body : Op (Tx × α)) : Op α := do
  let (tx, a) ← orRollback body
  orRollback (commit tx)
  return a

/-- A transaction that returns what is read when it commits. -/
def transactionWith {α : Type} (body : Op (Tx × (World → α))) : Op α := do
  let (tx, f) ← orRollback body
  orRollback (commitWith tx f)

/-! ## Files -/

/-- A step that may go wrong. -/
def mayFail (e : Err) : Op Unit := .pick fun n => if n = 0 then .ret () else .fail e

/-- A step on the files and what it reads. It may fail before it has an effect, and after that. -/
def onFiles {α : Type} (op : DiskOp) (f : World → α) : Op α := do
  mayFail .filesystem
  let a ← .act (.disk op) fun _ w => .ret (f w)
  mayFail .filesystem
  return a

/-- A failure of `p` is ignored. -/
def ignoreFailure (p : Op Unit) : Op Unit := tryCatch p fun _ => pure ()

/-! ## Names -/

/-- The query for the names of a directory, and the name chosen from them. -/
def readNames (q : NameQuery) : Op (Option NameChoice) :=
  statement (.names q) fun _ w => q.choose w.db

/-- Locks the destination and chooses a name that no live entry of it has. -/
def allocateNamespaceName (userId : ℕ) (parentId : Option ℕ) (requested : JsString)
    (kind : EntryKind) (excludeFile excludeFolder : Option ℕ) : Op NameChoice := do
  match parentId with
  | some p =>
    let parent ← lockFolder p
    assert (.notFound "Destination folder unavailable")
      (parent.any fun r => r.userId = userId && !r.isDeleted)
  | none => pure ()
  let choice ← readNames ⟨⟨userId, parentId⟩, kind, requested, excludeFile, excludeFolder⟩
  require (.conflict "Destination name space exhausted") choice

/-! ## Storage -/

/-- A size that is a safe integer of JavaScript. -/
def parseDatabaseSize (message : String) (n : ℤ) : Op ℕ :=
  if 0 ≤ n ∧ n ≤ 9007199254740991 then .ret n.toNat else .fail (.badRequest message)

/-- Checks that `bytes` fit the quota of the user, whose row the update locks. The charge itself is
part of the transaction's writes. -/
def updateStorageUsed (id : ℕ) (bytes : ℕ) : Op Unit :=
  if bytes = 0 then pure ()
  else do
    let row ← lockUser id
    match row with
    | some r =>
      if r.storageUsed + bytes ≤ r.storageQuota then pure ()
      else do
        let user ← query fun w => w.db.users.get id
        let r ← require (.notFound "User not found") user
        if (r.storageQuota : ℤ) < r.storageUsed + bytes then
          throw (.forbidden "Storage quota exceeded")
        else throw (.badRequest "Storage quota update failed")
    | none => throw (.notFound "User not found")

/-- Checks that `bytes` can be taken off the usage of the user, whose row the update locks. -/
def decrementStorageUsed (id : ℕ) (bytes : ℕ) : Op Unit :=
  if bytes = 0 then pure ()
  else do
    let row ← lockUser id
    match row with
    | some r =>
      if (bytes : ℤ) ≤ r.storageUsed then pure ()
      else do
        let user ← query fun w => w.db.users.get id
        let r ← require (.notFound "User not found") user
        if r.storageUsed < bytes then
          throw (.badRequest "Storage used would go negative — data inconsistency detected")
        else throw (.badRequest "Concurrent storage modification — please retry")
    | none => throw (.notFound "User not found")

end HomeCloud
