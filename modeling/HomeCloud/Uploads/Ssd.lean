import HomeCloud.Journal.Store
import HomeCloud.Uploads.Service

/-!
# The uploads on the SSD

The operations on uploads whose chunks are kept on a disk of their own. All of them that touch the files
have the root of that disk locked, which a process without the database loses only by its end.

* `SsdUploads.createUploadSession`, `SsdUploads.uploadChunk`, `SsdUploads.abortUpload`,
  `SsdUploads.cleanupExpiredSessions`.
-/

namespace HomeCloud

open Concurrent Sha256

/-- The limits of the uploads on the SSD; `0` is none for the sizes of files and of all uploads. -/
structure SsdLimits where
  maxChunkSize : ℕ
  maxFileSize : ℕ
  maxTotalSize : ℕ
  maxChunks : ℕ
  ttlMs : ℕ

namespace SsdUploads

/-! ## The lock on the SSD -/

def requireEnabled (enabled : Bool) : Op Unit :=
  assert (.unavailable "SSD uploads are disabled") enabled

/-- The workspace has to be enrolled. -/
def workspace (enabled : Bool) : Op Unit := do
  requireEnabled enabled
  let _ ← query fun _ => ()
  mayFail (.unavailable "SSD workspace is not enrolled")

def lock (enabled : Bool) : Op Unit := do
  workspace enabled
  mayFail (.unavailable "SSD workspace unavailable or busy")
  let free ← Prog.ask (.disk .lockSsd) fun _ w => w.disk.flock.isNone
  assert (.unavailable "SSD workspace unavailable or busy") free

def release : Op Unit := .exec (.disk .unlockSsd)

/-- Runs `body` with the root of the SSD locked. -/
def withLock {α : Type} (enabled : Bool) (body : Op α) : Op α := do
  lock enabled
  let a ← tryCatch body fun e => do
    release
    throw e
  release
  return a

/-! ## Access -/

/-- The session can take chunks. -/
def active (s : UploadSession) : Op Unit := do
  assert (.badRequest s!"Upload session is {s.status.text}") s.active
  let now ← query (·.now)
  assert (.badRequest "Upload session expired") (now < s.expiresAt)

def ownedSession (enabled : Bool) (userId id : ℕ) : Op UploadSession := do
  requireEnabled enabled
  let row ← query fun w => w.db.uploadSessions.get id
  require (.notFound "Upload session not found")
    (row.filter fun s => s.userId = userId && s.workspaceId = .ssd && s.origin = .owner)

def getUploadSession (enabled : Bool) (userId id : ℕ) : Op UploadSession := do
  let session ← ownedSession enabled userId id
  assert (.unavailable "SSD session has no durable whole-file SHA256") session.expectedSha256.isSome
  workspace enabled
  mayFail .filesystem
  return session

def requireUnreserved (id : ℕ) : Op Unit := do
  let pending ← query fun w => w.db.pendingOperation (·.sessionId = id)
  assert (.unavailable "Upload finalization is reserved; recovery required") pending.isNone

/-- What is free on the disks is not known here. -/
def capacity : Op Unit := do
  let _ ← query fun _ => ()
  mayFail (.unavailable "Insufficient SSD or HDD capacity")

/-- Commits have to be on disk when they are acknowledged. -/
def durable : Op Unit := do
  let _ ← query fun _ => ()
  mayFail (.unavailable "Durable database settings required")

/-- A session on the SSD, locked. -/
def lockOwned (id : ℕ) : Op UploadSession := do
  let row ← lockSession id
  require (.notFound "Upload session not found") row

/-! ## Creating sessions -/

/-- The sizes of a request, and the number of chunks. -/
def validateSizes (limits : SsdLimits) (totalSize chunkSize : ℤ) : Op (ℕ × ℕ × ℕ) := do
  let totalChunks := (totalSize.toNat + chunkSize.toNat - 1) / chunkSize.toNat
  assert (.badRequest "Invalid upload size")
    (0 < totalSize && totalSize ≤ 9007199254740991 && 0 < chunkSize && chunkSize ≤ 9007199254740991 &&
      chunkSize ≤ limits.maxChunkSize && (limits.maxFileSize = 0 || totalSize ≤ limits.maxFileSize) &&
      totalChunks ≤ limits.maxChunks)
  return (totalSize.toNat, chunkSize.toNat, totalChunks)

/-- The bytes of the user and of the active sessions, with `totalSize` more, fit the quota and the limit. -/
def checkReservation (limits : SsdLimits) (user : User) (active totalSize : ℕ) : Op Unit := do
  assert (.badRequest "Storage quota exceeded") (user.storageUsed + active + totalSize ≤ user.storageQuota)
  assert (.badRequest "Active upload limit exceeded")
    (limits.maxTotalSize = 0 || active + totalSize ≤ limits.maxTotalSize)

/-- The parent is a live folder of the user, which is not locked. -/
def checkParent (userId : ℕ) : Option ℕ → Op Unit
  | none => pure ()
  | some p => do
    let folder ← query fun w => w.db.folders.get p
    assert (.forbidden "Target folder unavailable") (folder.any fun r => r.userId = userId && !r.isDeleted)

/-- The row of a session whose directory could not be made is kept, but not open any more. -/
def abandonSession (id : ℕ) : Op Unit :=
  transaction do
    let row ← lockSession id
    return (row.elim .none fun s => .uploads (.saveSession id { s with status := .aborted }), ())

/-- Makes the directory of a session, after the commit. -/
def prepareDirectory (id : ℕ) : Op Unit :=
  tryCatch (do
    onFiles (.ssd (.makeDirectory id)) fun _ => ()) fun e => do
    ignoreFailure (abandonSession id)
    throw e

def createUploadSession (enabled : Bool) (limits : SsdLimits) (userId : ℕ) (filename : JsString)
    (totalSize chunkSize : ℤ) (parentId expectedSha256 : Option ℕ) : Op (ℕ × UploadSession) := do
  requireEnabled enabled
  assert (.badRequest "Invalid filename") (validateFilename filename)
  let expectedSha256 ← require (.badRequest "SSD uploads require whole-file SHA256")
    (expectedSha256.filter (· < 2 ^ 256))
  let (totalSize, chunkSize, totalChunks) ← validateSizes limits totalSize chunkSize
  assert (.badRequest "Invalid target folder") (parentId ≠ some 0)
  withLock enabled do
    capacity
    let (id, saved) ← transactionWith do
      durable
      let row ← lockUser userId
      let user ← require (.forbidden "User not found") row
      let active ← query fun w => w.db.reserved userId
      checkReservation limits user active totalSize
      checkParent userId parentId
      let now ← query (·.now)
      let session : UploadSession := {
        filename := .ofJs filename
        totalSize := totalSize
        uploadedSize := 0
        chunkSize := chunkSize
        totalChunks := totalChunks
        uploadedCount := 0
        accountingInitialized := true
        expectedSha256 := some expectedSha256
        workspaceId := .ssd
        parentId := parentId
        origin := .owner
        shareLinkId := none
        shareRootFolderId := none
        status := .pending
        expiresAt := now + limits.ttlMs
        userId := userId
        chunks := [] }
      return (.uploads (.createSession session none), fun w => (w.db.uploadSessions.bound, session))
    prepareDirectory id
    return (id, saved)

/-! ## Chunks -/

/-- Sees to the file of a chunk: one that is there has to have the same content. Else a chunk that came as
a file takes its name, and one that came in memory is written to a new file. -/
def stageChunk (id index : ℕ) (data : Bytes) (buffered : Bool) : Op Unit := do
  let existing ← onFiles .look fun w => w.disk.ssd.chunks id index
  match existing with
  | some old =>
    assert (.badRequest "Chunk size or type changed") (old.data.length = data.length)
    assert (.badRequest "Untrusted existing chunk") (sha256 old.data = sha256 data)
  | none => do
    let there ← onFiles .look fun w => w.disk.ssd.directories id
    assert .filesystem there
    if buffered then
      onFiles (.ssd (.createChunk id index)) fun _ => ()
      onFiles (.ssd (.fillChunk id index data)) fun _ => ()
    else onFiles (.ssd (.renameChunk id index data)) fun _ => ()

/-- Records a chunk whose file is there. -/
def recordChunk (id index : ℕ) (data : Bytes) : Op Unit :=
  transaction do
    durable
    let current ← lockOwned id
    assert (.notFound "Upload session not found") (current.workspaceId = .ssd)
    active current
    requireUnreserved id
    assert (.badRequest "Chunk manifest changed")
      ((current.chunk index).all fun c => c.sha256 = sha256 data && c.byteSize = data.length)
    let saved := current.withChunk ⟨index, data.length, sha256 data⟩
    return (.uploads (.saveSession id { saved with status := .uploading }), ())

def uploadChunk (enabled : Bool) (limits : SsdLimits) (userId id index : ℕ) (data : Bytes)
    (buffered : Bool) : Op Unit :=
  withLock enabled do
    let session ← getUploadSession enabled userId id
    active session
    requireUnreserved id
    capacity
    mayFail .filesystem
    let session ← getUploadSession enabled userId id
    active session
    requireUnreserved id
    assert (.badRequest "Chunk size does not match expected size")
      (index < session.totalChunks && data.length = session.chunkLength index &&
        data.length ≤ limits.maxChunkSize)
    let record ← query fun w => (w.db.uploadSessions.get id).bind (·.chunk index)
    assert (.badRequest "Chunk already uploaded with different content")
      (record.all fun c => c.sha256 = sha256 data && c.byteSize = data.length)
    stageChunk id index data buffered
    recordChunk id index data

/-! ## Aborting and expiry -/

/-- Deletes the row of a chunk. -/
def deleteChunkRow (id index : ℕ) : Op Unit :=
  transaction do
    let row ← lockSession id
    return (row.elim .none fun s =>
      .uploads (.saveSession id { s with chunks := s.chunks.filter (·.chunkIndex ≠ index) }), ())

/-- Removes the file of a chunk and then its row; a file that is not the one of the row stays. -/
def removeChunk (id : ℕ) (c : UploadChunk) : Op Unit :=
  ignoreFailure do
    let file ← onFiles .look fun w => w.disk.ssd.chunks id c.chunkIndex
    let old ← require .filesystem file
    assert (.badRequest "Chunk size or type changed") (old.data.length = c.byteSize)
    assert (.error "Chunk ownership mismatch") (sha256 old.data = c.sha256)
    onFiles (.ssd (.removeChunk id c.chunkIndex)) fun _ => ()
    deleteChunkRow id c.chunkIndex

def removeChunks (id : ℕ) : List UploadChunk → Op Unit
  | [] => pure ()
  | c :: chunks => do
    removeChunk id c
    removeChunks id chunks

/-- Marks the session as aborted, with `expiredOnly` only one that has expired. -/
def markAborted (id : ℕ) (expiredOnly : Bool) : Op Unit :=
  transaction do
    durable
    let current ← lockOwned id
    let now ← query (·.now)
    if expiredOnly && now < current.expiresAt then return (.none, ())
    else
      assert (.badRequest "Cannot abort a completed upload") (current.status ≠ .completed)
      requireUnreserved id
      return (.uploads (.saveSession id { current with status := .aborted }), ())

def abortUpload (enabled : Bool) (limits : SsdLimits) (userId id : ℕ) (expiredOnly : Bool) : Op Unit :=
  withLock enabled do
    let _ ← getUploadSession enabled userId id
    markAborted id expiredOnly
    let row ← query fun w => w.db.uploadSessions.get id
    let current ← require (.error "Could not find any entity of type \"UploadSessionEntity\"") row
    if current.status ≠ .aborted then return ()
    else
      let chunks ← query fun w => (w.db.uploadSessions.get id).elim [] fun s =>
        (s.chunks.mergeSort fun c c' => c.chunkIndex ≤ c'.chunkIndex).take limits.maxChunks
      removeChunks id chunks
      mayFail .filesystem

def cleanupSessions (enabled : Bool) (limits : SsdLimits) : List (ℕ × ℕ) → Op Unit
  | [] => pure ()
  | (userId, id) :: sessions => do
    ignoreFailure (abortUpload enabled limits userId id true)
    cleanupSessions enabled limits sessions

def cleanupExpiredSessions (enabled : Bool) (limits : SsdLimits) : Op Unit :=
  if !enabled then pure ()
  else do
    let sessions ← query fun w => (w.db.uploadSessions.select fun _ s =>
      s.workspaceId = .ssd && s.active && s.expiresAt ≤ w.now).take 128 |>.filterMap fun id =>
        (w.db.uploadSessions.get id).map fun s => (s.userId, id)
    cleanupSessions enabled limits sessions

end SsdUploads

end HomeCloud
