import HomeCloud.Crypto.Sha256
import HomeCloud.Files.Service
import HomeCloud.Sharing.PublicFolder
import HomeCloud.Uploads.Layout

/-!
# The legacy uploads

The operations on uploads whose chunks are files next to the objects. A transaction on a session shares
an advisory lock on it, and the assembly of its chunks has that lock alone.

* `withTransaction`, `withAssemblyFence`: the two ways to hold the lock.
* `createUploadSession`, `uploadChunk`, `reconcileUploadSession`, `abortUpload`.
* `cleanupUnpublishedAssembly`: the removal of attempts that were not committed.
* `completeUpload`: the assembly of the chunks and the publication of the file.
* `cleanupExpiredSessions`.
-/

namespace HomeCloud

open Concurrent Sha256

/-- The limits the server is set up with; `0` is none for the sizes of files and of all uploads. -/
structure UploadLimits where
  maxFileSize : ℕ
  maxTotalSize : ℕ
  maxChunkSize : ℕ
  maxUploadChunks : ℕ
  sessionTtlMs : ℕ

/-! ## The lock on a session -/

def trySessionFence (id : ℕ) (exclusive : Bool) : Op Bool :=
  statement (.fence id exclusive) fun t w => w.fenceFree id exclusive t

def withTransaction {α : Type} (id : ℕ) (body : Op (Tx × α)) : Op α :=
  transaction do
    let locked ← trySessionFence id false
    assert (.conflict "Upload is being finalized; retry later") locked
    body

/-- The number of assemblies at a time is bounded, so any may be refused. When the unlock fails the
connection is destroyed, which ends the lock too. -/
def withAssemblyFence (id : ℕ) (fn : Op Unit) : Op Unit := do
  mayFail (.tooManyRequests "Too many upload requests; retry later")
  let locked ← trySessionFence id true
  assert (.conflict "Upload is being finalized; retry later") locked
  tryCatch fn fun e => do
    Prog.exec .unfence
    throw e
  Prog.exec .unfence

/-! ## Access -/

/-- A request with an upload link. -/
structure PublicAccess where
  token : ℕ
  proof : UploadProof

def PublicAccess.authorize (access : PublicAccess) (parentId : ℕ) (lock : Bool) : Op Unit :=
  authorizeUpload access.token access.proof parentId lock

def assertPublicLegacy (enabled : Bool) : Op Unit :=
  assert (.unavailable "Public uploads require legacy storage") !enabled

/-- The session is one of the owner, or of the link and its folder. -/
def sessionWhere (userId : ℕ) (access : Option PublicAccess) (s : UploadSession) : Bool :=
  s.userId = userId && match access with
  | some a => s.origin = .public && s.shareLinkId = some a.proof.shareId &&
      s.shareRootFolderId = some a.proof.rootId
  | none => s.origin = .owner

def authorizeSession (enabled : Bool) (s : UploadSession) (access : Option PublicAccess)
    (lock : Bool) : Op Unit :=
  match access with
  | none => pure ()
  | some a => do
    assertPublicLegacy enabled
    assert (.notFound "Upload session unavailable") (sessionWhere a.proof.userId access s)
    let parentId ← require (.notFound "Upload session unavailable") s.parentId
    a.authorize parentId lock

/-- A session with a pending finalization is left alone. -/
def assertLegacyUnreserved (id : ℕ) : Op Unit := do
  let pending ← query fun w => w.db.pendingOperation (·.sessionId = id)
  assert (.unavailable "Upload recovery requires operator inspection") pending.isNone

/-- The workspace has to be the legacy one, with the storage it was set up with. -/
def resolveSessionWorkspace (s : UploadSession) : Op Unit := do
  let _ ← query fun _ => ()
  mayFail (.unavailable "Upload workspace unavailable")
  assert (.unavailable "Upload workspace unavailable") (s.workspaceId = .legacy)

/-- The session with the number `id`, locked. -/
def findSession (userId id : ℕ) (access : Option PublicAccess) : Op UploadSession := do
  let row ← lockSession id
  require (.notFound "Upload session not found") (row.filter (sessionWhere userId access))

/-! ## Creating sessions -/

def validateFilename (filename : JsString) : Bool :=
  !(trim filename).isEmpty && filename ≠ [0x2E] && filename ≠ [0x2E, 0x2E] &&
    filename.length ≤ 255 && !filename.any (fun c => c = 0x2F || c = 0x5C) &&
    !filename.any (fun c => c < 32 || (127 ≤ c && c ≤ 159))

def validateSafePositiveInteger (label : String) (value : ℤ) : Op ℕ := do
  assert (.badRequest s!"{label} must be a safe integer, got \"{value}\"")
    (value.natAbs ≤ 9007199254740991)
  assert (.badRequest s!"{label} must be > 0") (0 < value)
  return value.toNat

/-- A public request for a session, with the key and the digest of the request. -/
structure PublicCreation extends PublicAccess where
  key : ℕ
  request : PublicRequest

/-- The session of an earlier request may be given out again. -/
def checkResult (access : PublicAccess) (id : ℕ) (s : UploadSession) : Op Unit := do
  if s.status = .completed then
    let file ← query fun w => w.db.files.find fun _ r =>
      r.uploadId = some id && r.userId = access.proof.userId && !r.isDeleted
    let parentId ← require (.notFound "File unavailable") (file.bind fun f => f.2.parentId)
    access.authorize parentId false
    assert (.conflict "Uploaded file moved; tree resume requires review") (some parentId = s.parentId)
  else
    let now ← query (·.now)
    assert (.conflict "Upload expired") (now < s.expiresAt)

/-- The session an earlier request with the same key has created. -/
def replay (access : PublicCreation) : Op (Option (ℕ × UploadSession)) := do
  let prior ← query fun w => w.db.publicShareOperations.find fun _ r =>
    r.shareLinkId = some access.proof.shareId && !r.request.isMkdir && r.idempotencyKey = access.key
  match prior with
  | some (_, prior) => do
    let now ← query (·.now)
    assert (.conflict "Idempotency key already used")
      (prior.request = access.request && now < prior.expiresAt)
    let found ← query fun w => prior.resultUploadSessionId.bind fun id =>
      ((w.db.uploadSessions.get id).filter
        (sessionWhere access.proof.userId (some access.toPublicAccess))).map fun s => (id, s)
    let (id, s) ← require (.notFound "Upload unavailable") found
    checkResult access.toPublicAccess id s
    return some (id, s)
  | none => do
    let receipts ← query fun w => (w.db.receiptsOf access.proof.shareId).length
    let pending ← query fun w => (w.db.uploadSessions.select fun _ s =>
      s.userId = access.proof.userId && s.active).length
    assert (.tooManyRequests "Too many upload requests; retry later")
      (receipts < 1000 && pending < 128)
    return none

/-- The bytes of the user and of the active sessions, with `totalSize` more, fit the quota. -/
def checkReservation (limits : UploadLimits) (user : User) (active totalSize : ℕ) : Op Unit := do
  let activeTotal ← parseDatabaseSize "Invalid storage size metadata" active
  if limits.maxTotalSize > 0 then
    let total ← parseDatabaseSize "Invalid storage size metadata" (activeTotal + totalSize : ℕ)
    assert (.badRequest "Total upload size exceeds allowed maximum") (total ≤ limits.maxTotalSize)
  let quota ← parseDatabaseSize "Invalid storage size metadata" user.storageQuota
  let used ← parseDatabaseSize "Invalid storage size metadata" user.storageUsed
  let reserved ← parseDatabaseSize "Invalid storage size metadata" (used + activeTotal : ℕ)
  let nextUsed ← parseDatabaseSize "Invalid storage size metadata" (reserved + totalSize : ℕ)
  assert (.forbidden "Storage quota exceeded") (nextUsed ≤ quota)

/-- The sizes of a request, and the number of chunks. -/
def validateSizes (limits : UploadLimits) (totalSize chunkSize : ℤ) : Op (ℕ × ℕ × ℕ) := do
  let totalSize ← validateSafePositiveInteger "totalSize" totalSize
  let chunkSize ← validateSafePositiveInteger "chunkSize" chunkSize
  assert (.badRequest "Chunk size exceeds allowed maximum") (chunkSize ≤ limits.maxChunkSize)
  assert (.badRequest "File size exceeds allowed maximum")
    (limits.maxFileSize = 0 || totalSize ≤ limits.maxFileSize)
  assert (.badRequest "Total upload size exceeds allowed maximum")
    (limits.maxTotalSize = 0 || totalSize ≤ limits.maxTotalSize)
  let totalChunks := (totalSize + chunkSize - 1) / chunkSize
  assert (.badRequest "Invalid chunk count")
    (0 < totalChunks && totalChunks ≤ limits.maxUploadChunks)
  return (totalSize, chunkSize, totalChunks)

/-- The session of an earlier public request, authorized once more. -/
def priorCreation (enabled : Bool) (parentId : Option ℕ) :
    Option PublicCreation → Op (Option (ℕ × UploadSession))
  | none => pure none
  | some access => do
    let parentId ← require (.notFound "Folder unavailable") parentId
    access.toPublicAccess.authorize parentId true
    let prior ← replay access
    prior.elim (pure ()) fun s => authorizeSession enabled s.2 (some access.toPublicAccess) false
    return prior

/-- The receipt of a public request, written with its session after another authorization. -/
def receiptOf (parentId : Option ℕ) : Option PublicCreation → Op (Option PublicShareOperation)
  | none => pure none
  | some access => do
    let parentId ← require (.notFound "Folder unavailable") parentId
    access.toPublicAccess.authorize parentId false
    let now ← query (·.now)
    return some {
      shareLinkId := some access.proof.shareId
      shareRootFolderId := some access.proof.rootId
      userId := access.proof.userId
      idempotencyKey := access.key
      request := access.request
      resultFolderId := none
      resultUploadSessionId := none
      expiresAt := now + 86400000 }

def deleteSessionRow (id : ℕ) : Op Unit :=
  transaction do
    let row ← lockSession id
    return (if row.isSome then .uploads (.deleteSession id) else .none, ())

/-- Makes the directory of a session, after the commit. -/
def prepareDirectory (id : ℕ) (s : UploadSession) (access : Option PublicCreation) : Op Unit :=
  tryCatch (do
    resolveSessionWorkspace s
    onFiles (.makeDirectory id) fun _ => ()) fun _ => do
    if access.isNone then deleteSessionRow id
    throw (.badRequest "Failed to prepare upload session")

def createUploadSession (enabled : Bool) (limits : UploadLimits) (userId : ℕ) (filename : JsString)
    (totalSize chunkSize : ℤ) (parentId expectedSha256 : Option ℕ) (access : Option PublicCreation) :
    Op (ℕ × UploadSession) := do
  assert (.badRequest "Invalid whole SHA256") (expectedSha256.all (· < 2 ^ 256))
  assert (.badRequest "Invalid filename") (validateFilename filename)
  assert (.badRequest "Invalid target folder") (parentId ≠ some 0)
  assertFolderOwnership userId parentId
  let (totalSize, chunkSize, totalChunks) ← validateSizes limits totalSize chunkSize
  let now ← query (·.now)
  let (id, saved) ← transactionWith do
    let _ ← query fun _ => ()
    mayFail (.unavailable "Upload workspace unavailable")
    let row ← lockUser userId
    let user ← require (.forbidden "User not found") row
    let prior ← priorCreation enabled parentId access
    match prior with
    | some prior => return (.none, fun _ => prior)
    | none => do
      let active ← query fun w => w.db.reserved userId
      checkReservation limits user active totalSize
      let session : UploadSession := {
        filename := .ofJs filename
        totalSize := totalSize
        uploadedSize := 0
        chunkSize := chunkSize
        totalChunks := totalChunks
        uploadedCount := 0
        accountingInitialized := true
        expectedSha256 := expectedSha256
        workspaceId := .legacy
        parentId := parentId
        origin := if access.isSome then .public else .owner
        shareLinkId := access.map (·.proof.shareId)
        shareRootFolderId := access.map (·.proof.rootId)
        status := .pending
        expiresAt := now + limits.sessionTtlMs
        userId := userId
        chunks := [] }
      let receipt ← receiptOf parentId access
      return (.uploads (.createSession session receipt),
        fun w => (w.db.uploadSessions.bound, session))
  if saved.active then prepareDirectory id saved access
  return (id, saved)

/-! ## Chunks -/

def UploadStatus.text : UploadStatus → String
  | .pending => "pending"
  | .uploading => "uploading"
  | .completed => "completed"
  | .aborted => "aborted"

/-- A chunk row is written over the one with its index. -/
def upsertChunk (chunks : List UploadChunk) (c : UploadChunk) : List UploadChunk :=
  chunks.filter (·.chunkIndex ≠ c.chunkIndex) ++ [c]

/-- The rows of the `n` chunks from `i` on whose files are there. -/
def hydrateChunks (id : ℕ) : ℕ → ℕ → Op (List UploadChunk)
  | 0, _ => pure []
  | n + 1, i => do
    let file ← onFiles .look fun w => w.disk.chunkFiles id i
    let rest ← hydrateChunks id n (i + 1)
    return file.elim rest fun data => ⟨i, data.length, sha256 data⟩ :: rest

/-- Sessions from before there were chunk rows get them from the files, whatever their sizes. -/
def hydrateLegacyAccounting (id : ℕ) (s : UploadSession) : Op UploadSession := do
  resolveSessionWorkspace s
  let found ← hydrateChunks id s.totalChunks 0
  let there ← onFiles .look fun w => w.disk.directories id
  assert .filesystem there
  let bytes ← parseDatabaseSize "Invalid storage size metadata"
    ((found.map (·.byteSize)).sum : ℕ)
  return { s with
    chunks := found.foldl upsertChunk s.chunks
    uploadedCount := found.length
    uploadedSize := bytes
    accountingInitialized := true }

def ensureAccounting (id : ℕ) (s : UploadSession) : Op UploadSession :=
  if s.accountingInitialized then pure s else hydrateLegacyAccounting id s

/-- Sees to the file of a chunk: one that is there has to have the same content, else it is written
and takes its name when it is complete. -/
def stageChunk (id index : ℕ) (data : Bytes) : Op Unit := do
  let existing ← onFiles .look fun w => w.disk.chunkFiles id index
  match existing with
  | some old =>
    assert (.badRequest s!"Chunk {index} already uploaded with different content")
      (old.length = data.length && sha256 old = sha256 data)
  | none => do
    let there ← onFiles (.writeChunk id index data) fun w => w.disk.directories id
    assert .filesystem there

/-- The session with the row of a chunk, counted unless it was there. -/
def UploadSession.withChunk (s : UploadSession) (c : UploadChunk) : UploadSession :=
  if (s.chunk c.chunkIndex).isSome then s
  else { s with
    chunks := s.chunks ++ [c]
    uploadedCount := s.uploadedCount + 1
    uploadedSize := s.uploadedSize + c.byteSize }

def uploadChunk (enabled : Bool) (userId id index : ℕ) (data : Bytes)
    (access : Option PublicAccess) : Op Unit := do
  onFiles (.receive id index data) fun _ => ()
  withTransaction id do
    let session ← findSession userId id access
    authorizeSession enabled session access false
    assertLegacyUnreserved id
    resolveSessionWorkspace session
    let now ← query (·.now)
    assert (.badRequest "Upload session expired") (now ≤ session.expiresAt)
    assert (.badRequest s!"Upload session is {session.status.text}") session.active
    assert (.badRequest "Invalid chunk index") (index < session.totalChunks)
    assert (.badRequest "Invalid chunk position") (index * session.chunkSize < session.totalSize)
    assert (.badRequest "Chunk size does not match expected size")
      (data.length = session.chunkLength index)
    let session ← ensureAccounting id session
    assert (.badRequest s!"Chunk {index} already uploaded with different content")
      ((session.chunk index).all fun c => c.byteSize = data.length && c.sha256 = sha256 data)
    stageChunk id index data
    let saved := session.withChunk ⟨index, data.length, sha256 data⟩
    let _ ← parseDatabaseSize "Invalid storage size metadata" saved.uploadedSize
    authorizeSession enabled session access false
    return (.uploads (.saveSession id { saved with status := .uploading }), ())

/-! ## Attempts -/

/-- Removes the files of the attempts and their objects, except that of the committed file. -/
def removeAttempts (id : ℕ) (committed : Option Placement) : List ℕ → Op Unit
  | [] => pure ()
  | a :: attempts => do
    if committed ≠ some (finalPlacement id (some a)) then
      onFiles (.unlink id (some a)) fun _ => ()
    onFiles (.removeAttempt id a) fun _ => ()
    removeAttempts id committed attempts

/-- The file of the session if there is one, after everything else that was assembled for it has been
removed. The attempts are listed before the file is looked up. -/
def cleanupUnpublishedAssembly (id : ℕ) (s : UploadSession) : Op (Option (ℕ × File)) := do
  assertLegacyUnreserved id
  let attempts ← onFiles .look fun w => (w.disk.attempts id).map (·.1)
  let committed ← query fun w => w.db.files.find fun _ r =>
    r.uploadId = some id && r.userId = s.userId
  removeAttempts id (committed.bind (·.2.placement)) attempts
  if committed.isNone then
    onFiles (.unlink id none) fun _ => ()
  return committed

/-- Removes the directory of a session, or fails with some of its files removed. -/
def deleteTempFiles (id : ℕ) : Op Unit :=
  .pick fun n =>
    if n = 0 then onFiles (.removeDirectory id) fun _ => ()
    else do
      onFiles (.clearDirectory id n) fun _ => ()
      throw .filesystem

/-! ## Reconciling, aborting and expiry -/

/-- The chunks that the server says it has. -/
def reconcileUploadSession (enabled : Bool) (userId id : ℕ) (access : Option PublicAccess) :
    Op (List UploadChunk) :=
  withTransaction id do
    let session ← findSession userId id access
    authorizeSession enabled session access false
    resolveSessionWorkspace session
    let now ← query (·.now)
    assert (.badRequest "Upload session expired") (session.status = .completed || now < session.expiresAt)
    match session.status with
    | .completed => do
      let file ← query fun w => w.db.files.find fun _ r =>
        r.uploadId = some id && r.userId = userId
      match access, file with
      | some a, some (_, file) => do
        let parentId ← require (.notFound "Folder unavailable") file.parentId
        a.authorize parentId false
        assert (.conflict "Uploaded file moved; tree resume requires review")
          (file.parentId = session.parentId)
      | _, _ => pure ()
      assert (.notFound "Completed upload file not found") (file.any fun f => !f.2.isDeleted)
      return (.none, [])
    | .aborted => return (.none, [])
    | _ => do
      let saved ← ensureAccounting id session
      return (if session.accountingInitialized then .none else .uploads (.saveSession id saved),
        saved.chunks)

def abortUpload (enabled : Bool) (userId id : ℕ) (access : Option PublicAccess) : Op Unit :=
  withTransaction id do
    let session ← findSession userId id access
    authorizeSession enabled session access false
    resolveSessionWorkspace session
    assert (.badRequest "Cannot abort a completed upload") (session.status ≠ .completed)
    let _ ← cleanupUnpublishedAssembly id session
    deleteTempFiles id
    return (.uploads (.saveSession id { session with status := .aborted, chunks := [] }), ())

/-- The cleanup of one session, none if it is still in use. -/
def cleanupSession (id : ℕ) : Op Unit :=
  transaction do
    let locked ← trySessionFence id false
    if locked then
      let row ← lockSession id
      match row with
      | none => return (.none, ())
      | some session => do
        resolveSessionWorkspace session
        let now ← query (·.now)
        if session.active && now ≤ session.expiresAt then return (.none, ())
        else do
          let _ ← cleanupUnpublishedAssembly id session
          deleteTempFiles id
          return (.uploads (if session.active then .deleteSession id
            else .saveSession id { session with chunks := [] }), ())
    else return (.none, ())

def cleanupSessions : List ℕ → Op Unit
  | [] => pure ()
  | id :: ids => do
    cleanupSession id
    cleanupSessions ids

def cleanupExpiredSessions : Op Unit := do
  let sessions ← query fun w => w.db.uploadSessions.select fun _ s =>
    s.active && s.workspaceId ≠ .ssd
  cleanupSessions sessions

/-! ## Completing -/

/-- Writes the `n` chunks from `i` on to the file of the attempt, each checked against its row. -/
def assembleChunks (id attempt : ℕ) (s : UploadSession) : ℕ → ℕ → Op (List Bytes)
  | 0, _ => pure []
  | n + 1, i => do
    let file ← onFiles .look fun w => w.disk.chunkFiles id i
    let data ← require .filesystem file
    assert (.badRequest s!"Chunk {i} size does not match expected {s.chunkLength i}")
      (data.length = s.chunkLength i)
    let record ← query fun w => (w.db.uploadSessions.get id).bind (·.chunk i)
    onFiles (.appendAttempt id attempt data) fun _ => ()
    assert (.badRequest s!"Chunk {i} integrity mismatch")
      (record.all fun c => c.byteSize = data.length && c.sha256 = sha256 data)
    let rest ← assembleChunks id attempt s n (i + 1)
    return data :: rest

/-- Locks the live path from the destination to the root. -/
def lockPublicationDestination (userId : ℕ) : Option ℕ → Op Unit
  | none => pure ()
  | some p => do
    let rows ← query fun w => w.db.ancestors userId 128 [] p
    assert (.notFound "Destination folder unavailable") (rows.any (·.2 = none))
    lockFolders ((rows.map (·.1)).insertionSort (· ≤ ·))

/-- The session of an upload whose file has been found, completed. -/
def completeRecovered (enabled : Bool) (userId id : ℕ) (session : UploadSession) (fileId : ℕ)
    (access : Option PublicAccess) : Op Unit :=
  transaction do
    let user ← lockUser userId
    assert (.forbidden "User unavailable") (user.any (·.isActive))
    authorizeSession enabled session access true
    lockPublicationDestination userId session.parentId
    let row ← lockSession id
    let file ← query fun w => (w.db.files.get fileId).filter fun r =>
      r.userId = userId && r.uploadId = some id && !r.isDeleted
    let current ← require (.conflict "Upload recovery state changed")
      (row.filter (sessionWhere userId access))
    assert (.conflict "Upload recovery state changed")
      (current.active && current.parentId = session.parentId &&
        file.any fun f => f.parentId = current.parentId)
    let now ← query (·.now)
    assert (.badRequest "Upload session expired") (now < current.expiresAt)
    assertLegacyUnreserved id
    authorizeSession enabled current access false
    return (.uploads (.saveSession id { current with status := .completed, chunks := [] }), ())

/-- The row of the file of a session, its object being that of the attempt. -/
def uploadedFile (userId id attempt : ℕ) (s : UploadSession) (choice : NameChoice) (data : Bytes)
    (mimeType : JsString) (checksum : Option ℕ) : File where
  name := .ofJs choice.chosen
  placement := some (finalPlacement id (some attempt))
  size := data.length
  mimeType := some mimeType
  checksum := checksum
  isFolder := false
  isDeleted := false
  deletedAt := none
  parentId := s.parentId
  folderId := none
  uploadId := some id
  userId := userId

/-- The session when its file is published; its chunk rows are deleted. -/
def UploadSession.complete (s : UploadSession) (data : Bytes) : UploadSession :=
  { s with
    status := .completed
    uploadedSize := data.length
    uploadedCount := s.totalChunks
    accountingInitialized := true
    chunks := [] }

/-- The writes that publish the assembled file. -/
def publish (enabled : Bool) (userId id attempt : ℕ) (session : UploadSession) (data : Bytes)
    (mimeType : JsString) (access : Option PublicAccess) : Op Tx := do
  let row ← lockUser userId
  let user ← require (.forbidden "User unavailable") (row.filter (·.isActive))
  authorizeSession enabled session access true
  lockPublicationDestination userId session.parentId
  let row ← lockSession id
  let current ← require (.conflict "Upload session changed during assembly")
    (row.filter (sessionWhere userId access))
  assert (.conflict "Upload session changed during assembly")
    (current.parentId = session.parentId && current.workspaceId = session.workspaceId &&
      current.filename = session.filename && current.totalSize = session.totalSize &&
      current.chunkSize = session.chunkSize && current.expectedSha256 = session.expectedSha256 &&
      current.active)
  let now ← query (·.now)
  assert (.badRequest "Upload session expired") (now < current.expiresAt)
  assertLegacyUnreserved id
  resolveSessionWorkspace current
  let active ← query fun w => w.db.reserved userId
  let used ← parseDatabaseSize "Invalid storage size metadata" user.storageUsed
  let activeTotal ← parseDatabaseSize "Invalid storage size metadata" active
  let total ← parseDatabaseSize "Invalid storage size metadata" (used + activeTotal : ℕ)
  let quota ← parseDatabaseSize "Invalid storage size metadata" user.storageQuota
  assert (.forbidden "Storage quota exceeded") (total ≤ quota)
  let choice ← allocateNamespaceName userId current.parentId current.filename.val .file none none
  let linked ← onFiles (.link id attempt) fun w =>
    ((w.disk.attempts id).find? (·.1 = attempt)).isSome &&
      (w.disk.objects (finalPlacement id (some attempt))).isNone
  assert .filesystem linked
  let checksum := if session.expectedSha256.isSome || access.isSome then some (sha256 data) else none
  authorizeSession enabled current access false
  updateStorageUsed userId data.length
  authorizeSession enabled current access false
  return .uploads (.publish id (current.complete data)
    (uploadedFile userId id attempt current choice data mimeType checksum) choice)

/-- Assembles the chunks in the file of the attempt and gets its publication ready. -/
def assembleAndPublish (enabled : Bool) (detect : Bytes → JsString) (userId id attempt : ℕ)
    (there : Bool) (session : UploadSession) (access : Option PublicAccess) : Op Tx := do
  mayFail .filesystem
  assert .filesystem there
  let parts ← tryCatch (assembleChunks id attempt session session.totalChunks 0) fun e => do
    onFiles (.removeAttempt id attempt) fun _ => ()
    throw e
  let data := parts.flatten
  if data.length ≠ session.totalSize then
    onFiles (.removeAttempt id attempt) fun _ => ()
    throw (.badRequest
      s!"Actual file size {data.length} does not match declared totalSize {session.totalSize}")
  assert (.badRequest "Whole-file integrity mismatch")
    (session.expectedSha256.all (· = sha256 data))
  mayFail .filesystem
  orRollback (publish enabled userId id attempt session data (detect data) access)

/-- Removes what an attempt has made that was not to be committed. -/
def discardAttempt (id attempt : ℕ) : Op Unit := do
  ignoreFailure (onFiles (.unlink id (some attempt)) fun _ => ())
  ignoreFailure (onFiles (.removeAttempt id attempt) fun _ => ())

def completeUpload (enabled : Bool) (detect : Bytes → JsString) (userId id : ℕ)
    (access : Option PublicAccess) : Op Unit :=
  withAssemblyFence id do
    let row ← query fun w => (w.db.uploadSessions.get id).filter (sessionWhere userId access)
    let session ← require (.notFound "Upload session not found") row
    authorizeSession enabled session access false
    assertLegacyUnreserved id
    resolveSessionWorkspace session
    let now ← query (·.now)
    assert (.badRequest "Upload session expired") (now ≤ session.expiresAt)
    match session.status with
    | .completed => do
      let existing ← query fun w => w.db.files.find fun _ r =>
        r.uploadId = some id && r.userId = userId && !r.isDeleted
      let (_, file) ← require (.badRequest "Upload already completed but file record missing") existing
      match access with
      | some a => do
        let parentId ← require (.notFound "Folder unavailable") file.parentId
        a.authorize parentId false
        assert (.conflict "Uploaded file moved; tree resume requires review")
          (file.parentId = session.parentId)
      | none => pure ()
      ignoreFailure do
        let _ ← cleanupUnpublishedAssembly id session
        deleteTempFiles id
    | .aborted => throw (.badRequest "Upload was aborted")
    | _ => do
      let recovered ← cleanupUnpublishedAssembly id session
      match recovered with
      | some (fileId, _) => do
        completeRecovered enabled userId id session fileId access
        ignoreFailure (deleteTempFiles id)
      | none => do
        let (attempt, there) ← Prog.ask (.disk (.createAttempt id)) fun _ w =>
          (w.disk.issued, w.disk.directories id)
        let tx ← tryCatch
          (assembleAndPublish enabled detect userId id attempt there session access) fun e => do
            discardAttempt id attempt
            throw e
        -- From here on a lost acknowledgement has to leave the object alone.
        orRollback (commit tx)
        ignoreFailure (deleteTempFiles id)

end HomeCloud
