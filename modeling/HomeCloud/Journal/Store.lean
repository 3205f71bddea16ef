import HomeCloud.Statements
import HomeCloud.Uploads.Layout

/-!
# The finalization store

The journal in which a finalization of an upload on the SSD is recorded. Every method is a transaction
of its own; what is in the files is never looked at in one.

* `FinalizationStore.outcome`: what the rows of an operation say, when they agree.
* `FinalizationStore.begin`, `recordTarget`, `recordMimeType`, `transition`, `commit`, `finishCleanup`,
  `lookup`: the methods.
-/

namespace HomeCloud

open Concurrent

/-- An error that is no response of its own. -/
def Err.error (message : String) : Err := .http 500 message

/-- The row of an operation, locked. -/
def lockOperation (id : ℕ) : Op (Option FinalizationOperation) :=
  selectForUpdate (.operation id) (·.finalizationOperations.get id)

namespace FinalizationStore

/-! ## Checks -/

/-- The session is on the SSD, with the digest of the request and the directory of the binding. -/
def matchesSessionBinding (id : ℕ) (s : UploadSession) (expectedSha256 : ℕ)
    (binding : FinalizationBinding) : Bool :=
  s.workspaceId = .ssd && s.expectedSha256 = some expectedSha256 && binding.sourcePath = id

/-- The object is in the legacy storage, and source and target are on two devices. -/
def validateBinding (binding : FinalizationBinding) : Op Unit := do
  assert (.error "Invalid finalization identities") (binding.target.storageLocationId = 0)
  assert (.error "Invalid finalization placement")
    (binding.sourceRoot.device ≠ binding.targetRoot.device &&
      binding.sourceDirectory.device = binding.sourceRoot.device &&
      binding.targetDirectory.device = binding.targetRoot.device)

/-- The session is the complete one that the operation was begun for. -/
def sessionAgrees (op : FinalizationOperation) (s : UploadSession) : Bool :=
  s.userId = op.userId && s.filename = op.filename && s.parentId = op.parentId &&
    s.totalSize = op.totalSize && s.chunkSize = op.chunkSize && s.totalChunks = op.totalChunks &&
    s.uploadedCount = op.totalChunks && s.uploadedSize = op.totalSize && s.accountingInitialized &&
    matchesSessionBinding op.sessionId s op.expectedSha256 op.binding

/-- The file is the one that the operation has committed. -/
def fileAgrees (op : FinalizationOperation) (id : ℕ) (r : File) : Bool :=
  op.fileId = some id && r.userId = op.userId && r.uploadId = some op.sessionId && op.describes r &&
    r.mimeType = some op.mimeType

/-- The files of the operation: the committed one and those of its upload. -/
def filesOf (db : Db) (op : FinalizationOperation) : List (ℕ × File) :=
  (db.files.select fun i r => op.reserves i r).filterMap fun i => (db.files.get i).map fun r => (i, r)

/-- The file of the operation, none before it is committed; fails when the rows do not agree. -/
def outcome (op : FinalizationOperation) : Op (Option (ℕ × File)) := do
  validateBinding op.binding
  assert (.error "Ambiguous finalization journal")
    (((op.state = .committed) == op.fileId.isSome) &&
      (op.cleanupState = .pending || op.state = .committed))
  assert (.error "Ambiguous finalization target identity")
    (op.targetIdentity.all (·.device = op.binding.targetRoot.device) &&
      (op.state = .assembling || op.targetIdentity.isSome))
  let files ← query fun w => filesOf w.db op
  if op.cleanupState = .cleaned then return files.find? fun f => op.fileId = some f.1
  else
    let session ← query fun w => w.db.uploadSessions.get op.sessionId
    assert (.error "Ambiguous finalization session outcome") (session.any fun s => sessionAgrees op s &&
      if op.state = .committed then s.status = .completed else s.active)
    if op.state ≠ .committed then
      assert (.error "Ambiguous uncommitted File outcome") files.isEmpty
      return none
    else
      assert (.error "Ambiguous committed File outcome")
        (files.length = 1 && files.all fun f => fileAgrees op f.1 f.2)
      return files.head?

/-- The transaction is to be on disk when it is acknowledged. -/
def requireDurability : Op Unit := do
  let _ ← query fun _ => ()
  mayFail (.error "Durable finalization requires PostgreSQL fsync=on")

/-- Locks the owner, who is active, and the parent, which is a live folder of the owner. -/
def validateOwnerAndParent (userId : ℕ) (parentId : Option ℕ) : Op User := do
  let row ← lockUser userId
  let owner ← require (.error "Finalization owner unavailable") (row.filter (·.isActive))
  match parentId with
  | some p =>
    let parent ← lockFolder p
    assert (.error "Finalization parent unavailable")
      (parent.any fun r => r.userId = userId && !r.isDeleted)
  | none => pure ()
  return owner

/-! ## Methods -/

/-- The operation and its file. -/
def lookup (id : ℕ) : Op (FinalizationOperation × Option (ℕ × File)) :=
  transaction do
    let row ← lockOperation id
    let op ← require (.error "Unknown finalization operation") row
    let file ← outcome op
    return (.none, op, file)

/-- The identity of the temporary file is recorded once. -/
def recordTarget (id : ℕ) (identity : ArtifactIdentity) : Op Unit :=
  transaction do
    requireDurability
    let row ← lockOperation id
    let op ← require (.error "Target identity checkpoint requires assembling operation")
      (row.filter fun op => op.state = .assembling && identity.device = op.binding.targetRoot.device)
    match op.targetIdentity with
    | some recorded =>
      assert (.error "Target identity checkpoint is immutable") (recorded = identity)
      return (.none, ())
    | none => return (.journal (.recordTarget id identity), ())

/-- A character of a MIME type; the second half is for all but the first one of a part. -/
def isMimeUnit (first : Bool) (c : UInt16) : Bool :=
  (0x61 ≤ c && c ≤ 0x7A) || (0x30 ≤ c && c ≤ 0x39) ||
    (!first && (c = 0x21 || c = 0x23 || c = 0x24 || c = 0x26 || c = 0x5E || c = 0x5F || c = 0x2E ||
      c = 0x2B || c = 0x2D))

/-- A part of a MIME type. -/
def isMimePart : JsString → Bool
  | [] => false
  | c :: s => isMimeUnit true c && s.all (isMimeUnit false)

/-- Two parts with a slash between them. -/
def isMimeType (mimeType : JsString) : Bool :=
  mimeType.length ≤ 255 && trim mimeType = mimeType &&
    match mimeType.splitOn 0x2F with
    | [type, subtype] => isMimePart type && isMimePart subtype
    | _ => false

/-- The MIME type is recorded once. -/
def recordMimeType (id : ℕ) (mimeType : JsString) : Op Unit := do
  assert (.error "Invalid MIME checkpoint") (isMimeType mimeType)
  transaction do
    requireDurability
    let row ← lockOperation id
    let op ← require (.error "MIME checkpoint requires verified operation")
      (row.filter fun op => op.state = .verified)
    let _ ← outcome op
    if op.mimeTypeCheckpointed then
      assert (.error "Finalization MIME checkpoint is immutable") (op.mimeType = mimeType)
      return (.none, ())
    else return (.journal (.recordMimeType id mimeType), ())

/-- The chunk rows are deleted when the chunks have been removed. -/
def finishCleanup (id : ℕ) : Op Unit :=
  transaction do
    requireDurability
    let row ← lockOperation id
    let op ← require (.error "Cleanup requires authoritative committed outcome")
      (row.filter fun op => op.state = .committed)
    if op.cleanupState = .cleaned then return (.none, ())
    else
      let _ ← outcome op
      let _ ← lockSession op.sessionId
      return (.journal (.finishCleanup id op.sessionId), ())

/-- The chunk rows are those of the layout, each once. -/
def layoutValid (s : UploadSession) : Bool :=
  s.chunks.length = s.totalChunks && (s.chunks.map (·.chunkIndex)).min? = some 0 &&
    (s.chunks.map (·.chunkIndex)).max? = some (s.totalChunks - 1) &&
    (s.chunks.map (·.byteSize)).sum = s.totalSize &&
    s.chunks.all fun c => c.chunkIndex < s.totalChunks && c.byteSize = s.chunkLength c.chunkIndex

/-- All chunks of the session are there by its counters. -/
def manifestComplete (s : UploadSession) : Bool :=
  s.active && s.accountingInitialized && 0 < s.totalSize && s.totalSize ≤ 9007199254740991 &&
    0 < s.chunkSize && 0 < s.totalChunks && s.totalChunks = (s.totalSize + s.chunkSize - 1) / s.chunkSize &&
    s.uploadedCount = s.totalChunks && s.uploadedSize = s.totalSize

/-- Reserves a complete session for the operation `id`. -/
def «begin» (id userId uploadId expectedSha256 : ℕ) (binding : FinalizationBinding) :
    Op FinalizationOperation := do
  assert (.error "Invalid finalization request") (0 < userId && expectedSha256 < 2 ^ 256)
  validateBinding binding
  assert (.error "Invalid isolated finalization paths")
    (binding.sourcePath = uploadId && binding.target.relativeObjectKey = .finalized userId id)
  transaction do
    requireDurability
    let row ← lockSession uploadId
    let session ← require (.error "Unique owned upload session required")
      (row.filter fun s => s.userId = userId && s.origin = .owner)
    let now ← query (·.now)
    assert (.error "Upload manifest metadata is not complete")
      (matchesSessionBinding uploadId session expectedSha256 binding && manifestComplete session &&
        now < session.expiresAt)
    let file ← query fun w => w.db.files.find fun _ r => r.userId = userId && r.uploadId = some uploadId
    assert (.error "Upload already has a File") file.isNone
    assert (.error "Upload chunk manifest is invalid") (layoutValid session)
    let _ ← validateOwnerAndParent userId session.parentId
    let op : FinalizationOperation := {
      sessionId := uploadId
      userId := userId
      filename := session.filename
      parentId := session.parentId
      totalSize := session.totalSize
      chunkSize := session.chunkSize
      totalChunks := session.totalChunks
      expectedSha256 := expectedSha256
      binding := binding
      state := .assembling
      fileId := none
      targetIdentity := none
      cleanupState := .pending
      mimeType := octetStream
      mimeTypeCheckpointed := false
      chunks := session.chunks }
    return (.journal (.begin id op), op)

/-- Moves the operation on from a state to another one, but for the commit. -/
def transition (id : ℕ) (source : FinalizationState) (target : {s : FinalizationState // s ≠ .committed}) :
    Op Unit :=
  transaction do
    requireDurability
    let row ← lockOperation id
    assert (.error "Finalization state conflict") (row.any fun op => op.state = source)
    return (.journal (.transition id target.val), ())

/-- The row of the file that the operation commits, under the name that was chosen. -/
def committedFile (op : FinalizationOperation) (choice : NameChoice) : File where
  name := .ofJs choice.chosen
  placement := some op.binding.target
  size := op.totalSize
  mimeType := some op.mimeType
  checksum := some op.expectedSha256
  isFolder := false
  isDeleted := false
  deletedAt := none
  parentId := op.parentId
  folderId := none
  uploadId := some op.sessionId
  userId := op.userId

/-- Commits the file of a published operation. -/
def commit (id : ℕ) : Op (ℕ × File) :=
  transactionWith do
    requireDurability
    let row ← lockOperation id
    let op ← require (.error "Finalization requires published operation")
      (row.filter fun op => op.state = .committed || op.state = .published)
    if op.state = .committed then
      let found ← outcome op
      let file ← require (.error "Committed File no longer available") found
      return (.none, fun _ => file)
    else
      assert (.error "SSD commit requires durable MIME checkpoint") op.mimeTypeCheckpointed
      let _ ← outcome op
      let row ← lockSession op.sessionId
      validateBinding op.binding
      assert (.error "Finalization session changed") (row.any fun s => s.active && sessionAgrees op s)
      let owner ← validateOwnerAndParent op.userId op.parentId
      assert (.error "Finalization quota exceeded") (owner.storageUsed + op.totalSize ≤ owner.storageQuota)
      let file ← query fun w => w.db.files.find fun _ r =>
        r.userId = op.userId && r.uploadId = some op.sessionId
      assert (.error "Upload already has a File") file.isNone
      let choice ← allocateNamespaceName op.userId op.parentId op.filename.val .file none none
      let file := committedFile op choice
      return (.journal (.commit id op.sessionId file choice), fun w => (w.db.files.bound, file))

end FinalizationStore

end HomeCloud
