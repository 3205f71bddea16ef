import HomeCloud.Uploads.Artifacts
import HomeCloud.Uploads.Ssd

/-!
# Finalizations

A complete upload on the SSD is copied to the storage, verified, renamed to its object and committed. The journal
records how far that has come, and what a process has left behind when it ended is found again by its inode.

* `SsdFinalization.assemble`, `SsdFinalization.verify`: copying and verifying.
* `FinalizationFilesystem`: the files of an operation.
* `SsdCrossFsFinalizer.finalize`: a first attempt.
* `SsdFinalizationRecovery.recover`: the attempts after it.
* `SsdUploads.completeUpload`, `SsdUploads.onModuleInit`.
-/

namespace HomeCloud

open Concurrent Sha256

/-- The roots of the two disks, the directory of each session and that of the objects of each user. -/
structure SsdHost where
  sourceRoot : ArtifactIdentity
  targetRoot : ArtifactIdentity
  sourceDirectory : ℕ → ArtifactIdentity
  targetDirectory : ℕ → ArtifactIdentity

/-! ## Files of an operation -/

namespace FinalizationFilesystem

/-- Roots, paths and directories are still the ones that were pinned. -/
def assertBinding : Op Unit := mayFail (.error "Finalization binding unavailable")

/-- The binding of an operation, with the SSD locked. The lock is never waited for, and the directories have
to be there. -/
def acquire (host : SsdHost) (userId uploadId id : ℕ) : Op FinalizationBinding := do
  assert (.error "Invalid finalization identity") (0 < userId)
  mayFail .filesystem
  let free ← Prog.ask (.disk .lockSsd) fun _ w => w.disk.flock.isNone
  assert (.error "Resource temporarily unavailable") free
  let there ← onFiles .look fun w => w.disk.ssd.directories uploadId
  assert .filesystem there
  assert (.error "Finalization requires separate source and target filesystems")
    (host.sourceRoot.device ≠ host.targetRoot.device)
  assertBinding
  return {
    sourcePath := uploadId
    target := ⟨0, .finalized userId id⟩
    sourceRoot := host.sourceRoot
    targetRoot := host.targetRoot
    sourceDirectory := host.sourceDirectory uploadId
    targetDirectory := host.targetDirectory userId }

/-- Gives up the lock, if it was taken. -/
def close : Op Unit := SsdUploads.release

/-- Runs `body` and gives up the lock. -/
def closing {α : Type} (body : Op α) : Op α := do
  let a ← tryCatch body fun e => do
    close
    throw e
  close
  return a

/-- The file of a chunk, none when there is none. -/
def openChunk (uploadId index : ℕ) : Op (Option Artifact) := do
  assertBinding
  onFiles .look fun w => w.disk.ssd.chunks uploadId index

/-- A new temporary file. One that is there is never taken over. -/
def createTemporary (id : ℕ) : Op Artifact := do
  assertBinding
  let old ← onFiles .look fun w => w.disk.ssd.temporaries id
  assert .filesystem old.isNone
  let inode ← onFiles (.ssd (.createTemporary id)) fun w => w.disk.issued
  return ⟨inode, []⟩

/-- The temporary file or the object of an operation. One with another identity than the recorded one is not
touched. -/
def inspectTarget (op : FinalizationOperation) (id : ℕ) (final : Bool) : Op (Option Artifact) := do
  assertBinding
  let file ← onFiles .look fun w => if final then w.disk.ssd.finals id else w.disk.ssd.temporaries id
  assert (.error "Unowned recovery target artifact")
    (file.all fun a => op.targetIdentity = some (op.identify a))
  return file

/-- Empties the temporary file. -/
def resetTemporary (id : ℕ) (a : Artifact) : Op Artifact := do
  assertBinding
  onFiles (.ssd (.truncateTemporary id)) fun _ => ()
  return { a with data := [] }

/-- File and directory are on disk. -/
def syncTarget : Op Unit := do
  assertBinding
  mayFail .filesystem

/-- Gives the temporary file the name of the object, which nothing has yet. -/
def publish (id : ℕ) : Op Unit := do
  assertBinding
  let final ← onFiles .look fun w => w.disk.ssd.finals id
  assert .filesystem final.isNone
  onFiles (.ssd (.publish id)) fun _ => ()
  assertBinding

/-- Removes the file of a chunk, if it is still the one that was observed. -/
def removeChunk (uploadId : ℕ) (part : UploadChunk) (observed : Artifact) : Op Unit := do
  let file ← openChunk uploadId part.chunkIndex
  match file with
  | none => pure ()
  | some a => do
    assert (.error "Cleanup owned chunk identity changed")
      (a.inode = observed.inode && a.data.length = part.byteSize)
    onFiles (.ssd (.removeChunk uploadId part.chunkIndex)) fun _ => ()
    assertBinding

/-- The binding of an operation that was begun has to be the recorded one, and only one of its two files can be
there. -/
def reopen (host : SsdHost) (op : FinalizationOperation) (id : ℕ) : Op Unit := do
  let binding ← acquire host op.userId op.sessionId id
  assert (.error "Recovery journal binding changed") (binding = op.binding)
  let temporary ← inspectTarget op id false
  let final ← inspectTarget op id true
  assert (.error "Ambiguous recovery target artifacts") (temporary.isNone || final.isNone)

end FinalizationFilesystem

/-! ## Copying and verifying -/

namespace SsdFinalization

open FinalizationFilesystem

def validateLayout (op : FinalizationOperation) : Op Unit :=
  assert (.error "Invalid finalization layout")
    (0 < op.totalSize && op.totalSize ≤ 9007199254740991 && 0 < op.chunkSize &&
      op.chunkSize ≤ 9007199254740991 && 0 < op.totalChunks &&
      op.totalChunks = (op.totalSize + op.chunkSize - 1) / op.chunkSize && op.expectedSha256 < 2 ^ 256)

/-- Visits the chunks that the journal has recorded, which are those of the layout in order. -/
def visitManifest {α : Type} (op : FinalizationOperation) (name : String) (visit : α → UploadChunk → Op α) :
    ℕ → α → List UploadChunk → Op α
  | index, a, [] => do
    assert (.error s!"Incomplete {name} manifest") (index = op.totalChunks)
    return a
  | index, a, part :: parts => do
    assert (.error s!"Invalid {name} manifest")
      (part.chunkIndex = index && index < op.totalChunks &&
        part.byteSize = chunkLength op.totalSize op.chunkSize op.totalChunks index && part.sha256 < 2 ^ 256)
    let a ← visit a part
    visitManifest op name visit (index + 1) a parts

/-- The recorded chunks of an operation in order. -/
def chunks (id : ℕ) : Op (List UploadChunk) :=
  query fun w => (w.db.finalizationOperations.get id).elim [] fun op =>
    op.chunks.mergeSort fun c c' => c.chunkIndex ≤ c'.chunkIndex

/-- Writes the bytes to the end of the temporary file, some of them at a time. -/
def writeAll (id : ℕ) : ℕ → Bytes → Op Unit
  | 0, _ => pure ()
  | _ + 1, [] => pure ()
  | n + 1, data => .pick fun k => do
    onFiles (.ssd (.appendTemporary id (data.take (k + 1)))) fun _ => ()
    writeAll id n (data.drop (k + 1))

/-- Copies a chunk. What is wrong with it is found out when it has been copied. -/
def copyChunk (op : FinalizationOperation) (id : ℕ) (copied : Bytes) (part : UploadChunk) : Op Bytes := do
  let file ← openChunk op.sessionId part.chunkIndex
  let a ← require .filesystem file
  assert (.error "Chunk size or type mismatch") (a.data.length = part.byteSize)
  assert (.error "Finalization size exceeded") (copied.length + a.data.length ≤ op.totalSize)
  writeAll id a.data.length a.data
  assert (.error "Chunk integrity mismatch") (sha256 a.data = part.sha256)
  return copied ++ a.data

/-- Copies all chunks to the temporary file, and finds out whether they are the upload. -/
def assemble (op : FinalizationOperation) (id : ℕ) : Op Unit := do
  let parts ← chunks id
  let copied ← visitManifest op "finalization" (copyChunk op id) 0 [] parts
  let target ← onFiles .look fun w => w.disk.ssd.temporaries id
  assert (.error "Whole-file integrity mismatch")
    (copied.length = op.totalSize && target.any (·.data.length = op.totalSize) &&
      sha256 copied = op.expectedSha256)
  mayFail .filesystem

/-- The file has the size and the digest. -/
def verify (a : Artifact) (size digest : ℕ) : Op Unit := do
  assert (.error "Untrusted recovery artifact") (a.data.length = size)
  mayFail .filesystem
  assert (.error "Recovery artifact integrity mismatch") (sha256 a.data = digest)

/-- Records the MIME type of the verified file; one that cannot be detected is that of any bytes. -/
def checkpointSsdMime (detect : Bytes → JsString) (id : ℕ) : Op Unit := do
  let mime ← tryCatch (do
    let file ← onFiles .look fun w => w.disk.ssd.temporaries id
    let a ← require .filesystem file
    return detect a.data) fun _ => pure octetStream
  FinalizationStore.recordMimeType id mime

end SsdFinalization

open FinalizationFilesystem SsdFinalization

def when (b : Bool) (p : Op Unit) : Op Unit := if b then p else pure ()

/-! ## The first attempt -/

namespace SsdCrossFsFinalizer

def randomUUID : Op ℕ := .pick fun n => .ret n

/-- Copies, verifies and commits a complete upload. What a failure leaves is kept for the recovery. -/
def finalize (host : SsdHost) (detect : Bytes → JsString) (userId uploadId expectedSha256 : ℕ) :
    Op (ℕ × File) := do
  assert (.error "Invalid isolated finalization request") (0 < userId && expectedSha256 < 2 ^ 256)
  mayFail (.error "Isolated finalizer is busy")
  closing do
    let id ← randomUUID
    let binding ← acquire host userId uploadId id
    let op ← FinalizationStore.begin id userId uploadId expectedSha256 binding
    validateLayout op
    assert (.error "Journal reservation mismatch")
      (op.userId = userId && op.sessionId = uploadId && op.expectedSha256 = expectedSha256 &&
        op.binding = binding)
    assertBinding
    let writer ← createTemporary id
    FinalizationStore.recordTarget id (op.identify writer)
    assemble op id
    FinalizationStore.transition id .assembling ⟨.verified, by decide⟩
    assertBinding
    checkpointSsdMime detect id
    assertBinding
    FinalizationStore.transition id .verified ⟨.publishing, by decide⟩
    FinalizationFilesystem.publish id
    FinalizationStore.transition id .publishing ⟨.published, by decide⟩
    assertBinding
    FinalizationStore.commit id

end SsdCrossFsFinalizer

/-! ## Recovery -/

namespace SsdFinalizationRecovery

def requireIdentity (op : FinalizationOperation) (a : Artifact) : Op Unit :=
  assert (.error "Recovery target identity is not journal-owned") (op.targetIdentity = some (op.identify a))

/-- The file of a chunk that is there has the recorded content. -/
def verifyChunk (op : FinalizationOperation) (part : UploadChunk) : Op (Option Artifact) := do
  assertBinding
  let file ← openChunk op.sessionId part.chunkIndex
  match file with
  | none => return none
  | some a => do
    verify a part.byteSize part.sha256
    return some a

/-- The object is there, and nothing else. -/
def verifyFinal (op : FinalizationOperation) (id : ℕ) : Op Unit := do
  assertBinding
  let temporary ← inspectTarget op id false
  assert (.error "Unexpected temporary after publication") temporary.isNone
  let final ← inspectTarget op id true
  let a ← require (.error "Published target is missing") final
  requireIdentity op a
  verify a op.totalSize op.expectedSha256
  syncTarget
  assertBinding

/-- Whether the temporary file is complete. One that is too long or has the right size and other bytes is left
as it is. -/
def inspectTemporary (op : FinalizationOperation) : Option Artifact → Op Bool
  | none => do
    assert (.error "Recorded target artifact is missing") op.targetIdentity.isNone
    return false
  | some a => do
    requireIdentity op a
    assert (.error "Oversized recovery temporary") (a.data.length ≤ op.totalSize)
    if a.data.length = op.totalSize then
      verify a op.totalSize op.expectedSha256
      return true
    else return false

/-- Starts the temporary file again, or a new one. -/
def openWriter (id : ℕ) : Option Artifact → Op Artifact
  | some a => resetTemporary id a
  | none => createTemporary id

/-- Copies the chunks again, once all of them are known to be there. -/
def reassemble (op : FinalizationOperation) (id : ℕ) (temporary : Option Artifact) : Op Unit := do
  let parts ← chunks id
  let _ ← visitManifest op "recovery" (fun _ part => do
    let file ← verifyChunk op part
    assert (.error "Missing recovery source chunk") file.isSome) 0 () parts
  let writer ← openWriter id temporary
  FinalizationStore.recordTarget id (op.identify writer)
  assemble op id

/-- Completes the temporary file of an operation. -/
def completeAssembly (op : FinalizationOperation) (id : ℕ) : Op FinalizationOperation :=
  if op.state ≠ .assembling then return op
  else do
    let final ← inspectTarget op id true
    assert (.error "Unexpected assembled final artifact") final.isNone
    let temporary ← inspectTarget op id false
    let complete ← inspectTemporary op temporary
    when (!complete) (reassemble op id temporary)
    syncTarget
    FinalizationStore.transition id .assembling ⟨.verified, by decide⟩
    let (op, _) ← FinalizationStore.lookup id
    return op

/-- Announces the rename of a verified file. -/
def announce (detect : Bytes → JsString) (op : FinalizationOperation) (id : ℕ) : Op Unit :=
  when (op.state = .verified) do
    when (!op.mimeTypeCheckpointed) (checkpointSsdMime detect id)
    FinalizationStore.transition id .verified ⟨.publishing, by decide⟩

/-- Gives the verified file its name, unless it has that already. -/
def completePublication (detect : Bytes → JsString) (op : FinalizationOperation) (id : ℕ) :
    Op FinalizationOperation :=
  if op.state ≠ .verified && op.state ≠ .publishing then return op
  else do
    let temporary ← inspectTarget op id false
    let final ← inspectTarget op id true
    assert (.error "Ambiguous publication artifacts") (temporary.isSome != final.isSome)
    assert (.error "Final artifact without publication intent") (op.state ≠ .verified || final.isNone)
    let artifact ← require .filesystem (temporary.or final)
    requireIdentity op artifact
    verify artifact op.totalSize op.expectedSha256
    syncTarget
    announce detect op id
    when temporary.isSome (FinalizationFilesystem.publish id)
    syncTarget
    FinalizationStore.transition id .publishing ⟨.published, by decide⟩
    let (op, _) ← FinalizationStore.lookup id
    return op

/-- Removes the file of a chunk, if it is there with the recorded content. -/
def clearChunk (op : FinalizationOperation) (part : UploadChunk) : Op Unit := do
  let observed ← verifyChunk op part
  match observed with
  | none => pure ()
  | some a => removeChunk op.sessionId part a

/-- Removes the chunks of a committed operation, after all that are there have been verified. -/
def cleanup (op : FinalizationOperation) (id : ℕ) : Op Unit := do
  let parts ← chunks id
  let _ ← visitManifest op "recovery" (fun _ part => do
    let _ ← verifyChunk op part) 0 () parts
  let parts ← chunks id
  let _ ← visitManifest op "recovery" (fun _ part => clearChunk op part) 0 () parts
  syncTarget
  FinalizationStore.finishCleanup id

/-- From the state the journal has, with the SSD locked. -/
def resume (detect : Bytes → JsString) (op : FinalizationOperation) (id : ℕ) : Op (ℕ × File) := do
  let op ← completeAssembly op id
  let op ← completePublication detect op id
  assert (.error "Unsupported recovery outcome") (op.state = .published || op.state = .committed)
  verifyFinal op id
  when (op.state = .published) do
    let _ ← FinalizationStore.commit id
  let (op, found) ← FinalizationStore.lookup id
  let file ← require (.error "Authoritative committed outcome required for cleanup")
    (found.filter fun _ => op.state = .committed)
  verifyFinal op id
  cleanup op id
  return file

/-- One attempt to bring an operation to its end. -/
def recover (host : SsdHost) (detect : Bytes → JsString) (id : ℕ) : Op (Option (ℕ × File)) := do
  mayFail (.error "Isolated finalizer is busy")
  closing do
    let (op, found) ← FinalizationStore.lookup id
    validateLayout op
    if op.cleanupState = .cleaned then return found
    else
      reopen host op id
      let (current, _) ← FinalizationStore.lookup id
      assert (.error "Recovery journal changed during acquisition") (current = op)
      let file ← resume detect op id
      return some file

end SsdFinalizationRecovery

/-! ## Completing uploads -/

namespace SsdUploads

/-- The operation of an upload. -/
def findOperation (userId id : ℕ) : Op (Option ℕ) :=
  query fun w => (w.db.finalizationOperations.find fun _ op => op.userId = userId && op.sessionId = id).map
    (·.1)

def completeUpload (enabled : Bool) (host : SsdHost) (detect : Bytes → JsString) (userId id : ℕ) :
    Op (ℕ × File) := do
  let session ← ownedSession enabled userId id
  let operation ← findOperation userId id
  match operation with
  | some operation => do
    let (op, found) ← FinalizationStore.lookup operation
    if op.cleanupState = .cleaned then require (.notFound "Completed upload file not found") found
    else
      let file ← SsdFinalizationRecovery.recover host detect operation
      require (.unavailable "Finalization outcome unavailable") file
  | none => do
    let _ ← getUploadSession enabled userId id
    active session
    assert (.badRequest "Upload is incomplete")
      (session.uploadedCount = session.totalChunks && session.uploadedSize = session.totalSize)
    capacity
    let digest ← require (.unavailable "SSD session has no durable whole-file SHA256") session.expectedSha256
    let file ← SsdCrossFsFinalizer.finalize host detect userId id digest
    let committed ← findOperation userId id
    match committed with
    | some operation => ignoreFailure do
      let _ ← SsdFinalizationRecovery.recover host detect operation
    | none => pure ()
    return file

def recoverAll (host : SsdHost) (detect : Bytes → JsString) : List ℕ → Op Unit
  | [] => pure ()
  | id :: ids => do
    ignoreFailure do
      let _ ← SsdFinalizationRecovery.recover host detect id
    recoverAll host detect ids

/-- One sweep over the operations that a process before this one has not brought to their end. -/
def onModuleInit (enabled : Bool) (host : SsdHost) (detect : Bytes → JsString) : Op Unit :=
  if !enabled then pure ()
  else do
    let pending ← query fun w =>
      (w.db.finalizationOperations.select fun _ op => op.cleanupState = .pending).take 128
    recoverAll host detect pending

end SsdUploads

end HomeCloud
