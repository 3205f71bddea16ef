import HomeCloud.Schema

/-!
# Triggers and indexes of the finalization journal

A pending finalization reserves its session, the chunks and the file of its upload. Triggers on the
four tables see to that; each is checked here for every row that a transaction changes.

* `Db.fileGuard`, `Db.sessionGuard`, `Db.chunkGuard`, `Db.operationGuard`: the row triggers.
* `Db.commitCheck`: the deferred triggers on operations.
* `Db.journalIndexes`: unique indexes and checks.
* `Db.triggers`: all of them; `Db.guardedSessions`: the rows they lock.
-/

namespace HomeCloud

open Concurrent

/-! ## Reservations -/

/-- The operation whose cleanup is pending and that satisfies `p`. -/
def Db.pendingOperation (db : Db) (p : FinalizationOperation → Bool) :
    Option (ℕ × FinalizationOperation) :=
  db.finalizationOperations.find fun _ op => op.cleanupState = .pending && p op

/-- The file `id` is the one of the operation, or of its upload. -/
def FinalizationOperation.reserves (op : FinalizationOperation) (id : ℕ) (r : File) : Bool :=
  op.fileId = some id || (some op.sessionId = r.uploadId && op.userId = r.userId)

/-- The file is what the operation was to make. -/
def FinalizationOperation.describes (op : FinalizationOperation) (r : File) : Bool :=
  r.name = op.filename && r.size = op.totalSize && r.parentId = op.parentId && !r.isFolder &&
    !r.isDeleted && r.checksum = some op.expectedSha256 && r.placement = some op.binding.target

/-- The file and the session are there as the committed operation says. -/
def Db.completed (db : Db) (op : FinalizationOperation) : Bool :=
  (op.fileId.bind db.files.get).any (fun r =>
    r.userId = op.userId && r.uploadId = some op.sessionId && op.describes r) &&
  (db.uploadSessions.get op.sessionId).any (·.status = .completed)

/-! ## Row triggers -/

section

variable (old new : Db) (id : ℕ)

/-- `guard_ssd_reserved_file` -/
def Db.fileGuard : Bool :=
  old.files.get id = new.files.get id ||
  (old.files.get id).all (fun r => (new.pendingOperation (·.reserves id r)).isNone) &&
  (new.files.get id).all fun r =>
    (new.pendingOperation (·.reserves id r)).all fun (_, op) =>
      (old.files.get id).isNone && op.state = .committed && op.fileId = some id && op.describes r

/-- The columns of a session that a finalization leaves as they are. -/
def UploadSession.reservedPart (s : UploadSession) : UploadSession :=
  { s with status := .pending, shareLinkId := none, shareRootFolderId := none, chunks := [] }

/-- `guard_ssd_reserved_session`, `guard_upload_whole_sha256` and `guard_upload_session_binding` -/
def Db.sessionGuard : Bool :=
  match old.uploadSessions.get id, new.uploadSessions.get id with
  | none, none => true
  | none, some s =>
    (new.pendingOperation (·.sessionId = id)).isNone &&
      (s.workspaceId = .legacy || s.expectedSha256.isSome)
  | some _, none => (new.pendingOperation (·.sessionId = id)).isNone
  | some s, some s' =>
    { s with chunks := [] } = { s' with chunks := [] } ||
    (s'.expectedSha256 = s.expectedSha256 && s'.workspaceId = s.workspaceId &&
      (s.expectedSha256.isNone || (s'.filename = s.filename && s'.totalSize = s.totalSize &&
        s'.chunkSize = s.chunkSize && s'.totalChunks = s.totalChunks)) &&
      (new.pendingOperation (·.sessionId = id)).all fun (_, op) =>
        op.state = .committed && s.active && s'.status = .completed &&
          s'.reservedPart = s.reservedPart &&
          (op.fileId.bind new.files.get).any fun r =>
            r.uploadId = some op.sessionId && r.userId = op.userId)

/-- `guard_ssd_reserved_chunks` -/
def Db.chunkGuard : Bool :=
  (old.uploadSessions.get id).elim [] UploadSession.chunks =
      (new.uploadSessions.get id).elim [] UploadSession.chunks ||
    (new.pendingOperation (·.sessionId = id)).isNone

/-- The MIME type before it is detected, `application/octet-stream`. -/
def octetStream : JsString := "application/octet-stream".toList.map fun c => c.val.toUInt16

/-- The row of a new operation. -/
def Db.operationInserted (op : FinalizationOperation) : Bool :=
  op.state = .assembling && op.fileId.isNone && op.targetIdentity.isNone &&
    op.cleanupState = .pending && op.mimeType = octetStream && !op.mimeTypeCheckpointed &&
    (new.uploadSessions.get op.sessionId).any fun s =>
      s.workspaceId ≠ .ssd ||
        (s.expectedSha256 = some op.expectedSha256 && op.binding.sourcePath = op.sessionId)

/-- The columns of an operation that are never changed. -/
def FinalizationOperation.immutablePart (op : FinalizationOperation) : FinalizationOperation :=
  { op with
    state := .assembling
    fileId := none
    targetIdentity := none
    cleanupState := .pending
    mimeType := []
    mimeTypeCheckpointed := false }

/-- The steps of the journal. -/
def FinalizationState.step : FinalizationState → FinalizationState → Bool
  | .assembling, .verified | .verified, .publishing | .publishing, .published
  | .published, .committed => true
  | _, _ => false

/-- An update of an operation: the MIME type is recorded, the target identity is recorded, the
cleanup is finished, or the state moves on. -/
def Db.operationUpdated (op op' : FinalizationOperation) : Bool :=
  let mimeRecorded := op.state = .verified && op'.state = .verified && !op.mimeTypeCheckpointed &&
    op'.mimeTypeCheckpointed && op'.fileId = op.fileId && op'.targetIdentity = op.targetIdentity &&
    op'.cleanupState = op.cleanupState
  let mimeKept := op'.mimeType = op.mimeType && op'.mimeTypeCheckpointed = op.mimeTypeCheckpointed &&
    (op'.state ≠ .publishing || op'.mimeTypeCheckpointed ||
      !(new.uploadSessions.get op'.sessionId).any (·.workspaceId = .ssd))
  let targetRecorded := op.state = .assembling && op'.state = .assembling && op'.fileId.isNone &&
    op.targetIdentity.isNone && op'.targetIdentity.isSome && op'.cleanupState = op.cleanupState
  let targetKept := op'.targetIdentity = op.targetIdentity
  let cleaned := op.state = .committed && op'.state = .committed && op'.fileId = op.fileId &&
    op.cleanupState = .pending && op'.cleanupState = .cleaned && op'.targetIdentity.isSome &&
    new.completed op'
  let moved := op'.cleanupState = op.cleanupState && op.state.step op'.state &&
    op'.targetIdentity.isSome
  op'.immutablePart = op.immutablePart &&
    (mimeRecorded || (mimeKept && (targetRecorded || (targetKept && (cleaned || moved)))))

/-- `guard_ssd_finalization_operation` and `guard_ssd_finalization_manifest` -/
def Db.operationGuard : Bool :=
  match old.finalizationOperations.get id, new.finalizationOperations.get id with
  | none, none => true
  | none, some op => new.operationInserted op
  | some _, none => false
  | some op, some op' => op = op' || new.operationUpdated op op'

/-! ## Deferred triggers and indexes -/

/-- `check_ssd_finalization_commit` and `check_ssd_mime_commit` -/
def Db.commitCheck : Bool :=
  match new.finalizationOperations.get id with
  | some op =>
    old.finalizationOperations.get id = some op ||
    (op.state ≠ .committed || op.cleanupState ≠ .pending ||
      (new.completed op && (op.fileId.bind new.files.get).any (·.mimeType = some op.mimeType))) &&
    (op.cleanupState ≠ .cleaned ||
      (new.uploadSessions.get op.sessionId).all (·.chunks = []))
  | none => true

/-- The identifiers below the bounds of both tables. -/
def changeable {R : Type} (T T' : Table R) : List ℕ := List.range (max T.bound T'.bound)

/-- `UQ_ssd_finalization_active`, the unique session and file, and the checks on the states. -/
def Db.journalIndexes (db : Db) : Bool :=
  (db.finalizationOperations.select fun _ op => op.cleanupState = .pending).length ≤ 1 &&
  db.finalizationOperations.ids.all fun i =>
    (db.finalizationOperations.get i).all fun op =>
      ((op.state = .committed) == op.fileId.isSome) &&
      (op.cleanupState = .pending || op.state = .committed) &&
      op.targetIdentity.all (·.device = op.binding.targetRoot.device) &&
      (db.finalizationOperations.select fun j op' => j ≠ i &&
        (op'.sessionId = op.sessionId || (op.fileId.isSome && op'.fileId = op.fileId))).isEmpty

/-- The sessions of the files that are changed, whose rows the triggers lock. -/
def Db.guardedSessions : List LockKey :=
  ((changeable old.files new.files).filter fun i => old.files.get i ≠ new.files.get i).flatMap fun i =>
    (((old.files.get i).bind (·.uploadId)).toList ++
      ((new.files.get i).bind (·.uploadId)).toList).map .session

/-- What a transaction that leads from `old` to `new` has to pass. -/
def Db.triggers : Bool :=
  (changeable old.files new.files).all (old.fileGuard new) &&
  (changeable old.uploadSessions new.uploadSessions).all (fun i =>
    old.sessionGuard new i && old.chunkGuard new i) &&
  (changeable old.finalizationOperations new.finalizationOperations).all (fun i =>
    old.operationGuard new i && old.commitCheck new i) &&
  new.journalIndexes

end

/-! ## What passes -/

section Passed

variable {old new : Db} {id : ℕ}

/-- What holds of every identifier that may be in use holds of all, if it holds where no row is. -/
theorem forall_of_changeable {R : Type} {T T' : Table R} {p : ℕ → Bool}
    (h : (changeable T T').all p = true) (hn : T.get id = none → T'.get id = none → p id = true) :
    p id = true := by
  by_cases hid : id < max T.bound T'.bound
  · exact List.all_eq_true.mp h id (List.mem_range.mpr hid)
  · exact hn (T.absent id (by omega)) (T'.absent id (by omega))

theorem Db.triggers_file (h : old.triggers new = true) : old.fileGuard new id = true := by
  simp only [Db.triggers, Bool.and_eq_true] at h
  refine forall_of_changeable h.1.1.1 fun h1 h2 => ?_
  simp [Db.fileGuard, h1, h2]

theorem Db.triggers_session (h : old.triggers new = true) :
    old.sessionGuard new id = true ∧ old.chunkGuard new id = true := by
  simp only [Db.triggers, Bool.and_eq_true] at h
  rw [← Bool.and_eq_true]
  refine forall_of_changeable (p := fun i => old.sessionGuard new i && old.chunkGuard new i) h.1.1.2
    fun h1 h2 => ?_
  simp [Db.sessionGuard, Db.chunkGuard, h1, h2]

theorem Db.triggers_operation (h : old.triggers new = true) :
    old.operationGuard new id = true ∧ old.commitCheck new id = true := by
  simp only [Db.triggers, Bool.and_eq_true] at h
  rw [← Bool.and_eq_true]
  refine forall_of_changeable (p := fun i => old.operationGuard new i && old.commitCheck new i) h.1.2
    fun h1 h2 => ?_
  simp [Db.operationGuard, Db.commitCheck, h1, h2]

theorem Db.triggers_indexes (h : old.triggers new = true) : new.journalIndexes = true := by
  simp only [Db.triggers, Bool.and_eq_true] at h
  exact h.2

end Passed

end HomeCloud
