import HomeCloud.Files.Respects

/-!
# The finalization store respects the locks

What a method of the finalization store has established when it commits, and that its writes disturb
no other transaction.

* `JournalTx.Ok`: what holds when the writes are committed.
* **`JournalTx.Ok.respects`**: writes with that property respect locks, owners and mirrors.
-/

namespace HomeCloud

open Concurrent

/-! ## What holds at a commit -/

/-- The operation is to finalize the upload of the session. -/
def FinalizationOperation.Binds (op : FinalizationOperation) (s : UploadSession) : Prop :=
  s.userId = op.userId ∧ s.filename = op.filename ∧ s.parentId = op.parentId ∧
    s.totalSize = op.totalSize

/-- The session is on the SSD with all its chunks, and the operation has its digest, its layout and its chunk
rows. -/
structure FinalizationOperation.Takes (op : FinalizationOperation) (s : UploadSession) : Prop where
  workspace : s.workspaceId = .ssd
  sha256 : s.expectedSha256 = some op.expectedSha256
  chunkSize : s.chunkSize = op.chunkSize
  totalChunks : s.totalChunks = op.totalChunks
  initialized : s.accountingInitialized = true
  count : s.uploadedCount = s.totalChunks
  size : s.uploadedSize = s.totalSize
  chunks : s.chunks = op.chunks

/-- Source and target are on two devices, and the object is in the legacy storage. -/
structure FinalizationBinding.Valid (b : FinalizationBinding) : Prop where
  location : b.target.storageLocationId = 0
  separate : b.sourceRoot.device ≠ b.targetRoot.device
  source : b.sourceDirectory.device = b.sourceRoot.device
  target : b.targetDirectory.device = b.targetRoot.device

/-- What is checked before an operation is begun. -/
structure FinalizationOperation.Checked (op : FinalizationOperation) : Prop where
  user : 0 < op.userId
  digest : op.expectedSha256 < 2 ^ 256
  size : op.totalSize ≤ 9007199254740991
  binding : op.binding.Valid
  source : op.binding.sourcePath = op.sessionId

structure BeginOk (t : ℕ) (w : World) (id : ℕ) (op : FinalizationOperation) (s : UploadSession) : Prop where
  row : w.db.uploadSessions.get op.sessionId = some s
  locked : w.locks (.session op.sessionId) = some t
  active : s.active = true
  binds : op.Binds s
  takes : op.Takes s
  checked : op.Checked
  target : op.binding.target = ⟨0, .finalized op.userId id⟩

/-- `t` has locked the operation, which is in the state `state`. -/
structure HeldOperation (t : ℕ) (w : World) (id : ℕ) (state : FinalizationState)
    (op : FinalizationOperation) : Prop where
  row : w.db.finalizationOperations.get id = some op
  locked : w.locks (.operation id) = some t
  state : op.state = state

structure CommitOk (t : ℕ) (w : World) (id sessionId : ℕ) (file : File) (c : NameChoice)
    (op : FinalizationOperation) (s : UploadSession) : Prop where
  operation : HeldOperation t w id .published op
  session : op.sessionId = sessionId
  row : w.db.uploadSessions.get sessionId = some s
  locked : w.locks (.session sessionId) = some t
  active : s.active = true
  workspace : s.workspaceId = .ssd
  full : s.uploadedCount = s.totalChunks ∧ s.accountingInitialized = true
  binds : op.Binds s
  added : AddFileOk t w file c
  owner : file.userId = op.userId
  size : file.size = op.totalSize
  upload : file.uploadId = some sessionId
  parent : file.parentId = op.parentId

structure FinishCleanupOk (t : ℕ) (w : World) (id sessionId : ℕ) (op : FinalizationOperation) :
    Prop where
  operation : HeldOperation t w id .committed op
  session : op.sessionId = sessionId
  locked : (w.db.uploadSessions.get sessionId).isSome → w.locks (.session sessionId) = some t
  completed : ∀ s, w.db.uploadSessions.get sessionId = some s →
    s.workspaceId = .ssd ∧ s.status = .completed

/-- What `t` has established of the rows and the files when it commits the writes. -/
def JournalTx.Due (t : ℕ) (w : World) : JournalTx → Prop
  | .begin id op => ∃ s, BeginOk t w id op s
  | .recordTarget id identity => ∃ op a, HeldOperation t w id .assembling op ∧
    w.disk.ssd.temporaries id = some a ∧ identity = op.identify a
  | .recordMimeType id _ => ∃ op, HeldOperation t w id .verified op
  | .transition id state => ∃ op old, HeldOperation t w id old op ∧ state ≠ .committed ∧
    { op with state := state }.Objects (w.disk.ssd.temporaries id) (w.disk.ssd.finals id)
  | .commit id sessionId file c => ∃ op s, CommitOk t w id sessionId file c op s
  | .finishCleanup id sessionId => ∃ op, FinishCleanupOk t w id sessionId op

/-- What `t` has established when it commits the writes, which it does with the SSD locked. -/
def JournalTx.Ok (t : ℕ) (w : World) (tx : JournalTx) : Prop := w.disk.flock = some t ∧ tx.Due t w

/-! ## Reading after the writes -/

section Updates

variable (db : Db) (id : ℕ) (f : FinalizationOperation → FinalizationOperation)
  (g : UploadSession → UploadSession)

@[simp]
theorem Db.updateOperation_self : (db.updateOperation id f).finalizationOperations.get id =
    (db.finalizationOperations.get id).map f := by
  simp [Db.updateOperation]

theorem Db.updateOperation_ne {i : ℕ} (h : i ≠ id) :
    (db.updateOperation id f).finalizationOperations.get i = db.finalizationOperations.get i := by
  simp [Db.updateOperation, h]

@[simp]
theorem Db.updateSession_self :
    (db.updateSession id g).uploadSessions.get id = (db.uploadSessions.get id).map g := by
  simp [Db.updateSession]

theorem Db.updateSession_ne {i : ℕ} (h : i ≠ id) :
    (db.updateSession id g).uploadSessions.get i = db.uploadSessions.get i := by
  simp [Db.updateSession, h]

end Updates

/-! ## Respect -/

section Respect

variable {t : ℕ} {w : World} {db' : Db} {entered : List Slot} {id : ℕ}

/-- Updating an operation that `t` has locked, next to other writes. -/
theorem Respects.updateOperation (h : Respects t w db' entered)
    {f : FinalizationOperation → FinalizationOperation}
    (hl : w.locks (.operation id) = some t) : Respects t w (db'.updateOperation id f) entered := by
  refine h.of_eq (fun _ hu => hu) rfl rfl (.refl _) h.sessions h.receipts fun k x hk _ hx => ?_
  cases k with
  | operation i =>
    have hne : i ≠ id := fun he => hk (he ▸ hl)
    rw [Db.row, Db.updateOperation_ne _ _ _ hne]
    exact hx
  | _ => exact hx

/-- An update of a session that does not activate it. -/
def Settling (g : UploadSession → UploadSession) : Prop :=
  ∀ s, s.SameUpload (g s) ∧ ((g s).active = true → s.active = true)

theorem KeepsSessions.update {S : Table UploadSession} (h : KeepsSessions t w S)
    {g : UploadSession → UploadSession} (hg : Settling g)
    (hssd : ∀ s, w.db.uploadSessions.get id = some s → s.workspaceId = .ssd)
    (hflock : w.disk.flock = some t) : KeepsSessions t w (S.map fun i s => if i = id then g s else s) where
  issued := h.issued.trans (fun _ _ _ h1 h2 => h1.trans h2) (.map _ fun i s => by
    split_ifs
    · exact (hg s).1
    · exact .refl s)
  reservations i q' hq' ha hl := by
    obtain ⟨q, hq, rfl⟩ := Option.map_eq_some_iff.mp hq'
    dsimp only at ha hl
    split_ifs at ha hl with hi
    · exact h.reservations i q hq ((hg q).2 ha) ((hg q).1.userId ▸ hl)
    · exact h.reservations i q hq ha hl
  chunks s q q' hx hx' hq hw hq' := by
    obtain ⟨q₁, hq₁, rfl⟩ := Option.map_eq_some_iff.mp hq'
    dsimp only
    split_ifs with hi
    · subst hi
      exact absurd (hw.symm.trans (hssd q hq)) nofun
    · exact h.chunks s q q₁ hx hx' hq hw hq₁
  inactive s q q' hq hq' ha := by
    obtain ⟨q₁, hq₁, rfl⟩ := Option.map_eq_some_iff.mp hq'
    have ha₁ := h.inactive s q q₁ hq hq₁ ha
    dsimp only
    split_ifs with hi
    · by_contra hn
      rw [(hg q₁).2 (by simpa using hn)] at ha₁
      cases ha₁
    · exact ha₁
  uploads _ _ _ hl := absurd hflock hl

/-- Updating a session that `t` has locked if there is one, next to other writes. -/
theorem Respects.updateSession (h : Respects t w db' entered) {g : UploadSession → UploadSession}
    (hl : (db'.uploadSessions.get id).isSome → w.locks (.session id) = some t) (hg : Settling g)
    (hssd : ∀ s, w.db.uploadSessions.get id = some s → s.workspaceId = .ssd)
    (hflock : w.disk.flock = some t) : Respects t w (db'.updateSession id g) entered := by
  refine h.of_eq (fun _ hu => hu) rfl rfl (.refl _) (h.sessions.update hg hssd hflock)
    h.receipts fun k x hk _ hx => ?_
  cases k with
  | session i =>
    have hne : i ≠ id := fun he => by
      obtain ⟨r, hr, -⟩ := Option.map_eq_some_iff.mp hx
      exact hk (he ▸ hl (he ▸ Option.isSome_iff_exists.mpr ⟨r, hr⟩))
    rw [Db.row, Db.updateSession_ne _ _ _ hne]
    exact hx
  | _ => exact hx

end Respect

/-- **The writes of the finalization store respect locks, owners and mirrors.** -/
theorem JournalTx.Ok.respects {t : ℕ} {w : World} {tx : JournalTx} (h : tx.Ok t w) (hi : Inv w)
    (ha : tx.allowed w.db = true) : Respects t w (tx.apply w.db) tx.entered := by
  have hw : Respects t w w.db [] := .unchanged hi
  obtain ⟨hflock, h⟩ := h
  cases tx with
  | begin id op =>
    refine hw.of_eq (fun _ hu => hu) rfl rfl (.refl _) hw.sessions hw.receipts fun k x _ _ hx => ?_
    cases k with
    | operation i =>
      obtain ⟨r, hr, rfl⟩ := Option.map_eq_some_iff.mp hx
      simp only [JournalTx.allowed, Bool.and_eq_true, Option.isNone_iff_eq_none] at ha
      have hne : i ≠ id := by
        rintro rfl
        rw [ha.1] at hr
        cases hr
      exact row_operation.mpr ((Table.get_put_ne _ _ hne).trans hr)
    | _ => exact hx
  | recordTarget id identity =>
    obtain ⟨op, a, h, -⟩ := h
    exact hw.updateOperation h.locked
  | recordMimeType id mimeType =>
    obtain ⟨op, h⟩ := h
    exact hw.updateOperation h.locked
  | transition id state =>
    obtain ⟨op, old, h, -⟩ := h
    exact hw.updateOperation h.locked
  | commit id sessionId file c =>
    obtain ⟨op, s, h⟩ := h
    refine ((h.added.respects hi).updateOperation h.operation.locked).updateSession
      (fun _ => h.locked) (fun q => ⟨⟨rfl, rfl, rfl, rfl, rfl, rfl, rfl, rfl, rfl⟩, fun ha => by cases ha⟩)
      (fun q hq => ?_) hflock
    cases hq.symm.trans h.row
    exact h.workspace
  | finishCleanup id sessionId =>
    obtain ⟨op, h⟩ := h
    exact (hw.updateOperation h.operation.locked).updateSession h.locked
      (fun q => ⟨⟨rfl, rfl, rfl, rfl, rfl, rfl, rfl, rfl, rfl⟩, fun ha => ha⟩)
      (fun q hq => (h.completed q hq).1) hflock

end HomeCloud
