import HomeCloud.Crypto.Sha256
import HomeCloud.Files.Respects

/-!
# The legacy uploads respect the locks

What an upload operation has established when it commits, and that its writes disturb no other
transaction.

* `UploadSession.Advances`: how a session may change.
* `UploadSession.Assembles`: bytes that are the chunks of a session, as they were received.
* `UploadsTx.Ok`: what holds when the writes are committed.
* **`UploadsTx.Ok.respects`**: writes with that property respect locks, owners and mirrors.
-/

namespace HomeCloud

open Concurrent

/-! ## What holds at a commit -/

/-- A row of the upload `id` has been among the files. -/
def World.published (w : World) (id : ℕ) : Prop := ∃ i r, w.seen i = some r ∧ r.uploadId = some id

/-- A session keeps its status, takes chunks, is aborted unless it is completed, or is completed
because its file has been found. -/
def UploadSession.Advances (w : World) (id : ℕ) (s s' : UploadSession) : Prop :=
  s'.status = s.status ∨ s.active = true ∧ s'.status = .uploading ∨
    s.status ≠ .completed ∧ s'.status = .aborted ∨
    s.active = true ∧ s'.status = .completed ∧ w.published id

/-- The chunk row matches the file of the chunk. -/
def World.Stored (w : World) (id : ℕ) (c : UploadChunk) : Prop :=
  ∃ data, w.disk.chunkFiles id c.chunkIndex = some data ∧ data.length = c.byteSize ∧
    Sha256.sha256 data = c.sha256

/-- The bytes are the chunks of the session in order, each the body of a request for it, and the one
that its chunk row describes if there is one. -/
def UploadSession.Assembles (s : UploadSession) (id : ℕ) (received : List (ℕ × ℕ × Bytes))
    (data : Bytes) : Prop :=
  ∃ parts : List Bytes, data = parts.flatten ∧ parts.length = s.totalChunks ∧
    ∀ i part, parts[i]? = some part → (id, i, part) ∈ received ∧ part.length = s.chunkLength i ∧
      ∀ c, s.chunk i = some c → c.byteSize = part.length ∧ c.sha256 = Sha256.sha256 part

structure CreateSessionOk (t : ℕ) (w : World) (session : UploadSession)
    (receipt : Option PublicShareOperation) : Prop where
  pending : session.status = .pending
  laidOut : session.LaidOut
  unstarted : session.chunks = [] ∧ session.uploadedCount = 0 ∧ session.uploadedSize = 0 ∧
    session.accountingInitialized = true
  user : w.locks (.user session.userId) = some t
  room : ∃ u, w.db.users.get session.userId = some u ∧
    u.storageUsed + w.db.reserved session.userId + session.totalSize ≤ u.storageQuota
  receipt : ∀ r, receipt = some r → ∃ l, ReceiptOk t w r l

structure SaveSessionOk (t : ℕ) (w : World) (id : ℕ) (session old : UploadSession) : Prop where
  row : w.db.uploadSessions.get id = some old
  locked : w.locks (.session id) = some t
  fenced : session.workspaceId = .legacy → t ∈ (w.fences id).shared ∨ (w.fences id).exclusive = some t
  held : session.workspaceId = .ssd → w.disk.flock = some t
  same : old.SameUpload session
  parent : session.parentId = old.parentId
  advances : old.Advances w id session
  accounted : session.active = true → session.accountingInitialized = true → session.Accounted
  initialized : session.workspaceId = .ssd → session.accountingInitialized = true
  uncounted : session.accountingInitialized = false → session.chunks = []
  stored : session.workspaceId = .legacy → session.active = true → ∀ c ∈ session.chunks,
    c ∈ old.chunks ∨ w.torn id = true ∨ w.Stored id c
  kept : session.Open → ∀ c ∈ session.chunks, c ∈ old.chunks ∨ w.disk.ssd.Stored id c
  unfinished : session.workspaceId = .ssd → session.status = .completed → old.status = .completed

structure PublishOk (t : ℕ) (w : World) (id : ℕ) (session : UploadSession) (file : File)
    (c : NameChoice) (old : UploadSession) (attempt : ℕ) : Prop where
  row : w.db.uploadSessions.get id = some old
  locked : w.locks (.session id) = some t
  user : w.locks (.user old.userId) = some t
  active : old.active = true
  workspace : old.workspaceId = .legacy
  same : old.SameUpload session
  completed : session.status = .completed
  chunks : session.chunks = []
  added : AddFileOk t w file c
  owner : file.userId = old.userId
  size : file.size = old.totalSize
  upload : file.uploadId = some id
  parent : file.parentId = old.parentId
  fence : (w.fences id).exclusive = some t ∧ (w.fences id).attempt = some attempt
  placement : file.placement = some (finalPlacement id (some attempt))
  object : ∃ data, w.disk.objects (finalPlacement id (some attempt)) = some data ∧
    old.Assembles id w.disk.received data ∧ old.expectedSha256.all (· = Sha256.sha256 data) = true
  path : ∀ p, old.parentId = some p → w.db.rooted old.userId p = true
  shared : old.origin = .public → ∃ linkId rootId p, old.shareLinkId = some linkId ∧
    old.shareRootFolderId = some rootId ∧ old.parentId = some p ∧
    SharedOk t w linkId rootId old.userId p ∧
      ∀ now expires, w.checked t = some (now, expires) → now < expires

/-- What `t` has established when it commits the writes. -/
def UploadsTx.Ok (t : ℕ) (w : World) : UploadsTx → Prop
  | .createSession session receipt => CreateSessionOk t w session receipt
  | .saveSession id session => ∃ old, SaveSessionOk t w id session old
  | .deleteSession id => w.locks (.session id) = some t
  | .publish id session file c => ∃ old attempt, PublishOk t w id session file c old attempt

/-! ## Respect -/

section Respect

variable {t : ℕ} {w : World} {db' : Db} {entered : List Slot} {id : ℕ} {session old : UploadSession}

/-- Writing a session that does not become active, or had been, with chunk rows that are kept unless
`t` has the session fenced, or has the SSD locked. -/
theorem KeepsSessions.put (hi : Inv w) (hr : w.db.uploadSessions.get id = some old)
    (hs : old.SameUpload session) (ha : session.active = true → old.active = true)
    (hf : session.workspaceId = .legacy →
      t ∈ (w.fences id).shared ∨ (w.fences id).exclusive = some t)
    (hssd : session.workspaceId = .ssd → w.disk.flock = some t) :
    KeepsSessions t w (w.db.uploadSessions.put id session) where
  issued := .put hr hs UploadSession.SameUpload.refl
  reservations i q' hq' hact _ := by
    rw [Table.get_put] at hq'
    split_ifs at hq' with h
    · cases hq'
      exact ⟨old, h ▸ hr, ha hact⟩
    · exact ⟨q', hq', hact⟩
  chunks s q q' hx hx' hq hw hq' := by
    rw [Table.get_put] at hq'
    split_ifs at hq' with h
    · cases hq'
      subst h
      cases hq.symm.trans hr
      -- Only the assembling thread has another lock on the session.
      obtain ⟨t', ht'⟩ := Option.ne_none_iff_exists'.mp hx'
      rcases hf (hs.workspaceId.trans hw) with hm | hm
      · exact absurd (ht'.trans (congrArg some (hi.disk.sole s t' t ht' hm).symm)) hx
      · exact absurd hm hx
    · cases hq.symm.trans hq'
      rfl
  inactive s q q' hq hq' hq₀ := by
    rw [Table.get_put] at hq'
    split_ifs at hq' with h
    · cases hq'
      subst h
      cases hq.symm.trans hr
      by_contra hn
      rw [ha (by simpa using hn)] at hq₀
      cases hq₀
    · cases hq.symm.trans hq'
      exact hq₀
  uploads s q q' hl hq hq' hw := by
    rw [Table.get_put] at hq'
    split_ifs at hq' with h
    · cases hq'
      subst h
      cases hq.symm.trans hr
      exact absurd (hssd (hs.workspaceId.trans hw)) hl
    · cases hq.symm.trans hq'
      exact ⟨rfl, rfl⟩

/-- Writing the session that `t` has locked, next to other writes. -/
theorem Respects.putSession (h : Respects t w db' entered)
    (hl : w.locks (.session id) = some t) {S : Table UploadSession} (hS : KeepsSessions t w S)
    (hput : ∀ s, s ≠ id → S.get s = db'.uploadSessions.get s) :
    Respects t w { db' with uploadSessions := S } entered := by
  refine h.of_eq (fun _ hu => hu) rfl rfl (.refl _) hS h.receipts fun k x hk _ hx => ?_
  cases k with
  | session s =>
    have hne : s ≠ id := fun he => hk (he ▸ hl)
    rw [Db.row, hput s hne]
    exact hx
  | _ => exact hx

/-- A session that is not active stays so. -/
theorem UploadSession.Advances.active {s s' : UploadSession} (h : s.Advances w id s')
    (ha : s'.active = true) : s.active = true := by
  rcases h with h | ⟨h, -⟩ | ⟨-, h⟩ | ⟨h, -⟩
  · rwa [UploadSession.active, ← h]
  · exact h
  · rw [UploadSession.active, h] at ha
    cases ha
  · exact h

theorem CreateSessionOk.respects {receipt : Option PublicShareOperation}
    (h : CreateSessionOk t w session receipt) (hi : Inv w) :
    Respects t w ((UploadsTx.createSession session receipt).apply w.db) [] := by
  have hs : KeepsSessions t w (w.db.uploadSessions.insert session) :=
    { issued := .insert _ _ UploadSession.SameUpload.refl
      reservations := fun i q' hq' ha hl => by
        rw [Table.get_insert] at hq'
        split_ifs at hq'
        · cases hq'
          exact absurd h.user hl
        · exact ⟨q', hq', ha⟩
      chunks := fun s q q' _ _ hq _ hq' => by
        rw [Table.get_insert_of_some hq] at hq'
        cases hq'
        rfl
      inactive := fun s q q' hq hq' hq₀ => by
        rw [Table.get_insert_of_some hq] at hq'
        cases hq'
        exact hq₀
      uploads := fun s q q' _ hq hq' _ => by
        rw [Table.get_insert_of_some hq] at hq'
        cases hq'
        exact ⟨rfl, rfl⟩ }
  refine (Respects.unchanged hi).of_eq (fun _ hu => hu) rfl rfl (.refl _) hs
    (keepsReceipts_insert h.receipt) fun k x _ _ hx => ?_
  cases k with
  | session s =>
    obtain ⟨r, hr, rfl⟩ := Option.map_eq_some_iff.mp hx
    exact row_session.mpr (Table.get_insert_of_some hr)
  | _ => exact hx

/-- Deleting a locked session. -/
theorem respects_deleteSession (hi : Inv w) (hl : w.locks (.session id) = some t) :
    Respects t w ((UploadsTx.deleteSession id).apply w.db) [] := by
  have herase : ∀ {s q}, (w.db.uploadSessions.erase id).get s = some q →
      w.db.uploadSessions.get s = some q := by
    intro s q hq
    rw [Table.get_erase] at hq
    split_ifs at hq
    exact hq
  have hs : KeepsSessions t w (w.db.uploadSessions.erase id) :=
    .of_unmoved le_rfl fun s q hq => ⟨q, herase hq, .refl q⟩
  refine (Respects.unchanged hi).of_eq (fun _ hu => hu) rfl rfl (.refl _) hs (fun i r' l hr' hsl _ => ?_)
    fun k x hk _ hx => ?_
  · obtain ⟨r, hr, rfl⟩ := Option.map_eq_some_iff.mp hr'
    exact ⟨r, hr, rfl, rfl, rfl, rfl⟩
  · cases k with
    | session s =>
      have hne : s ≠ id := fun he => hk (he ▸ hl)
      simpa only [Db.row, UploadsTx.apply, Table.get_erase_ne _ hne] using hx
    | _ => exact hx

end Respect

/-- **The writes of the upload operations respect locks, owners and mirrors.** -/
theorem UploadsTx.Ok.respects {t : ℕ} {w : World} {tx : UploadsTx} (h : tx.Ok t w) (hi : Inv w) :
    Respects t w (tx.apply w.db) tx.entered := by
  cases tx with
  | createSession session receipt => exact CreateSessionOk.respects h hi
  | saveSession id session =>
    obtain ⟨old, h⟩ := h
    exact (Respects.unchanged hi).putSession h.locked
      (.put hi h.row h.same h.advances.active h.fenced h.held) fun s hs => Table.get_put_ne _ _ hs
  | deleteSession id => exact respects_deleteSession hi h
  | publish id session file c =>
    obtain ⟨old, attempt, h⟩ := h
    exact (h.added.respects hi).putSession h.locked
      (.put hi h.row h.same (fun _ => h.active) (fun _ => .inr h.fence.1) fun hssd => by
        cases (h.same.workspaceId.trans h.workspace).symm.trans hssd)
      fun s hs => Table.get_put_ne _ _ hs

end HomeCloud
