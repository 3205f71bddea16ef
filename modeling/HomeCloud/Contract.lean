import HomeCloud.Concurrent.Prog
import HomeCloud.Uploads.Artifacts
import HomeCloud.Uploads.Layout
import HomeCloud.World

/-!
# What a transaction may rely on

A row stays as it is while somebody has it locked, and a user lock keeps the folder tree of the user
still. The thread that assembles an upload has its chunk rows and its attempt for itself. These rules
hold for every service, so they are stated once, and the writes of a service have to respect them.

* `Intact`, `SessionsInv`, `Published`, `DiskInv`: what every write and every step on the files keeps.
* `Keeps`, `Retains`, `Continues`, `Follows`, `Rely`: what a thread knows between its statements;
  `Persists`: what it knows also when its connection has broken.
* `Inv`: what holds in every state.
* `Respects`: what the writes of a transaction have to satisfy; `DiskOp.Pre`: what a step on the files
  has to.
-/

namespace HomeCloud

open Concurrent

/-! ## Owners and mirrors -/

/-- Rows that were there before keep their owner, and identifiers are not issued twice. -/
structure Grows (db db' : Db) : Prop where
  users : ∀ u, (db.users.get u).isSome → (db'.users.get u).isSome
  folders : db.folders.Issued (fun r r' => r'.userId = r.userId) db'.folders
  tokens : db.refreshTokens.Issued (fun r r' => r'.userId = r.userId) db'.refreshTokens
  sessions : db.uploadSessions.Issued UploadSession.SameUpload db'.uploadSessions

theorem Grows.refl (db : Db) : Grows db db :=
  ⟨fun _ h => h, .refl _, .refl _, .refl _ UploadSession.SameUpload.refl⟩

theorem Grows.trans {db₁ db₂ db₃ : Db} (h : Grows db₁ db₂) (h' : Grows db₂ db₃) :
    Grows db₁ db₃ where
  users u hu := h'.users u (h.users u hu)
  folders := h.folders.trans (fun _ _ _ h1 h2 => h2.trans h1) h'.folders
  tokens := h.tokens.trans (fun _ _ _ h1 h2 => h2.trans h1) h'.tokens
  sessions := h.sessions.trans (fun _ _ _ h1 h2 => h1.trans h2) h'.sessions

/-- The columns of a file row that no operation changes. -/
structure File.SameObject (r r' : File) : Prop where
  userId : r'.userId = r.userId
  size : r'.size = r.size
  isFolder : r'.isFolder = r.isFolder
  folderId : r'.folderId = r.folderId
  uploadId : r'.uploadId = r.uploadId
  placement : r'.placement = r.placement

theorem File.SameObject.refl (r : File) : r.SameObject r := ⟨rfl, rfl, rfl, rfl, rfl, rfl⟩

theorem File.SameObject.trans {r₁ r₂ r₃ : File} (h : r₁.SameObject r₂) (h' : r₂.SameObject r₃) :
    r₁.SameObject r₃ where
  userId := h'.userId.trans h.userId
  size := h'.size.trans h.size
  isFolder := h'.isFolder.trans h.isFolder
  folderId := h'.folderId.trans h.folderId
  uploadId := h'.uploadId.trans h.uploadId
  placement := h'.placement.trans h.placement

theorem File.SameObject.symm {r r' : File} (h : r.SameObject r') : r'.SameObject r :=
  ⟨h.userId.symm, h.size.symm, h.isFolder.symm, h.folderId.symm, h.uploadId.symm, h.placement.symm⟩

/-- The columns of a receipt that no operation changes while its link is there. -/
structure PublicShareOperation.SameReceipt (r r' : PublicShareOperation) : Prop where
  shareLinkId : r'.shareLinkId = r.shareLinkId
  idempotencyKey : r'.idempotencyKey = r.idempotencyKey
  request : r'.request = r.request
  expiresAt : r'.expiresAt = r.expiresAt

theorem PublicShareOperation.SameReceipt.refl (r : PublicShareOperation) : r.SameReceipt r :=
  ⟨rfl, rfl, rfl, rfl⟩

theorem PublicShareOperation.SameReceipt.trans {r₁ r₂ r₃ : PublicShareOperation}
    (h : r₁.SameReceipt r₂) (h' : r₂.SameReceipt r₃) : r₁.SameReceipt r₃ where
  shareLinkId := h'.shareLinkId.trans h.shareLinkId
  idempotencyKey := h'.idempotencyKey.trans h.idempotencyKey
  request := h'.request.trans h.request
  expiresAt := h'.expiresAt.trans h.expiresAt

/-- Every parent is a folder of the same owner, and every mirror agrees with its folder, which has
no other. -/
structure Intact (db : Db) : Prop where
  folder_parent : ∀ f r p, db.folders.get f = some r → r.parentId = some p →
    ∃ q, db.folders.get p = some q ∧ q.userId = r.userId
  file_parent : ∀ i r p, db.files.get i = some r → r.parentId = some p →
    ∃ q, db.folders.get p = some q ∧ q.userId = r.userId
  plain : ∀ i r, db.files.get i = some r → r.isFolder = false → r.folderId = none
  mirror : ∀ i r, db.files.get i = some r → r.isFolder = true →
    ∃ f q, r.folderId = some f ∧ db.folders.get f = some q ∧ q.userId = r.userId ∧
      q.name = r.name ∧ q.parentId = r.parentId ∧ q.isDeleted = r.isDeleted
  mirror_unique : ∀ i j r r', db.files.get i = some r → db.files.get j = some r' →
    r.isFolder = true → r'.isFolder = true → r.folderId = r'.folderId → i = j

theorem Intact.empty (users : Table User) : Intact (Db.empty users) where
  folder_parent f r p h := by simp [Db.empty] at h
  file_parent i r p h := by simp [Db.empty] at h
  plain i r h := by simp [Db.empty] at h
  mirror i r h := by simp [Db.empty] at h
  mirror_unique i j r r' h := by simp [Db.empty] at h

/-! ## Uploads -/

/-- The rows that have been there: at most one for each upload, of the same owner, whose session is
completed. -/
structure Published (db : Db) (seen : ℕ → Option File) : Prop where
  unique : ∀ i j r r' s, seen i = some r → seen j = some r' → r.uploadId = some s →
    r'.uploadId = some s → i = j
  issued : ∀ i r s, seen i = some r → r.uploadId = some s → s < db.uploadSessions.bound
  completed : ∀ i r s q, seen i = some r → r.uploadId = some s →
    db.uploadSessions.get s = some q → q.status = .completed ∧ r.userId = q.userId

theorem Published.empty (users : Table User) : Published (.empty users) fun _ => none where
  unique _ _ _ _ _ h := nomatch h
  issued _ _ _ h := nomatch h
  completed _ _ _ _ h := nomatch h

/-- No file of an active session has been there. -/
theorem Published.not_seen {db : Db} {seen : ℕ → Option File} (h : Published db seen) {s : ℕ}
    {q : UploadSession} (hq : db.uploadSessions.get s = some q) (ha : q.active = true) {i : ℕ}
    {r : File} (hr : seen i = some r) : r.uploadId ≠ some s := fun hs => by
  have hcompleted := (h.completed i r s q hr hs hq).1
  simp [UploadSession.active, hcompleted] at ha

/-- The sessions are in order. -/
def SessionsInv (db : Db) : Prop := ∀ s q, db.uploadSessions.get s = some q → q.Sound

/-- Every finalization makes an object of its own. -/
def OperationsInv (db : Db) : Prop :=
  ∀ id op, db.finalizationOperations.get id = some op → op.binding.target = ⟨0, .finalized op.userId id⟩

/-- The attempt `a` on the session `s` is not one of another thread that assembles it. -/
def World.Own (w : World) (t s a : ℕ) : Prop :=
  a < w.disk.issued ∧ ((w.fences s).attempt = some a → (w.fences s).exclusive = some t)

/-- `t` has no advisory lock on the session. -/
def World.Unfenced (w : World) (t s : ℕ) : Prop :=
  (w.fences s).exclusive ≠ some t ∧ t ∉ (w.fences s).shared

/-- A row of the object of the attempt has been among the files. -/
def World.Committed (w : World) (s : ℕ) (a : Option ℕ) : Prop :=
  ∃ i r, w.seen i = some r ∧ r.placement = some (finalPlacement s a)

/-- If the file has the object of an attempt, it is one of the thread `t` that assembles the upload of
the file, and the file of an upload belongs to the owner of the session. -/
structure World.Places (w : World) (t : ℕ) (file : File) : Prop where
  attempt : ∀ s a, file.placement = some (finalPlacement s a) → ∃ n, a = some n ∧
    (w.fences s).attempt = some n ∧ (w.fences s).exclusive = some t ∧ file.uploadId = some s
  owner : ∀ s, file.uploadId = some s →
    ∃ q, w.db.uploadSessions.get s = some q ∧ file.userId = q.userId

/-- The file of no upload. -/
theorem World.Places.of_none {w : World} {t : ℕ} {file : File}
    (hplacement : ∀ s a, file.placement ≠ some (finalPlacement s a)) (hupload : file.uploadId = none) :
    w.Places t file where
  attempt s a h := absurd h (hplacement s a)
  owner s h := by
    rw [hupload] at h
    cases h

/-- The files of the upload `s` that have been there belong to `u`. -/
def World.Owned (w : World) (s u : ℕ) : Prop :=
  ∀ i r, w.seen i = some r → r.uploadId = some s → r.userId = u

/-- No file that has not been deleted has the object of the attempt. -/
def World.Unpublished (w : World) (s : ℕ) (a : Option ℕ) : Prop :=
  ∀ i r, w.seen i = some r → r.placement = some (finalPlacement s a) → w.erased i = true

/-- What holds of the locks on sessions and of the files: an assembling thread is alone, a thread
whose connection has broken has none, chunk files are received bodies of the right size, attempts are
numbered in order, the object of an attempt is that of a file of the upload, and the files of the SSD
are as the rows say. -/
structure DiskInv (w : World) : Prop where
  detached : ∀ t s, w.lost t = true → w.Unfenced t s
  sole : ∀ s t t', (w.fences s).exclusive = some t → t' ∈ (w.fences s).shared → t' = t
  assembling : ∀ s a, (w.fences s).attempt = some a →
    (w.fences s).exclusive ≠ none ∧ a < w.disk.issued
  received : ∀ s i data, w.disk.chunkFiles s i = some data → (s, i, data) ∈ w.disk.received
  sized : ∀ s i data, w.disk.chunkFiles s i = some data → s < w.db.uploadSessions.bound ∧
    ∀ q, w.db.uploadSessions.get s = some q → i < q.totalChunks ∧ data.length = q.chunkLength i
  attempts : ∀ s a data, (a, data) ∈ w.disk.attempts s → a < w.disk.issued
  linked : ∀ s a, w.disk.objects (finalPlacement s (some a)) ≠ none → a < w.disk.issued
  placed : ∀ i r s a, w.seen i = some r → r.placement = some (finalPlacement s a) →
    ∃ n, a = some n ∧ n < w.disk.issued ∧ r.uploadId = some s
  erased : ∀ i r, w.seen i = some r → (w.db.files.get i).isSome ∨ w.erased i = true
  backed : w.db.Backed w.disk.ssd

/-- The object of the attempt is not there, or has been that of a file. -/
def World.Cleared (w : World) (s a : ℕ) : Prop :=
  w.disk.objects (finalPlacement s (some a)) = none ∨ w.Committed s (some a)

/-- What `t` has to establish before a step on the files, also when its connection has broken. -/
def DiskOp.Pre (t : ℕ) (w : World) : DiskOp → Prop
  | .writeChunk s i data => (s, i, data) ∈ w.disk.received ∧ s < w.db.uploadSessions.bound ∧
    (∀ q, w.db.uploadSessions.get s = some q → i < q.totalChunks ∧ data.length = q.chunkLength i) ∧
      (w.controls s t = true → w.torn s = true ∨ w.disk.chunkFiles s i = none)
  | .appendAttempt s a _ | .link s a => w.Own t s a
  | .removeAttempt s a => w.Own t s a ∧ (w.controls s t = false ∨ w.stray s = true ∨
    (w.fences s).attempt = some a ∨ w.Cleared s a)
  | .unlink s a => (∀ n, a = some n → w.Own t s n) ∧ w.Unpublished s a
  | .removeDirectory s | .clearDirectory s _ => w.controls s t = false ∨ w.stray s = true ∨
    ∀ a data, (a, data) ∈ w.disk.attempts s → w.Cleared s a
  | .ssd op => w.disk.flock = some t ∧ op.Pre w.db w.disk.ssd
  | _ => True

/-! ## What a thread knows -/

/-- From `w` on, the rows `t` has locked stay as they are, and so does the folder tree of a user
`t` has locked. -/
structure Keeps (t : ℕ) (w w' : World) : Prop where
  locks : ∀ k, w.locks k = some t → w'.locks k = some t
  rows : ∀ k x, w.locks k = some t → w.db.row k = some x → w'.db.row k = some x
  tree : ∀ u, w.locks (.user u) = some t → ∀ f r, r.userId = u →
    (w.db.folders.get f = some r ↔ w'.db.folders.get f = some r)
  objects : ∀ u, w.locks (.user u) = some t → ∀ i r, r.userId = u → w.db.files.get i = some r →
    ∃ r', w'.db.files.get i = some r' ∧ r.SameObject r'
  seen : ∀ i r, w.seen i = some r → ∃ r', w'.seen i = some r' ∧ r.SameObject r'
  reservations : ∀ i q', w'.db.uploadSessions.get i = some q' → q'.active = true →
    w.locks (.user q'.userId) = some t → ∃ q, w.db.uploadSessions.get i = some q ∧ q.active = true
  receipts : ∀ i r' l, w'.db.publicShareOperations.get i = some r' → r'.shareLinkId = some l →
    w.locks (.link l) = some t → ∃ r, w.db.publicShareOperations.get i = some r ∧ r.SameReceipt r'
  grows : Grows w.db w'.db

namespace Keeps

variable {t : ℕ} {w w' : World}

theorem refl (t : ℕ) (w : World) : Keeps t w w where
  locks _ h := h
  rows _ _ _ h := h
  tree _ _ _ _ _ := Iff.rfl
  objects _ _ _ r _ h := ⟨r, h, .refl r⟩
  seen _ r h := ⟨r, h, .refl r⟩
  reservations _ q h ha _ := ⟨q, h, ha⟩
  receipts _ r _ h _ _ := ⟨r, h, .refl r⟩
  grows := .refl _

theorem trans {w₁ w₂ w₃ : World} (h : Keeps t w₁ w₂) (h' : Keeps t w₂ w₃) : Keeps t w₁ w₃ where
  locks k hk := h'.locks k (h.locks k hk)
  rows k x hl hx := h'.rows k x (h.locks _ hl) (h.rows k x hl hx)
  tree u hl f r hu := (h.tree u hl f r hu).trans (h'.tree u (h.locks _ hl) f r hu)
  objects u hl i r hu hr := by
    obtain ⟨r₂, h2, e2⟩ := h.objects u hl i r hu hr
    obtain ⟨r₃, h3, e3⟩ := h'.objects u (h.locks _ hl) i r₂ (e2.userId.trans hu) h2
    exact ⟨r₃, h3, e2.trans e3⟩
  seen i r hr := by
    obtain ⟨r₂, h2, e2⟩ := h.seen i r hr
    obtain ⟨r₃, h3, e3⟩ := h'.seen i r₂ h2
    exact ⟨r₃, h3, e2.trans e3⟩
  reservations i q₃ h3 ha hl := by
    obtain ⟨q₂, h2, ha2⟩ := h'.reservations i q₃ h3 ha (h.locks _ hl)
    obtain ⟨q₂', h2', hsame⟩ := h'.grows.sessions.old i q₃ (Table.lt_bound h2) h3
    cases h2.symm.trans h2'
    exact h.reservations i q₂ h2 ha2 (hsame.userId ▸ hl)
  receipts i r₃ l h3 hs hl := by
    obtain ⟨r₂, h2, e2⟩ := h'.receipts i r₃ l h3 hs (h.locks _ hl)
    obtain ⟨r₁, h1, e1⟩ := h.receipts i r₂ l h2 (e2.shareLinkId.symm.trans hs) hl
    exact ⟨r₁, h1, e1.trans e2⟩
  grows := h.grows.trans h'.grows

/-- The database is the same and `t` still has its locks. -/
theorem of_db_eq (hdb : w'.db = w.db) (hs : w'.seen = w.seen)
    (hl : ∀ k, w.locks k = some t → w'.locks k = some t) : Keeps t w w' where
  locks := hl
  rows _ _ _ h := hdb ▸ h
  tree _ _ _ _ _ := by rw [hdb]
  objects _ _ _ r _ h := ⟨r, hdb ▸ h, .refl r⟩
  seen _ r h := ⟨r, hs ▸ h, .refl r⟩
  reservations _ q h ha _ := ⟨q, hdb ▸ h, ha⟩
  receipts _ r _ h _ _ := ⟨r, hdb ▸ h, .refl r⟩
  grows := hdb ▸ .refl _

theorem users (h : Keeps t w w') (u : ℕ) (r : User) (hl : w.locks (.user u) = some t)
    (hr : w.db.users.get u = some r) : w'.db.users.get u = some r :=
  row_user.mp (h.rows _ _ hl (row_user.mpr hr))

theorem folders (h : Keeps t w w') (f : ℕ) (r : Folder) (hl : w.locks (.folder f) = some t)
    (hr : w.db.folders.get f = some r) : w'.db.folders.get f = some r :=
  row_folder.mp (h.rows _ _ hl (row_folder.mpr hr))

theorem files (h : Keeps t w w') (i : ℕ) (r : File) (hl : w.locks (.file i) = some t)
    (hr : w.db.files.get i = some r) : w'.db.files.get i = some r :=
  row_file.mp (h.rows _ _ hl (row_file.mpr hr))

theorem tokens (h : Keeps t w w') (i : ℕ) (r : RefreshToken) (hl : w.locks (.token i) = some t)
    (hr : w.db.refreshTokens.get i = some r) : w'.db.refreshTokens.get i = some r :=
  row_token.mp (h.rows _ _ hl (row_token.mpr hr))

theorem sessions (h : Keeps t w w') (i : ℕ) (r : UploadSession)
    (hl : w.locks (.session i) = some t) (hr : w.db.uploadSessions.get i = some r) :
    w'.db.uploadSessions.get i = some r :=
  row_session.mp (h.rows _ _ hl (row_session.mpr hr))

theorem operations (h : Keeps t w w') (i : ℕ) (r : FinalizationOperation)
    (hl : w.locks (.operation i) = some t) (hr : w.db.finalizationOperations.get i = some r) :
    w'.db.finalizationOperations.get i = some r :=
  row_operation.mp (h.rows _ _ hl (row_operation.mpr hr))

end Keeps

/-- `t` still has its advisory locks, with its attempts, and the chunk rows of a legacy session that it
assembles are the same. -/
structure RetainsLocks (t : ℕ) (w w' : World) : Prop where
  exclusive : ∀ s, (w.fences s).exclusive = some t →
    (w'.fences s).exclusive = some t ∧ (w'.fences s).attempt = (w.fences s).attempt
  shared : ∀ s, t ∈ (w.fences s).shared → t ∈ (w'.fences s).shared
  chunks : ∀ s q q', (w.fences s).exclusive = some t → w.db.uploadSessions.get s = some q →
    q.workspaceId = .legacy → w'.db.uploadSessions.get s = some q' → q'.chunks = q.chunks

/-- What `t` has for itself: its advisory locks, its attempt on a session that it assembles, and the
chunk files of a session that it has locked, unless they are torn, to which no object is added, unless
it is a stray one. -/
structure Retains (t : ℕ) (w w' : World) : Prop extends RetainsLocks t w w' where
  attempt : ∀ s a, (w.fences s).exclusive = some t → (w.fences s).attempt = some a →
    (∀ data, (a, data) ∈ w'.disk.attempts s → (a, data) ∈ w.disk.attempts s) ∧
      w'.disk.objects (finalPlacement s (some a)) = w.disk.objects (finalPlacement s (some a))
  chunkFiles : ∀ s, w.controls s t = true → w'.torn s = true ∨
    w'.disk.chunkFiles s = w.disk.chunkFiles s
  objects : ∀ s a, w.controls s t = true → w.disk.objects (finalPlacement s a) = none →
    w'.stray s = true ∨ w'.disk.objects (finalPlacement s a) = none

theorem RetainsLocks.refl (t : ℕ) (w : World) : RetainsLocks t w w where
  exclusive _ h := ⟨h, rfl⟩
  shared _ h := h
  chunks s q q' _ hq _ hq' := by
    cases hq.symm.trans hq'
    rfl

theorem RetainsLocks.trans {t : ℕ} {w₁ w₂ w₃ : World} (h : RetainsLocks t w₁ w₂)
    (h' : RetainsLocks t w₂ w₃) (hg : Grows w₁.db w₂.db) (hg' : Grows w₂.db w₃.db) :
    RetainsLocks t w₁ w₃ where
  exclusive s hx := by
    obtain ⟨hx2, ha2⟩ := h.exclusive s hx
    obtain ⟨hx3, ha3⟩ := h'.exclusive s hx2
    exact ⟨hx3, ha3.trans ha2⟩
  shared s hs := h'.shared s (h.shared s hs)
  chunks s q q' hx hq hl hq' := by
    have hb : s < w₂.db.uploadSessions.bound := lt_of_lt_of_le (Table.lt_bound hq) hg.sessions.bound
    obtain ⟨q₂, h2, -⟩ := hg'.sessions.old s q' hb hq'
    obtain ⟨q₁, h1, hsame⟩ := hg.sessions.old s q₂ (Table.lt_bound hq) h2
    cases hq.symm.trans h1
    exact (h'.chunks s q₂ q' (h.exclusive s hx).1 h2 (hsame.workspaceId.trans hl) hq').trans
      (h.chunks s q q₂ hx hq hl h2)

/-- Nothing that `t` has for itself changed. -/
theorem Retains.of_eq {t : ℕ} {w w' : World} (hdb : w'.db = w.db) (hd : w'.disk = w.disk)
    (hf : ∀ s, ((w.fences s).exclusive = some t → (w'.fences s).exclusive = some t ∧
        (w'.fences s).attempt = (w.fences s).attempt) ∧
      (t ∈ (w.fences s).shared → t ∈ (w'.fences s).shared)) : Retains t w w' where
  exclusive s := (hf s).1
  shared s := (hf s).2
  chunks s q q' _ hq _ hq' := by
    rw [hdb, hq] at hq'
    cases hq'
    rfl
  attempt s a _ _ := by
    rw [hd]
    exact ⟨fun _ h => h, rfl⟩
  chunkFiles s _ := .inr (by rw [hd])
  objects s a _ hn := .inr (by rw [hd, hn])

/-- The advisory locks and the files are the same. -/
theorem Retains.of_db_eq {t : ℕ} {w w' : World} (hdb : w'.db = w.db) (hd : w'.disk = w.disk)
    (hf : w'.fences = w.fences) : Retains t w w' :=
  .of_eq hdb hd fun s => by rw [hf]; exact ⟨fun h => ⟨h, rfl⟩, fun h => h⟩

/-- What `t` knows of the state even when its connection has broken: nothing that has been there is
forgotten, an attempt that is not one of another thread does not become one, nor does its object
become that of a file, no session becomes active again, and nobody works on the files, the operations
and the uploads of the SSD while `t` has it locked. -/
structure Persists (t : ℕ) (w w' : World) : Prop where
  now : w.now ≤ w'.now
  issued : w.disk.issued ≤ w'.disk.issued
  received : ∀ x, x ∈ w.disk.received → x ∈ w'.disk.received
  sessions : w.db.uploadSessions.Issued UploadSession.SameUpload w'.db.uploadSessions
  torn : ∀ s, w.torn s = true → w'.torn s = true
  stray : ∀ s, w.stray s = true → w'.stray s = true
  attempts : ∀ s a data', a < w.disk.issued → (a, data') ∈ w'.disk.attempts s →
    ∃ data, (a, data) ∈ w.disk.attempts s
  unfenced : ∀ s, w.Unfenced t s → w'.Unfenced t s
  own : ∀ s a, w.Own t s a → w'.Own t s a
  unpublished : ∀ s a, (∀ n, a = some n → w.Own t s n) → w.Unpublished s a → w'.Unpublished s a
  committed : ∀ s a, w.Committed s a → w'.Committed s a
  owned : ∀ s u, s < w.db.uploadSessions.bound →
    (∀ q, w.db.uploadSessions.get s = some q → q.userId = u) → w.Owned s u → w'.Owned s u
  ssd : w.disk.flock = some t → w'.disk.flock = some t ∧ w'.disk.ssd = w.disk.ssd
  inactive : ∀ s q q', w.db.uploadSessions.get s = some q → w'.db.uploadSessions.get s = some q' →
    q.active = false → q'.active = false
  operations : w.disk.flock = some t → ∀ id,
    w'.db.finalizationOperations.get id = w.db.finalizationOperations.get id
  uploads : ∀ s q q', w.disk.flock = some t → w.db.uploadSessions.get s = some q →
    w'.db.uploadSessions.get s = some q' → q.workspaceId = .ssd → q'.chunks = q.chunks ∧ q'.status = q.status

theorem Persists.refl (t : ℕ) (w : World) : Persists t w w where
  now := le_rfl
  issued := le_rfl
  received _ h := h
  sessions := .refl _ UploadSession.SameUpload.refl
  torn _ h := h
  stray _ h := h
  attempts _ _ data _ h := ⟨data, h⟩
  unfenced _ h := h
  own _ _ h := h
  unpublished _ _ _ h := h
  committed _ _ h := h
  owned _ _ _ _ h := h
  ssd h := ⟨h, rfl⟩
  inactive s q q' hq hq' ha := by
    cases hq.symm.trans hq'
    exact ha
  operations _ _ := rfl
  uploads s q q' _ hq hq' _ := by
    cases hq.symm.trans hq'
    exact ⟨rfl, rfl⟩

theorem Persists.trans {t : ℕ} {w₁ w₂ w₃ : World} (h : Persists t w₁ w₂) (h' : Persists t w₂ w₃) :
    Persists t w₁ w₃ where
  now := h.now.trans h'.now
  issued := h.issued.trans h'.issued
  received x hx := h'.received x (h.received x hx)
  sessions := h.sessions.trans (fun _ _ _ h1 h2 => h1.trans h2) h'.sessions
  torn s hs := h'.torn s (h.torn s hs)
  stray s hs := h'.stray s (h.stray s hs)
  attempts s a data ha hd := by
    obtain ⟨data₂, h2⟩ := h'.attempts s a data (lt_of_lt_of_le ha h.issued) hd
    exact h.attempts s a data₂ ha h2
  unfenced s hu := h'.unfenced s (h.unfenced s hu)
  own s a ho := h'.own s a (h.own s a ho)
  unpublished s a ho hu := h'.unpublished s a (fun n hn => h.own s n (ho n hn))
    (h.unpublished s a ho hu)
  committed s a hc := h'.committed s a (h.committed s a hc)
  owned s u hs hq ho := by
    refine h'.owned s u (lt_of_lt_of_le hs h.sessions.bound) (fun q' hq' => ?_) (h.owned s u hs hq ho)
    obtain ⟨q, hq₀, hsame⟩ := h.sessions.old s q' hs hq'
    exact hsame.userId.trans (hq q hq₀)
  ssd hl := by
    obtain ⟨hl2, he2⟩ := h.ssd hl
    obtain ⟨hl3, he3⟩ := h'.ssd hl2
    exact ⟨hl3, he3.trans he2⟩
  inactive s q q' hq hq' ha := by
    obtain ⟨q₂, h2, -⟩ := h'.sessions.old s q' (lt_of_lt_of_le (Table.lt_bound hq) h.sessions.bound) hq'
    exact h'.inactive s q₂ q' h2 hq' (h.inactive s q q₂ hq h2 ha)
  operations hl id := (h'.operations (h.ssd hl).1 id).trans (h.operations hl id)
  uploads s q q' hl hq hq' hw := by
    obtain ⟨q₂, h2, -⟩ := h'.sessions.old s q' (lt_of_lt_of_le (Table.lt_bound hq) h.sessions.bound) hq'
    obtain ⟨q₁, h1, hsame⟩ := h.sessions.old s q₂ (Table.lt_bound hq) h2
    cases hq.symm.trans h1
    obtain ⟨hc, hs⟩ := h.uploads s q q₂ hl hq h2 hw
    obtain ⟨hc', hs'⟩ := h'.uploads s q₂ q' (h.ssd hl).1 h2 hq' (hsame.workspaceId.trans hw)
    exact ⟨hc'.trans hc, hs'.trans hs⟩

/-- The database and the files are the same, and nobody else has begun to assemble. -/
theorem Persists.of_eq {t : ℕ} {w w' : World} (hdb : w'.db = w.db) (hd : w'.disk = w.disk)
    (hs : w'.seen = w.seen) (he : w'.erased = w.erased) (hto : w'.torn = w.torn)
    (hst : w'.stray = w.stray)
    (hf : ∀ s a, (w'.fences s).attempt = some a → (w.fences s).attempt = some a ∧
      (w'.fences s).exclusive = (w.fences s).exclusive)
    (hu : ∀ s, w.Unfenced t s → w'.Unfenced t s) (hn : w.now ≤ w'.now) : Persists t w w' where
  now := hn
  issued := hd ▸ le_rfl
  received x h := hd ▸ h
  sessions := hdb ▸ .refl _ UploadSession.SameUpload.refl
  torn s h := hto ▸ h
  stray s h := hst ▸ h
  attempts s a data _ h := ⟨data, hd ▸ h⟩
  unfenced := hu
  own s a h := by
    rw [World.Own, hd]
    refine ⟨h.1, fun ha => ?_⟩
    obtain ⟨ha', hx⟩ := hf s a ha
    rw [hx]
    exact h.2 ha'
  unpublished s a _ h := by
    rw [World.Unpublished, hs, he]
    exact h
  committed s a h := by
    rw [World.Committed, hs]
    exact h
  owned s u _ _ h := by
    rw [World.Owned, hs]
    exact h
  ssd h := by
    rw [hd]
    exact ⟨h, rfl⟩
  inactive s q q' hq hq' ha := by
    rw [hdb, hq] at hq'
    cases hq'
    exact ha
  operations _ id := by rw [hdb]
  uploads s q q' _ hq hq' _ := by
    rw [hdb, hq] at hq'
    cases hq'
    exact ⟨rfl, rfl⟩

/-- What stays while the transaction of `t` goes on, also by its own statements: `Keeps`, `Retains` and
`Persists`, and a connection that has broken is not there again. -/
structure Continues (t : ℕ) (w w' : World) : Prop where
  keeps : Keeps t w w'
  held : Retains t w w'
  persists : Persists t w w'
  lost : w.lost t = true → w'.lost t = true

theorem Continues.refl (t : ℕ) (w : World) : Continues t w w :=
  ⟨.refl t w, .of_db_eq rfl rfl rfl, .refl t w, fun h => h⟩

theorem Continues.live {t : ℕ} {w w' : World} (h : Continues t w w') (hl : w'.lost t = false) :
    w.lost t = false := by
  by_contra hn
  rw [h.lost (by simpa using hn)] at hl
  cases hl

/-- A thread that has a session locked still has it. -/
theorem Continues.controls {t : ℕ} {w w' : World} (h : Continues t w w') {s : ℕ}
    (hc : w.controls s t = true) : w'.controls s t = true := by
  simp only [World.controls, Bool.or_eq_true, Bool.and_eq_true, decide_eq_true_eq] at hc ⊢
  rcases hc with hx | ⟨hs, hl⟩
  · exact .inl (h.held.exclusive s hx).1
  · exact .inr ⟨h.held.shared s hs, h.keeps.locks _ hl⟩

theorem Continues.trans {t : ℕ} {w₁ w₂ w₃ : World} (h : Continues t w₁ w₂)
    (h' : Continues t w₂ w₃) : Continues t w₁ w₃ where
  keeps := h.keeps.trans h'.keeps
  persists := h.persists.trans h'.persists
  lost hl := h'.lost (h.lost hl)
  held :=
    { toRetainsLocks := h.held.toRetainsLocks.trans h'.held.toRetainsLocks h.keeps.grows h'.keeps.grows
      attempt := fun s a hx ha => by
        obtain ⟨hx2, ha2⟩ := h.held.exclusive s hx
        obtain ⟨hm, ho⟩ := h.held.attempt s a hx ha
        obtain ⟨hm', ho'⟩ := h'.held.attempt s a hx2 (ha2.trans ha)
        exact ⟨fun data hd => hm data (hm' data hd), ho'.trans ho⟩
      chunkFiles := fun s hc => by
        rcases h.held.chunkFiles s hc with hs | h2
        · exact .inl (h'.persists.torn s hs)
        · exact (h'.held.chunkFiles s (h.controls hc)).imp_right fun h3 => h3.trans h2
      objects := fun s a hc hn => by
        rcases h.held.objects s a hc hn with hs | h2
        · exact .inl (h'.persists.stray s hs)
        · exact h'.held.objects s a (h.controls hc) h2 }

/-- What the other threads may do between two statements of `t`, and `t` itself when it checks a link:
its name stays chosen and the tokens it revokes found, and a directory it still has reserved got no
new names. -/
structure Follows (t : ℕ) (w w' : World) : Prop extends Continues t w w' where
  window : w'.window t = w.window t
  sweeping : w'.sweeping t = w.sweeping t
  reserved : ∀ k, w'.reserved k = some t → w.reserved k = some t ∧
    ∀ e n, w'.db.Named k e n → w.db.Named k e n

/-- What the other threads may do between two statements of `t`. -/
structure Rely (t : ℕ) (w w' : World) : Prop extends Follows t w w' where
  checked : w'.checked t = w.checked t

theorem Follows.refl (t : ℕ) (w : World) : Follows t w w :=
  ⟨.refl t w, rfl, rfl, fun _ h => ⟨h, fun _ _ h => h⟩⟩

theorem Rely.refl (t : ℕ) (w : World) : Rely t w w := ⟨.refl t w, rfl⟩

theorem Follows.trans {t : ℕ} {w₁ w₂ w₃ : World} (h : Follows t w₁ w₂) (h' : Follows t w₂ w₃) :
    Follows t w₁ w₃ where
  toContinues := h.toContinues.trans h'.toContinues
  window := h'.window.trans h.window
  sweeping := h'.sweeping.trans h.sweeping
  reserved k hk := by
    obtain ⟨h2, n2⟩ := h'.reserved k hk
    obtain ⟨h1, n1⟩ := h.reserved k h2
    exact ⟨h1, fun e n hn => n1 e n (n2 e n hn)⟩

theorem Rely.trans {t : ℕ} {w₁ w₂ w₃ : World} (h : Rely t w₁ w₂) (h' : Rely t w₂ w₃) :
    Rely t w₁ w₃ := ⟨h.toFollows.trans h'.toFollows, h'.checked.trans h.checked⟩

/-- Neither the database changed nor what `t` has for itself. -/
theorem Follows.of_fences {t : ℕ} {w w' : World} (hdb : w'.db = w.db) (hs : w'.seen = w.seen)
    (hl : ∀ k, w.locks k = some t → w'.locks k = some t) (hw : w'.window t = w.window t)
    (hsw : w'.sweeping t = w.sweeping t)
    (hr : ∀ k, w'.reserved k = some t → w.reserved k = some t) (hh : Retains t w w')
    (hp : Persists t w w') (hlost : w.lost t = true → w'.lost t = true) : Follows t w w' where
  keeps := .of_db_eq hdb hs hl
  held := hh
  persists := hp
  lost := hlost
  window := hw
  sweeping := hsw
  reserved k hk := ⟨hr k hk, fun _ _ hn => hdb ▸ hn⟩

/-- The files are the same, the advisory locks, and what is recorded of them. -/
structure SameFiles (w w' : World) : Prop where
  now : w.now ≤ w'.now
  disk : w'.disk = w.disk
  fences : w'.fences = w.fences
  erased : w'.erased = w.erased
  torn : w'.torn = w.torn
  stray : w'.stray = w.stray

/-- Neither the database changed nor the files, and `t` still has its locks. -/
theorem Continues.of_db_eq {t : ℕ} {w w' : World} (hdb : w'.db = w.db) (hs : w'.seen = w.seen)
    (hl : ∀ k, w.locks k = some t → w'.locks k = some t) (hf : SameFiles w w')
    (hlost : w.lost t = true → w'.lost t = true) : Continues t w w' :=
  ⟨.of_db_eq hdb hs hl, .of_db_eq hdb hf.disk hf.fences,
    (.of_eq hdb hf.disk hs hf.erased hf.torn hf.stray
      (fun s a h => by
        rw [hf.fences] at h ⊢
        exact ⟨h, rfl⟩)
      (fun s h => by
        rw [World.Unfenced, hf.fences]
        exact h)
      hf.now), hlost⟩

/-- Nothing changed that `t` relies on, but for the check of a link. -/
theorem Follows.of_db_eq {t : ℕ} {w w' : World} (hdb : w'.db = w.db) (hs : w'.seen = w.seen)
    (hl : ∀ k, w.locks k = some t → w'.locks k = some t) (hw : w'.window t = w.window t)
    (hsw : w'.sweeping t = w.sweeping t)
    (hr : ∀ k, w'.reserved k = some t → w.reserved k = some t) (hf : SameFiles w w')
    (hlost : w.lost t = true → w'.lost t = true) : Follows t w w' :=
  ⟨.of_db_eq hdb hs hl hf hlost, hw, hsw, fun k hk => ⟨hr k hk, fun _ _ hn => hdb ▸ hn⟩⟩

theorem Rely.of_db_eq {t : ℕ} {w w' : World} (hdb : w'.db = w.db) (hs : w'.seen = w.seen)
    (hl : ∀ k, w.locks k = some t → w'.locks k = some t) (hw : w'.window t = w.window t)
    (hsw : w'.sweeping t = w.sweeping t)
    (hr : ∀ k, w'.reserved k = some t → w.reserved k = some t) (hf : SameFiles w w')
    (hc : w'.checked t = w.checked t) (hlost : w.lost t = true → w'.lost t = true) : Rely t w w' :=
  ⟨.of_db_eq hdb hs hl hw hsw hr hf hlost, hc⟩

/-- What holds in every state: owners and mirrors are in order, the rows there are have been seen,
the parent folder of a chosen name is locked, and uploads and files are in order. -/
structure Inv (w : World) : Prop where
  intact : Intact w.db
  seen : ∀ i r, w.db.files.get i = some r → w.seen i = some r
  seen_bound : ∀ i r, w.seen i = some r → i < w.db.files.bound
  window : ∀ t c p, w.window t = some c → c.slot.parentId = some p →
    w.locks (.folder p) = some t
  published : Published w.db w.seen
  sessions : SessionsInv w.db
  operations : OperationsInv w.db
  disk : DiskInv w

/-- A start with no uploads on the way. -/
theorem Inv.initial (users : Table User) : Inv (World.initial (.empty users)) where
  intact := .empty users
  seen _ _ h := h
  seen_bound _ _ h := Table.lt_bound h
  window _ _ _ h := nomatch h
  published := .empty users
  sessions _ _ h := nomatch h
  operations _ _ h := nomatch h
  disk :=
    { detached := fun _ _ h => nomatch h
      sole := fun _ _ _ h => nomatch h
      assembling := fun _ _ h => nomatch h
      received := fun _ _ _ h => nomatch h
      sized := fun _ _ _ h => nomatch h
      attempts := fun _ _ _ h => nomatch h
      linked := fun _ _ h => absurd rfl h
      placed := fun _ _ _ _ h => nomatch h
      erased := fun _ _ h => nomatch h
      backed := .empty users }

/-! ## Writes -/

/-- The writes that lead to the table `S` keep what uploads are made for, add nothing to what a user
reserves whom `t` has not locked, and leave the chunk rows of a legacy session alone that another
thread assembles. They make no session active, and change none on the SSD unless `t` has that locked. -/
structure KeepsSessions (t : ℕ) (w : World) (S : Table UploadSession) : Prop where
  issued : w.db.uploadSessions.Issued UploadSession.SameUpload S
  reservations : ∀ i q', S.get i = some q' → q'.active = true →
    w.locks (.user q'.userId) ≠ some t →
      ∃ q, w.db.uploadSessions.get i = some q ∧ q.active = true
  chunks : ∀ s q q', (w.fences s).exclusive ≠ some t → (w.fences s).exclusive ≠ none →
    w.db.uploadSessions.get s = some q → q.workspaceId = .legacy → S.get s = some q' →
      q'.chunks = q.chunks
  inactive : ∀ s q q', w.db.uploadSessions.get s = some q → S.get s = some q' → q.active = false →
    q'.active = false
  uploads : ∀ s q q', w.disk.flock ≠ some t → w.db.uploadSessions.get s = some q → S.get s = some q' →
    q.workspaceId = .ssd → q'.chunks = q.chunks ∧ q'.status = q.status

/-- Writes that only change references of sessions. -/
theorem KeepsSessions.of_unmoved {t : ℕ} {w : World} {S : Table UploadSession}
    (hb : w.db.uploadSessions.bound ≤ S.bound)
    (h : ∀ i q', S.get i = some q' → ∃ q, w.db.uploadSessions.get i = some q ∧ q.Unmoved q') :
    KeepsSessions t w S where
  issued := by
    refine ⟨hb, fun i q' _ hq' => ?_⟩
    obtain ⟨q, hq, hu⟩ := h i q' hq'
    exact ⟨q, hq, hu.toSameUpload⟩
  reservations i q' hq' ha _ := by
    obtain ⟨q, hq, hu⟩ := h i q' hq'
    exact ⟨q, hq, hu.active ▸ ha⟩
  chunks s q q' _ _ hq _ hq' := by
    obtain ⟨q₀, hq₀, hu⟩ := h s q' hq'
    cases hq.symm.trans hq₀
    exact hu.chunks
  inactive s q q' hq hq' ha := by
    obtain ⟨q₀, hq₀, hu⟩ := h s q' hq'
    cases hq.symm.trans hq₀
    exact hu.active.trans ha
  uploads s q q' _ hq hq' _ := by
    obtain ⟨q₀, hq₀, hu⟩ := h s q' hq'
    cases hq.symm.trans hq₀
    exact ⟨hu.chunks, hu.status⟩

theorem KeepsSessions.refl (t : ℕ) (w : World) : KeepsSessions t w w.db.uploadSessions :=
  .of_unmoved le_rfl fun _ q hq => ⟨q, hq, .refl q⟩

/-- The writes that lead to the table `P` make no receipts for a link that `t` has not locked. -/
def KeepsReceipts (t : ℕ) (w : World) (P : Table PublicShareOperation) : Prop :=
  ∀ i r' l, P.get i = some r' → r'.shareLinkId = some l → w.locks (.link l) ≠ some t →
    ∃ r, w.db.publicShareOperations.get i = some r ∧ r.SameReceipt r'

theorem KeepsReceipts.refl (t : ℕ) (w : World) : KeepsReceipts t w w.db.publicShareOperations :=
  fun _ r _ h _ _ => ⟨r, h, .refl r⟩

/-- The writes of a transaction of `t` that lead from the state `w` to the database `db'` change no
row that another has locked, no folder tree of a user it has not locked itself, and keep owners,
mirrors and uploads in order. -/
structure Respects (t : ℕ) (w : World) (db' : Db) (entered : List Slot) : Prop where
  rows : ∀ k x, w.locks k ≠ some t → w.locks k ≠ none → w.db.row k = some x → db'.row k = some x
  tree : ∀ u, w.locks (.user u) ≠ some t → ∀ f r, r.userId = u →
    (w.db.folders.get f = some r ↔ db'.folders.get f = some r)
  objects : ∀ u, w.locks (.user u) ≠ some t → ∀ i r, r.userId = u → w.db.files.get i = some r →
    ∃ r', db'.files.get i = some r' ∧ r.SameObject r'
  same : ∀ i r r', w.seen i = some r → db'.files.get i = some r' → r.SameObject r'
  placed : ∀ i r, db'.files.get i = some r → w.seen i = none → w.Places t r
  files_bound : w.db.files.bound ≤ db'.files.bound
  grows : Grows w.db db'
  sessions : KeepsSessions t w db'.uploadSessions
  receipts : KeepsReceipts t w db'.publicShareOperations
  named : ∀ k e n, db'.Named k e n → w.db.Named k e n ∨ k ∈ entered
  intact : Intact db'

theorem Respects.unchanged {t : ℕ} {w : World} (hi : Inv w) : Respects t w w.db [] where
  rows _ _ _ _ h := h
  tree _ _ _ _ _ := Iff.rfl
  objects _ _ _ r _ h := ⟨r, h, .refl r⟩
  same i r r' hr hr' := by
    cases hr.symm.trans (hi.seen i r' hr')
    exact .refl r
  placed i r hr hn := by
    rw [hi.seen i r hr] at hn
    cases hn
  files_bound := le_rfl
  grows := .refl _
  sessions := .refl t w
  receipts := .refl t w
  named _ _ _ h := .inl h
  intact := hi.intact

/-- Writes to the other tables. -/
theorem Respects.of_eq {t : ℕ} {w : World} {db' db'' : Db} {entered : List Slot}
    (h : Respects t w db' entered) (hu : ∀ u, (db'.users.get u).isSome → (db''.users.get u).isSome)
    (hfo : db''.folders = db'.folders) (hfi : db''.files = db'.files)
    (ht : db'.refreshTokens.Issued (fun r r' => r'.userId = r.userId) db''.refreshTokens)
    (hs : KeepsSessions t w db''.uploadSessions) (hp : KeepsReceipts t w db''.publicShareOperations)
    (hrows : ∀ k x, w.locks k ≠ some t → w.locks k ≠ none → db'.row k = some x →
      db''.row k = some x) : Respects t w db'' entered where
  rows k x hl hl' hx := hrows k x hl hl' (h.rows k x hl hl' hx)
  tree u hl f r hr := hfo ▸ h.tree u hl f r hr
  objects u hl i r hr hi := hfi ▸ h.objects u hl i r hr hi
  same i r r' hr hr' := h.same i r r' hr (hfi ▸ hr')
  placed i r hr := h.placed i r (hfi ▸ hr)
  files_bound := hfi ▸ h.files_bound
  grows := ⟨fun u hx => hu u (h.grows.users u hx), hfo ▸ h.grows.folders,
    h.grows.tokens.trans (fun _ _ _ h1 h2 => h2.trans h1) ht, hs.issued⟩
  sessions := hs
  receipts := hp
  named k e n hn := h.named k e n (by
    cases e with
    | file i => simpa only [Db.Named, Db.shown, hfi] using hn
    | folder f => simpa only [Db.Named, Db.shown, hfo] using hn)
  intact :=
    { folder_parent := hfo ▸ h.intact.folder_parent
      file_parent := by
        rw [hfo, hfi]
        exact h.intact.file_parent
      plain := hfi ▸ h.intact.plain
      mirror := by
        rw [hfo, hfi]
        exact h.intact.mirror
      mirror_unique := hfi ▸ h.intact.mirror_unique }

end HomeCloud
