import HomeCloud.Files.Tree
import HomeCloud.Interference

/-!
# The file operations respect the locks

What a file or folder operation has established when it commits, for each kind of write, and that
such a write disturbs no other transaction.

* `Chosen`: a name chosen in a locked directory.
* `FilesTx.Ok`: what holds when the writes are committed.
* **`FilesTx.Ok.respects`**: writes with that property respect locks, owners and mirrors.
-/

namespace HomeCloud

open Concurrent

/-! ## What holds at a commit -/

/-- The parent folder of the directory is live, and `t` has it locked. -/
def Settled (t : ℕ) (w : World) (k : Slot) : Prop :=
  ∀ p, k.parentId = some p → w.locks (.folder p) = some t ∧
    ∃ q, w.db.folders.get p = some q ∧ q.userId = k.userId ∧ q.isDeleted = false

/-- The open transaction of `t` has chosen `name` in the directory `k`, disregarding the entries in
`exempt`. While it has the names of `k` reserved, no other entry has that name. -/
structure Chosen (t : ℕ) (w : World) (k : Slot) (name : DbText) (c : NameChoice)
    (exempt : List Entry) : Prop where
  slot : c.slot = k
  name : name = .ofJs c.chosen
  window : w.window t = some c
  settled : Settled t w k
  fresh : w.reserved k = some t → ∀ e n, e ∉ exempt → w.db.Named k e n → n.val ≠ c.chosen

/-- A charge of `bytes` to `u` fits, and the user is locked unless nothing is charged. -/
structure Charged (t : ℕ) (w : World) (u bytes : ℕ) : Prop where
  user : (w.db.users.get u).isSome
  locked : bytes ≠ 0 → w.locks (.user u) = some t
  fits : bytes ≠ 0 → ∃ r, w.db.users.get u = some r ∧ r.storageUsed + bytes ≤ r.storageQuota

structure AddFileOk (t : ℕ) (w : World) (file : File) (c : NameChoice) : Prop where
  plain : file.isFolder = false ∧ file.folderId = none
  live : file.isDeleted = false
  charged : Charged t w file.userId file.size
  chosen : Chosen t w file.slot file.name c []
  placed : w.Places t file

structure AddFolderOk (t : ℕ) (w : World) (folder : Folder) (c : NameChoice) : Prop where
  live : folder.isDeleted = false
  user : w.locks (.user folder.userId) = some t
  chosen : Chosen t w folder.slot folder.name c []

/-- A row may come in below the shared folder: the link is locked, active and of the owner, was not
expired when it was last checked, and the live path to the root leads through the shared folder. -/
structure SharedOk (t : ℕ) (w : World) (linkId rootId userId parentId : ℕ) : Prop where
  link : ∃ l, w.db.shareLinks.get linkId = some l ∧ l.isActive = true ∧ l.userId = userId ∧
    ∀ now expires, w.checked t = some (now, expires) → l.expiresAt.all (now < ·) = true
  checked : (w.checked t).isSome
  locked : w.locks (.link linkId) = some t
  within : w.db.within userId rootId parentId = true

/-- A new receipt: its link is locked and has not too many. -/
structure ReceiptOk (t : ℕ) (w : World) (r : PublicShareOperation) (linkId : ℕ) : Prop where
  link : r.shareLinkId = some linkId
  locked : w.locks (.link linkId) = some t
  room : (w.db.receiptsOf linkId).length < 1000

/-- What a public request for a folder has established. -/
structure PublicFolderOk (t : ℕ) (w : World) (folder : Folder) (r : PublicShareOperation)
    (linkId rootId parentId : ℕ) : Prop where
  receipt : ReceiptOk t w r linkId
  root : r.shareRootFolderId = some rootId
  parent : folder.parentId = some parentId
  shared : SharedOk t w linkId rootId folder.userId parentId

structure PlaceFileOk (t : ℕ) (w : World) (id : ℕ) (file : File) (choice : Option NameChoice)
    (old : File) : Prop where
  row : w.db.files.get id = some old
  locked : w.locks (.file id) = some t
  plain : old.isFolder = false
  same : old.SameObject file
  kept : choice = none → file.name = old.name ∧ file.parentId = old.parentId ∧
    file.isDeleted = old.isDeleted
  chosen : ∀ c, choice = some c → Chosen t w file.slot file.name c [.file id]

structure SetFolderOk (t : ℕ) (w : World) (id mirrorId : ℕ) (folder : Folder) (mirror : File)
    (choice : Option NameChoice) (old : Folder) (oldMirror : File) : Prop where
  row : w.db.folders.get id = some old
  mirrorRow : w.db.files.get mirrorId = some oldMirror
  user : w.locks (.user old.userId) = some t
  locked : w.locks (.folder id) = some t
  mirrorLocked : w.locks (.file mirrorId) = some t
  owner : folder.userId = old.userId
  isMirror : oldMirror.isFolder = true ∧ oldMirror.folderId = some id
  same : oldMirror.SameObject mirror
  agrees : mirror.userId = folder.userId ∧ mirror.name = folder.name ∧
    mirror.parentId = folder.parentId ∧ mirror.isDeleted = folder.isDeleted
  kept : choice = none → folder.name = old.name ∧
    (folder.parentId = old.parentId ∨ folder.parentId = none) ∧
    (folder.isDeleted = false → old.isDeleted = false)
  chosen : ∀ c, choice = some c → Chosen t w folder.slot folder.name c [.file mirrorId, .folder id]
  outside : ∀ p, folder.parentId = some p → folder.parentId ≠ old.parentId → ¬ w.db.Below id p

structure TrashFileOk (t : ℕ) (w : World) (id : ℕ) (patch : FilePatch) (old : File) : Prop where
  row : w.db.files.get id = some old
  locked : w.locks (.file id) = some t
  plain : old.isFolder = false
  trashes : ∀ b, patch.isDeleted = some b → b = true
  parent : ∀ p q, patch.parentId = some (some p) → w.db.folders.get p = some q →
    q.userId = old.userId

structure ReinsertFileOk (w : World) (id : ℕ) (file : File) : Prop where
  plain : file.isFolder = false ∧ file.folderId = none
  trashed : file.isDeleted = true
  parent : ∀ p q, file.parentId = some p → w.db.folders.get p = some q → q.userId = file.userId
  seen : ∃ r, w.seen id = some r ∧ r.SameObject file

/-- A refund of `bytes` to `u`, who is locked. -/
structure Refunded (t : ℕ) (w : World) (u bytes : ℕ) : Prop where
  locked : w.locks (.user u) = some t
  covered : bytes ≠ 0 → ∃ r, w.db.users.get u = some r ∧ (bytes : ℤ) ≤ r.storageUsed

structure DeleteFileOk (t : ℕ) (w : World) (id u bytes : ℕ) (old : File) : Prop where
  row : w.db.files.get id = some old
  owner : old.userId = u
  size : old.size = bytes
  locked : w.locks (.file id) = some t
  refunded : Refunded t w u bytes

structure DeleteTreeOk (t : ℕ) (w : World) (view : Db) (u : ℕ) (folders files mirrors : List ℕ)
    (bytes : ℕ) : Prop where
  folders_row : ∀ f ∈ folders, w.locks (.folder f) = some t ∧
    ∃ r, w.db.folders.get f = some r ∧ r.userId = u
  files_row : ∀ i ∈ files, w.locks (.file i) = some t ∧
    ∃ r, w.db.files.get i = some r ∧ r.userId = u ∧ r.isFolder = false
  mirrors_row : ∀ i ∈ mirrors, w.locks (.file i) = some t ∧
    ∃ r f, w.db.files.get i = some r ∧ r.userId = u ∧ r.isFolder = true ∧ r.folderId = some f ∧
      f ∈ folders
  mirrored : ∀ f ∈ folders, ∃ i ∈ mirrors, ∃ r, w.db.files.get i = some r ∧ r.folderId = some f
  nodup : (files ++ mirrors).Nodup
  bytes_eq : bytes = (files.map fun i => (w.db.files.get i).elim 0 fun r => r.size).sum
  refunded : Refunded t w u bytes
  folders_closed : ∀ f r, view.folders.get f = some r → r.userId = u →
    (∃ p ∈ folders, r.parentId = some p) → f ∈ folders
  files_closed : ∀ i r, view.files.get i = some r → r.userId = u → r.isFolder = false →
    (∃ p ∈ folders, r.parentId = some p) → i ∈ files

/-- What `t` has established when it commits the writes. -/
def FilesTx.Ok (t : ℕ) (w : World) : FilesTx → Prop
  | .addFile file c => AddFileOk t w file c ∧ file.uploadId = none ∧
    ∃ n, file.placement = some ⟨0, .object n⟩
  | .addFolder folder receipt c => AddFolderOk t w folder c ∧ ∀ r, receipt = some r →
    ∃ linkId rootId parentId, PublicFolderOk t w folder r linkId rootId parentId
  | .placeFile id file choice => ∃ old, PlaceFileOk t w id file choice old
  | .setFolder id mirrorId folder mirror choice =>
    ∃ old oldMirror, SetFolderOk t w id mirrorId folder mirror choice old oldMirror
  | .trashFile id patch => ∃ old, TrashFileOk t w id patch old
  | .reinsertFile id file => ReinsertFileOk w id file
  | .deleteFile id u bytes => ∃ old, DeleteFileOk t w id u bytes old
  | .deleteTree view u folders files mirrors bytes =>
    DeleteTreeOk t w view u folders files mirrors bytes

/-! ## Charges -/

section Charge

variable (db : Db) (u : ℕ) (b : ℤ)

@[simp]
theorem Db.charge_folders : (db.charge u b).folders = db.folders := rfl

@[simp]
theorem Db.charge_files : (db.charge u b).files = db.files := rfl

theorem Db.charge_users_ne {v : ℕ} (h : v ≠ u) : (db.charge u b).users.get v = db.users.get v := by
  simp only [Db.charge, Table.get_map, if_neg h]
  cases db.users.get v <;> rfl

theorem Db.charge_zero_users (v : ℕ) : (db.charge u 0).users.get v = db.users.get v := by
  simp only [Db.charge, Table.get_map, Int.add_zero]
  cases db.users.get v with
  | none => rfl
  | some r => exact congrArg some (ite_self r)

theorem Db.charge_users_isSome (v : ℕ) :
    ((db.charge u b).users.get v).isSome = (db.users.get v).isSome := by
  simp [Db.charge]

end Charge

/-- Charging a locked user respects the locks, when the other writes do. -/
theorem Respects.charge {t : ℕ} {w : World} {db' : Db} {entered : List Slot}
    (h : Respects t w db' entered) {u : ℕ} {b : ℤ} (hu : b ≠ 0 → w.locks (.user u) = some t) :
    Respects t w (db'.charge u b) entered := by
  refine h.of_eq (fun v hv => by rwa [Db.charge_users_isSome]) rfl rfl
    (.refl _) h.sessions h.receipts fun k x hl _ hx => ?_
  cases k with
  | user v =>
    by_cases hb : b = 0
    · simpa only [Db.row, hb, Db.charge_zero_users] using hx
    · have hv : v ≠ u := fun hv => hl (hv ▸ hu hb)
      simpa only [Db.row, Db.charge_users_ne _ _ _ hv] using hx
  | _ => exact hx

/-! ## Entries -/

/-- The entry that a row belongs to. -/
theorem mem_enters (old : Option (Slot × DbText)) {new : Option (Slot × DbText)} {k : Slot}
    {n : DbText} (hn : new = some (k, n)) : old = some (k, n) ∨ k ∈ enters old new := by
  subst hn
  by_cases h : old = some (k, n)
  · exact .inl h
  · right
    simp [enters, h]

theorem eq_of_mem_enters {old new : Option (Slot × DbText)} {k : Slot} (h : k ∈ enters old new) :
    ∃ n, new = some (k, n) ∧ old ≠ new := by
  cases new with
  | none => cases h
  | some kn =>
    simp only [enters] at h
    split_ifs at h with ho
    · cases h
    · rw [List.mem_singleton] at h
      exact ⟨kn.2, by rw [h], ho⟩

/-- Where an entry is shown after file and folder rows were written. -/
theorem shown_put_file {files : Table File} {id i : ℕ} {file : File} :
    ((files.put id file).get i).bind File.shown =
      if i = id then file.shown else (files.get i).bind File.shown := by
  rw [Table.get_put]
  split_ifs <;> rfl

theorem shown_put_folder {folders : Table Folder} {id i : ℕ} {folder : Folder} :
    ((folders.put id folder).get i).bind Folder.shown =
      if i = id then folder.shown else (folders.get i).bind Folder.shown := by
  rw [Table.get_put]
  split_ifs <;> rfl

/-- A mirror is no entry of its own. -/
theorem File.shown_of_isFolder {r : File} (h : r.isFolder = true) : r.shown = none := by
  simp [File.shown, h]

theorem File.shown_eq_some {r : File} {k : Slot} {n : DbText} (h : r.shown = some (k, n)) :
    r.isFolder = false ∧ r.isDeleted = false ∧ r.slot = k ∧ r.name = n := by
  unfold File.shown at h
  split_ifs at h with hb
  simp only [Bool.or_eq_true, not_or, Bool.not_eq_true] at hb
  cases h
  exact ⟨hb.1, hb.2, rfl, rfl⟩

theorem Folder.shown_eq_some {r : Folder} {k : Slot} {n : DbText} (h : r.shown = some (k, n)) :
    r.isDeleted = false ∧ r.slot = k ∧ r.name = n := by
  unfold Folder.shown at h
  split_ifs at h with hb
  cases h
  exact ⟨by simpa using hb, rfl, rfl⟩

/-! ## One file row -/

theorem Inv.seen_same {w : World} (hi : Inv w) {i : ℕ} {r r' : File} (hr : w.seen i = some r)
    (hr' : w.db.files.get i = some r') : r.SameObject r' := by
  cases hr.symm.trans (hi.seen i r' hr')
  exact .refl r

/-- A row that is there has been seen. -/
theorem Inv.placed {w : World} (hi : Inv w) {t i : ℕ} {r : File} (hr : w.db.files.get i = some r)
    (hn : w.seen i = none) : w.Places t r := by
  rw [hi.seen i r hr] at hn
  cases hn

theorem Inv.not_seen {w : World} (hi : Inv w) {r : File} : w.seen w.db.files.bound ≠ some r :=
  fun h => absurd (hi.seen_bound _ r h) (lt_irrefl _)

section PutFile

variable {t : ℕ} {w : World} {id : ℕ} {file : File}

/-- Writing one ordinary file row, new or locked. -/
theorem respects_putFile (hi : Inv w)
    (hplain : file.isFolder = false ∧ file.folderId = none)
    (hold : ∀ old, w.db.files.get id = some old → w.locks (.file id) = some t ∧
      old.isFolder = false ∧ old.SameObject file)
    (hseen : ∀ r, w.seen id = some r → r.SameObject file)
    (hparent : ∀ p, file.parentId = some p →
      ∃ q, w.db.folders.get p = some q ∧ q.userId = file.userId)
    (hplaced : w.seen id = none → w.Places t file) :
    Respects t w { w.db with files := w.db.files.put id file }
      (enters (w.db.shown (.file id)) file.shown) where
  rows k x hl _ hx := by
    cases k with
    | file i =>
      obtain ⟨r, hr, rfl⟩ := Option.map_eq_some_iff.mp hx
      have hne : i ≠ id := fun h => hl (h ▸ (hold r (h ▸ hr)).1)
      exact row_file.mpr (by rw [Table.get_put_ne _ _ hne, hr])
    | _ => exact hx
  tree u _ f r _ := Iff.rfl
  objects u _ i r _ hr := by
    by_cases h : i = id
    · subst h
      exact ⟨file, Table.get_put_self .., (hold r hr).2.2⟩
    · exact ⟨r, by simp only [Table.get_put_ne _ _ h, hr], .refl r⟩
  same i r r' hr hr' := by
    simp only [Table.get_put] at hr'
    split_ifs at hr' with h
    · cases hr'
      exact hseen r (h ▸ hr)
    · exact hi.seen_same hr hr'
  placed i r hr hn := by
    simp only [Table.get_put] at hr
    split_ifs at hr with h
    · cases hr
      exact hplaced (h ▸ hn)
    · exact hi.placed hr hn
  files_bound := le_max_left _ _
  grows := ⟨fun _ h => h, .refl _, .refl _, (KeepsSessions.refl t w).issued⟩
  sessions := .refl t w
  receipts := .refl t w
  named k e n hn := by
    cases e with
    | folder f => exact .inl hn
    | file i =>
      simp only [Db.Named, Db.shown, shown_put_file] at hn ⊢
      split_ifs at hn with h
      · subst h
        exact mem_enters _ hn
      · exact .inl hn
  intact :=
    { folder_parent := hi.intact.folder_parent
      file_parent := fun i r p hr hp => by
        rw [Table.get_put] at hr
        split_ifs at hr with h
        · cases hr
          exact hparent p hp
        · exact hi.intact.file_parent i r p hr hp
      plain := fun i r hr hf => by
        rw [Table.get_put] at hr
        split_ifs at hr with h
        · cases hr
          exact hplain.2
        · exact hi.intact.plain i r hr hf
      mirror := fun i r hr hf => by
        rw [Table.get_put] at hr
        split_ifs at hr with h
        · cases hr
          rw [hplain.1] at hf
          cases hf
        · exact hi.intact.mirror i r hr hf
      mirror_unique := fun i j r r' hr hr' hf hf' he => by
        rw [Table.get_put] at hr hr'
        split_ifs at hr hr' with h h'
        · cases hr
          rw [hplain.1] at hf
          cases hf
        · cases hr
          rw [hplain.1] at hf
          cases hf
        · cases hr'
          rw [hplain.1] at hf'
          cases hf'
        · exact hi.intact.mirror_unique i j r r' hr hr' hf hf' he }

end PutFile

theorem Settled.owned {t : ℕ} {w : World} {k : Slot} (h : Settled t w k) :
    ∀ p, k.parentId = some p → ∃ q, w.db.folders.get p = some q ∧ q.userId = k.userId :=
  fun p hp => by
    obtain ⟨-, q, hq, hu, -⟩ := h p hp
    exact ⟨q, hq, hu⟩

theorem AddFileOk.respects {t : ℕ} {w : World} {file : File} {c : NameChoice}
    (h : AddFileOk t w file c) (hi : Inv w) :
    Respects t w ((FilesTx.addFile file c).apply w.db) ((FilesTx.addFile file c).entered w.db) := by
  have hput : Respects t w { w.db with files := w.db.files.put w.db.files.bound file }
      (enters (w.db.shown (.file w.db.files.bound)) file.shown) :=
    respects_putFile hi h.plain (fun old ho => by rw [Table.get_bound] at ho; cases ho)
      (fun r hr => absurd hr hi.not_seen) h.chosen.settled.owned fun _ => h.placed
  have hs : w.db.shown (.file w.db.files.bound) = none := by
    simp only [Db.shown, Table.get_bound, Option.bind_none]
  rw [hs] at hput
  exact hput.charge fun hb => h.charged.locked fun h0 => hb (by rw [h0]; rfl)

theorem PlaceFileOk.respects {t : ℕ} {w : World} {id : ℕ} {file old : File}
    {choice : Option NameChoice} (h : PlaceFileOk t w id file choice old) (hi : Inv w) :
    Respects t w ((FilesTx.placeFile id file choice).apply w.db)
      ((FilesTx.placeFile id file choice).entered w.db) := by
  refine respects_putFile hi ⟨h.same.isFolder.trans h.plain,
    h.same.folderId.trans (hi.intact.plain id old h.row h.plain)⟩ (fun old' ho => ?_)
    (fun r hr => (hi.seen_same hr h.row).trans h.same) (fun p hp => ?_)
    fun hn => absurd ((hi.seen id old h.row).symm.trans hn) nofun
  · cases ho.symm.trans h.row
    exact ⟨h.locked, h.plain, h.same⟩
  · cases choice with
    | none =>
      rw [h.same.userId]
      exact hi.intact.file_parent id old p h.row ((h.kept rfl).2.1 ▸ hp)
    | some c => exact (h.chosen c rfl).settled.owned p hp

theorem TrashFileOk.respects {t : ℕ} {w : World} {id : ℕ} {patch : FilePatch} {old : File}
    (h : TrashFileOk t w id patch old) (hi : Inv w)
    (ha : (FilesTx.trashFile id patch).allowed w.db = true) :
    Respects t w ((FilesTx.trashFile id patch).apply w.db)
      ((FilesTx.trashFile id patch).entered w.db) := by
  have hsame : old.SameObject (patch.apply old) := ⟨rfl, rfl, rfl, rfl, rfl, rfl⟩
  simp only [FilesTx.apply, FilesTx.entered, h.row, Option.bind_some]
  refine respects_putFile hi ⟨h.plain, hi.intact.plain id old h.row h.plain⟩ (fun old' ho => ?_)
    (fun r hr => (hi.seen_same hr h.row).trans hsame) (fun p hp => ?_)
    fun hn => absurd ((hi.seen id old h.row).symm.trans hn) nofun
  · cases ho.symm.trans h.row
    exact ⟨h.locked, h.plain, hsame⟩
  · simp only [FilesTx.allowed] at ha
    cases hpp : patch.parentId with
    | none =>
      simp only [FilePatch.apply, hpp, Option.getD_none] at hp
      exact hi.intact.file_parent id old p h.row hp
    | some p' =>
      simp only [FilePatch.apply, hpp, Option.getD_some] at hp
      subst hp
      simp only [hpp, Option.all_some] at ha
      obtain ⟨q, hq⟩ := Option.isSome_iff_exists.mp ha
      exact ⟨q, hq, h.parent p q hpp hq⟩

theorem ReinsertFileOk.respects {t : ℕ} {w : World} {id : ℕ} {file : File}
    (h : ReinsertFileOk w id file) (hi : Inv w)
    (ha : (FilesTx.reinsertFile id file).allowed w.db = true) :
    Respects t w ((FilesTx.reinsertFile id file).apply w.db)
      ((FilesTx.reinsertFile id file).entered w.db) := by
  simp only [FilesTx.allowed, Bool.and_eq_true, Option.isNone_iff_eq_none] at ha
  have hput : Respects t w { w.db with files := w.db.files.put id file }
      (enters (w.db.shown (.file id)) file.shown) := by
    refine respects_putFile hi h.plain (fun old ho => ?_) (fun r hr => ?_) (fun p hp => ?_)
      fun hn => ?_
    · rw [ha.1.1] at ho
      cases ho
    · obtain ⟨r', hr', hs⟩ := h.seen
      cases hr.symm.trans hr'
      exact hs
    · simp only [Db.parentExists, hp, Option.all_some] at ha
      obtain ⟨q, hq⟩ := Option.isSome_iff_exists.mp ha.1.2
      exact ⟨q, hq, h.parent p q hp hq⟩
    · obtain ⟨r', hr', -⟩ := h.seen
      exact absurd (hr'.symm.trans hn) nofun
  have hs : w.db.shown (.file id) = none := by
    simp only [Db.shown, ha.1.1, Option.bind_none]
  rwa [hs] at hput

/-! ## Folders and their mirrors -/

/-- A receipt is made for a locked link. -/
theorem keepsReceipts_insert {t : ℕ} {w : World} {receipt : Option PublicShareOperation}
    {f : PublicShareOperation → PublicShareOperation}
    (h : ∀ r, receipt = some r → ∃ l, ReceiptOk t w r l)
    (hf : ∀ r, (f r).shareLinkId = r.shareLinkId := by intro _; rfl) :
    KeepsReceipts t w (receipt.elim w.db.publicShareOperations fun r =>
      w.db.publicShareOperations.insert (f r)) := by
  cases receipt with
  | none => exact .refl t w
  | some r =>
    intro i r' l hr' hs hl
    simp only [Option.elim_some, Table.get_insert] at hr'
    split_ifs at hr'
    · cases hr'
      obtain ⟨l', ho⟩ := h r rfl
      rw [hf, ho.link] at hs
      cases hs
      exact absurd ho.locked hl
    · exact ⟨r', hr', .refl r'⟩

theorem AddFolderOk.respects {t : ℕ} {w : World} {folder : Folder}
    {receipt : Option PublicShareOperation} {c : NameChoice} (h : AddFolderOk t w folder c)
    (hreceipt : ∀ r, receipt = some r → ∃ l, ReceiptOk t w r l) (hi : Inv w) :
    Respects t w ((FilesTx.addFolder folder receipt c).apply w.db)
      ((FilesTx.addFolder folder receipt c).entered w.db) where
  rows k x _ _ hx := by
    cases k with
    | folder f =>
      obtain ⟨r, hr, rfl⟩ := Option.map_eq_some_iff.mp hx
      exact row_folder.mpr (Table.get_insert_of_some hr)
    | file i =>
      obtain ⟨r, hr, rfl⟩ := Option.map_eq_some_iff.mp hx
      exact row_file.mpr (Table.get_insert_of_some hr)
    | _ => exact hx
  tree u hl f r hu := by
    refine ⟨Table.get_insert_of_some, fun hr => ?_⟩
    simp only [FilesTx.apply, Table.get_insert] at hr
    split_ifs at hr
    · cases hr
      exact absurd (hu ▸ h.user) hl
    · exact hr
  objects u _ i r _ hr := ⟨r, Table.get_insert_of_some hr, .refl r⟩
  same i r r' hr hr' := by
    simp only [FilesTx.apply, Table.get_insert] at hr'
    split_ifs at hr' with hb
    · exact absurd (hb ▸ hr) hi.not_seen
    · exact hi.seen_same hr hr'
  placed i r hr hn := by
    simp only [FilesTx.apply, Table.get_insert] at hr
    split_ifs at hr with hb
    · cases hr
      exact .of_none (fun s a hp => by cases hp) rfl
    · exact hi.placed hr hn
  files_bound := le_max_left _ _
  grows := ⟨fun _ hu => hu, .insert _ _, .refl _, (KeepsSessions.refl t w).issued⟩
  sessions := .refl t w
  receipts := keepsReceipts_insert hreceipt
  named k e n hn := by
    cases e with
    | file i =>
      left
      simp only [Db.Named, Db.shown, FilesTx.apply, Table.insert, shown_put_file] at hn ⊢
      split_ifs at hn
      · rw [File.shown_of_isFolder rfl] at hn
        cases hn
      · exact hn
    | folder f =>
      simp only [Db.Named, Db.shown, FilesTx.apply, Table.insert, shown_put_folder] at hn ⊢
      split_ifs at hn
      · exact .inr ((mem_enters _ hn).resolve_left fun h => by cases h)
      · exact .inl hn
  intact :=
    { folder_parent := fun f r p hr hp => by
        simp only [FilesTx.apply, Table.get_insert] at hr
        split_ifs at hr
        · cases hr
          obtain ⟨q, hq, hu⟩ := h.chosen.settled.owned p hp
          exact ⟨q, Table.get_insert_of_some hq, hu⟩
        · obtain ⟨q, hq, hu⟩ := hi.intact.folder_parent f r p hr hp
          exact ⟨q, Table.get_insert_of_some hq, hu⟩
      file_parent := fun i r p hr hp => by
        simp only [FilesTx.apply, Table.get_insert] at hr
        split_ifs at hr
        · cases hr
          obtain ⟨q, hq, hu⟩ := h.chosen.settled.owned p hp
          exact ⟨q, Table.get_insert_of_some hq, hu⟩
        · obtain ⟨q, hq, hu⟩ := hi.intact.file_parent i r p hr hp
          exact ⟨q, Table.get_insert_of_some hq, hu⟩
      plain := fun i r hr hf => by
        simp only [FilesTx.apply, Table.get_insert] at hr
        split_ifs at hr
        · cases hr
          cases hf
        · exact hi.intact.plain i r hr hf
      mirror := fun i r hr hf => by
        simp only [FilesTx.apply, Table.get_insert] at hr
        split_ifs at hr
        · cases hr
          exact ⟨_, folder, rfl, Table.get_insert_bound .., rfl, rfl, rfl, h.live⟩
        · obtain ⟨f, q, hid, hq, ha⟩ := hi.intact.mirror i r hr hf
          exact ⟨f, q, hid, Table.get_insert_of_some hq, ha⟩
      mirror_unique := fun i j r r' hr hr' hf hf' he => by
        have hnew : ∀ i r, w.db.files.get i = some r → r.isFolder = true →
            r.folderId ≠ some w.db.folders.bound := fun i r hr hf hb => by
          obtain ⟨f, q, hid, hq, -⟩ := hi.intact.mirror i r hr hf
          exact Table.ne_bound hq (Option.some.inj (hid.symm.trans hb))
        simp only [FilesTx.apply, Table.get_insert] at hr hr'
        split_ifs at hr hr' with h1 h2
        · rw [h1, h2]
        · cases hr
          exact absurd he.symm (hnew j r' hr' hf')
        · cases hr'
          exact absurd he (hnew i r hr hf)
        · exact hi.intact.mirror_unique i j r r' hr hr' hf hf' he }

/-- The parent of the folder is a folder of its owner. -/
theorem SetFolderOk.parent {t : ℕ} {w : World} {id mirrorId : ℕ} {folder old : Folder}
    {mirror oldMirror : File} {choice : Option NameChoice}
    (h : SetFolderOk t w id mirrorId folder mirror choice old oldMirror) (hi : Inv w) {p : ℕ}
    (hp : folder.parentId = some p) :
    ∃ q, w.db.folders.get p = some q ∧ q.userId = folder.userId := by
  cases hc : choice with
  | none =>
    rcases (h.kept hc).2.1 with he | he
    · rw [h.owner]
      exact hi.intact.folder_parent id old p h.row (he ▸ hp)
    · rw [he] at hp
      cases hp
  | some c => exact (h.chosen c hc).settled.owned p hp

theorem SetFolderOk.respects {t : ℕ} {w : World} {id mirrorId : ℕ} {folder old : Folder}
    {mirror oldMirror : File} {choice : Option NameChoice}
    (h : SetFolderOk t w id mirrorId folder mirror choice old oldMirror) (hi : Inv w) :
    Respects t w ((FilesTx.setFolder id mirrorId folder mirror choice).apply w.db)
      ((FilesTx.setFolder id mirrorId folder mirror choice).entered w.db) := by
  have hmf : mirror.isFolder = true := h.same.isFolder.trans h.isMirror.1
  have hmid : mirror.folderId = some id := h.same.folderId.trans h.isMirror.2
  -- Parents keep their owners, so they serve the rows they served before.
  have hparent : ∀ p q u, w.db.folders.get p = some q → q.userId = u →
      ∃ q', (w.db.folders.put id folder).get p = some q' ∧ q'.userId = u := by
    intro p q u hq hu
    by_cases hp : p = id
    · subst hp
      cases hq.symm.trans h.row
      exact ⟨folder, Table.get_put_self .., h.owner.trans hu⟩
    · exact ⟨q, by rw [Table.get_put_ne _ _ hp, hq], hu⟩
  have hnew : ∀ p, folder.parentId = some p →
      ∃ q, w.db.folders.get p = some q ∧ q.userId = folder.userId := fun p => h.parent hi
  refine
    { rows := fun k x hl _ hx => ?_
      tree := fun u hl f r hu => ?_
      objects := fun u _ i r _ hr => ?_
      same := fun i r r' hr hr' => ?_
      placed := fun i r hr hn => ?_
      files_bound := le_max_left _ _
      grows := ⟨fun _ hu => hu, .put h.row h.owner, .refl _, (KeepsSessions.refl t w).issued⟩
      sessions := .refl t w
      receipts := .refl t w
      named := fun k e n hn => ?_
      intact := ⟨fun f r p hr hp => ?_, fun i r p hr hp => ?_, fun i r hr hf => ?_,
        fun i r hr hf => ?_, fun i j r r' hr hr' hf hf' he => ?_⟩ }
  · cases k with
    | folder f =>
      have hne : f ≠ id := fun hf => hl (hf ▸ h.locked)
      simpa only [Db.row, FilesTx.apply, Table.get_put_ne _ _ hne] using hx
    | file i =>
      have hne : i ≠ mirrorId := fun hf => hl (hf ▸ h.mirrorLocked)
      simpa only [Db.row, FilesTx.apply, Table.get_put_ne _ _ hne] using hx
    | _ => exact hx
  · by_cases hf : f = id
    · subst hf
      simp only [FilesTx.apply, Table.get_put_self, h.row, Option.some.injEq]
      constructor
      · intro he
        exact absurd ((he ▸ hu : old.userId = u) ▸ h.user) hl
      · intro he
        exact absurd ((h.owner ▸ he ▸ hu : old.userId = u) ▸ h.user) hl
    · simp only [FilesTx.apply, Table.get_put_ne _ _ hf]
  · by_cases hm : i = mirrorId
    · subst hm
      cases hr.symm.trans h.mirrorRow
      exact ⟨mirror, Table.get_put_self .., h.same⟩
    · exact ⟨r, by simp only [FilesTx.apply, Table.get_put_ne _ _ hm, hr], .refl r⟩
  · simp only [FilesTx.apply, Table.get_put] at hr'
    split_ifs at hr' with hm
    · cases hr'
      exact (hi.seen_same (hm ▸ hr) h.mirrorRow).trans h.same
    · exact hi.seen_same hr hr'
  · simp only [FilesTx.apply, Table.get_put] at hr
    split_ifs at hr with hm
    · rw [hm, hi.seen mirrorId oldMirror h.mirrorRow] at hn
      cases hn
    · exact hi.placed hr hn
  · cases e with
    | file i =>
      left
      simp only [Db.Named, Db.shown, FilesTx.apply, shown_put_file] at hn ⊢
      split_ifs at hn
      · rw [File.shown_of_isFolder hmf] at hn
        cases hn
      · exact hn
    | folder f =>
      simp only [Db.Named, Db.shown, FilesTx.apply, FilesTx.entered, shown_put_folder] at hn ⊢
      split_ifs at hn with hf
      · subst hf
        exact mem_enters _ hn
      · exact .inl hn
  · simp only [FilesTx.apply, Table.get_put] at hr
    split_ifs at hr
    · cases hr
      obtain ⟨q, hq, hu⟩ := hnew p hp
      exact hparent p q _ hq hu
    · obtain ⟨q, hq, hu⟩ := hi.intact.folder_parent f r p hr hp
      exact hparent p q _ hq hu
  · simp only [FilesTx.apply, Table.get_put] at hr
    split_ifs at hr
    · cases hr
      obtain ⟨q, hq, hu⟩ := hnew p (h.agrees.2.2.1 ▸ hp)
      rw [h.agrees.1]
      exact hparent p q _ hq hu
    · obtain ⟨q, hq, hu⟩ := hi.intact.file_parent i r p hr hp
      exact hparent p q _ hq hu
  · simp only [FilesTx.apply, Table.get_put] at hr
    split_ifs at hr
    · cases hr
      rw [hmf] at hf
      cases hf
    · exact hi.intact.plain i r hr hf
  · simp only [FilesTx.apply, Table.get_put] at hr
    split_ifs at hr with hm
    · cases hr
      exact ⟨id, folder, hmid, Table.get_put_self .., h.agrees.1.symm, h.agrees.2.1.symm,
        h.agrees.2.2.1.symm, h.agrees.2.2.2.symm⟩
    · obtain ⟨f, q, hid, hq, ha⟩ := hi.intact.mirror i r hr hf
      have hne : f ≠ id := fun hfe =>
        hm (hi.intact.mirror_unique i mirrorId r oldMirror hr h.mirrorRow hf h.isMirror.1
          (by rw [hid, h.isMirror.2, hfe]))
      exact ⟨f, q, hid, by simp only [FilesTx.apply, Table.get_put_ne _ _ hne, hq], ha⟩
  · simp only [FilesTx.apply, Table.get_put] at hr hr'
    split_ifs at hr hr' with h1 h2
    · rw [h1, h2]
    · cases hr
      rw [h1]
      exact (hi.intact.mirror_unique j mirrorId r' oldMirror hr' h.mirrorRow hf' h.isMirror.1
        (by rw [← he, hmid, h.isMirror.2])).symm
    · rename_i h2
      cases hr'
      rw [h2]
      exact hi.intact.mirror_unique i mirrorId r oldMirror hr h.mirrorRow hf h.isMirror.1
        (by rw [he, hmid, h.isMirror.2])
    · exact hi.intact.mirror_unique i j r r' hr hr' hf hf' he

/-! ## Permanent deletion -/

theorem dropRef_eq_self {deleted : List ℕ} {ref : Option ℕ} (h : ∀ p, ref = some p → p ∉ deleted) :
    dropRef deleted ref = ref := by
  cases ref with
  | none => rfl
  | some p => simp [dropRef, h p rfl]

theorem dropRef_of_not_any {deleted : List ℕ} {ref : Option ℕ}
    (h : ¬ (ref.any fun p => decide (p ∈ deleted)) = true) : dropRef deleted ref = ref :=
  dropRef_eq_self fun p hp hm => h (by simp [hp, hm])

section Cascades

variable {db : Db} {folders files : List ℕ}

theorem Db.get_dropFiles_link {l : ℕ} (h : LockKey.link l ∉ db.cascades folders files) :
    (db.dropFiles files).shareLinks.get l = db.shareLinks.get l := by
  have hl : l ∉ db.linksOf files := fun hm => h (List.mem_append_left _ (List.mem_map_of_mem hm))
  simp only [Db.dropFiles, Table.get_eraseAll, if_neg hl]

/-- A session that the cascade leaves alone. -/
theorem Db.session_not_cascade {s : ℕ} {r : UploadSession}
    (h : LockKey.session s ∉ db.cascades folders files) (hr : db.uploadSessions.get s = some r) :
    dropRef folders r.parentId = r.parentId ∧
      dropRef folders r.shareRootFolderId = r.shareRootFolderId ∧
      dropRef (db.linksOf files) r.shareLinkId = r.shareLinkId := by
  have hm : ¬ (r.parentId.any (· ∈ folders) || r.shareRootFolderId.any (· ∈ folders) ||
      r.shareLinkId.any (· ∈ db.linksOf files)) = true := fun hm =>
    h (List.mem_append_right _ (List.mem_map_of_mem (Table.mem_select.mpr ⟨r, hr, hm⟩)))
  simp only [Bool.or_eq_true, not_or] at hm
  exact ⟨dropRef_of_not_any hm.1.1, dropRef_of_not_any hm.1.2, dropRef_of_not_any hm.2⟩

theorem Db.get_dropFiles_session {s : ℕ} (h : LockKey.session s ∉ db.cascades folders files) :
    (db.dropFiles files).uploadSessions.get s = db.uploadSessions.get s := by
  simp only [Db.dropFiles, Table.get_map]
  cases hr : db.uploadSessions.get s with
  | none => rfl
  | some r => rw [Option.map_some, (Db.session_not_cascade h hr).2.2]

theorem Db.get_dropFolders_session {s : ℕ} (h : LockKey.session s ∉ db.cascades folders files) :
    ((db.dropFiles files).dropFolders folders).uploadSessions.get s = db.uploadSessions.get s := by
  simp only [Db.dropFolders, Table.get_map, Db.get_dropFiles_session h]
  cases hr : db.uploadSessions.get s with
  | none => rfl
  | some r =>
    obtain ⟨hp, hroot, -⟩ := Db.session_not_cascade h hr
    rw [Option.map_some, hp, hroot]

/-- Deletions only change references of receipts and sessions. -/
theorem Db.keepsReceipts_deleted {t : ℕ} {w : World} :
    KeepsReceipts t w ((w.db.dropFiles files).dropFolders folders).publicShareOperations := by
  intro i r' l hr' hs _
  obtain ⟨r₁, hr₁, rfl⟩ := Option.map_eq_some_iff.mp hr'
  obtain ⟨r, hr, rfl⟩ := Option.map_eq_some_iff.mp hr₁
  refine ⟨r, hr, ⟨?_, rfl, rfl, rfl⟩⟩
  exact (hs.trans (Option.filter_eq_some_iff.mp hs).1.symm)

theorem Db.keepsReceipts_dropFiles {t : ℕ} {w : World} :
    KeepsReceipts t w (w.db.dropFiles files).publicShareOperations := by
  intro i r' l hr' hs _
  obtain ⟨r, hr, rfl⟩ := Option.map_eq_some_iff.mp hr'
  refine ⟨r, hr, ⟨?_, rfl, rfl, rfl⟩⟩
  exact (hs.trans (Option.filter_eq_some_iff.mp hs).1.symm)

/-- What is left of a reference is the reference or nothing. -/
theorem dropRef_eq (deleted : List ℕ) (ref : Option ℕ) :
    dropRef deleted ref = ref ∨ dropRef deleted ref = none := by
  cases h : dropRef deleted ref with
  | none => exact .inr rfl
  | some p => exact .inl (Option.filter_eq_some_iff.mp h).1.symm

theorem Db.unmoved_dropFiles {s : ℕ} {q' : UploadSession}
    (h : (db.dropFiles files).uploadSessions.get s = some q') :
    ∃ q, db.uploadSessions.get s = some q ∧ q.Unmoved q' := by
  obtain ⟨q, hq, rfl⟩ := Option.map_eq_some_iff.mp h
  exact ⟨q, hq, ⟨⟨rfl, rfl, rfl, rfl, rfl, rfl, rfl, rfl, rfl⟩, rfl, rfl, rfl, rfl, rfl, .inl rfl⟩⟩

theorem Db.unmoved_deleted {s : ℕ} {q' : UploadSession}
    (h : ((db.dropFiles files).dropFolders folders).uploadSessions.get s = some q') :
    ∃ q, db.uploadSessions.get s = some q ∧ q.Unmoved q' := by
  obtain ⟨q₁, hq₁, rfl⟩ := Option.map_eq_some_iff.mp h
  obtain ⟨q, hq, rfl⟩ := Option.map_eq_some_iff.mp hq₁
  exact ⟨q, hq, ⟨⟨rfl, rfl, rfl, rfl, rfl, rfl, rfl, rfl, rfl⟩, rfl, rfl, rfl, rfl, rfl,
    dropRef_eq ..⟩⟩

end Cascades

/-- A row that another has locked is not changed by cascade, because the deletion waits for it. -/
theorem World.not_cascade {w : World} {t : ℕ} {tx : Tx} {k : LockKey} (h : w.waits tx t = false)
    (hl : w.locks k ≠ some t) (hl' : w.locks k ≠ none) : k ∉ tx.cascades w.db := by
  intro hm
  have := List.any_eq_false.mp h k (List.mem_append_left _ hm)
  simp [hl, hl'] at this

theorem DeleteFileOk.respects {t : ℕ} {w : World} {id u bytes : ℕ} {old : File}
    (h : DeleteFileOk t w id u bytes old) (hi : Inv w)
    (hw : w.waits (.files (.deleteFile id u bytes)) t = false) :
    Respects t w ((FilesTx.deleteFile id u bytes).apply w.db)
      ((FilesTx.deleteFile id u bytes).entered w.db) := by
  have hrow : ∀ {i r}, (w.db.dropFiles [id]).files.get i = some r ↔
      i ≠ id ∧ w.db.files.get i = some r := by
    intro i r
    simp only [Db.dropFiles, Table.get_eraseAll, List.mem_singleton]
    by_cases hid : i = id <;> simp [hid]
  have hsessions : KeepsSessions t w (w.db.dropFiles [id]).uploadSessions :=
    .of_unmoved le_rfl fun _ _ => Db.unmoved_dropFiles
  have herase : Respects t w (w.db.dropFiles [id]) [] :=
    { rows := fun k x hl hl' hx => by
        have hc := World.not_cascade hw hl hl'
        cases k with
        | file i =>
          obtain ⟨r, hr, rfl⟩ := Option.map_eq_some_iff.mp hx
          have hne : i ≠ id := fun he => hl (he ▸ h.locked)
          exact row_file.mpr (hrow.mpr ⟨hne, hr⟩)
        | link l => simpa only [Db.row, Db.get_dropFiles_link hc] using hx
        | session s => simpa only [Db.row, Db.get_dropFiles_session hc] using hx
        | _ => exact hx
      tree := fun u _ f r _ => Iff.rfl
      objects := fun u hl i r hu hr => by
        have hne : i ≠ id := fun he => by
          subst he
          cases hr.symm.trans h.row
          exact hl (hu ▸ h.owner ▸ h.refunded.locked)
        exact ⟨r, hrow.mpr ⟨hne, hr⟩, .refl r⟩
      same := fun i r r' hr hr' => hi.seen_same hr (hrow.mp hr').2
      placed := fun i r hr => hi.placed (hrow.mp hr).2
      files_bound := le_refl w.db.files.bound
      grows := ⟨fun _ hu => hu, .refl _, .refl _, hsessions.issued⟩
      sessions := hsessions
      receipts := Db.keepsReceipts_dropFiles
      named := fun k e n hn => by
        left
        cases e with
        | folder f => exact hn
        | file i =>
          obtain ⟨r, hr, hs⟩ := Option.bind_eq_some_iff.mp hn
          exact Option.bind_eq_some_iff.mpr ⟨r, (hrow.mp hr).2, hs⟩
      intact :=
        { folder_parent := hi.intact.folder_parent
          file_parent := fun i r p hr hp => hi.intact.file_parent i r p (hrow.mp hr).2 hp
          plain := fun i r hr hf => hi.intact.plain i r (hrow.mp hr).2 hf
          mirror := fun i r hr hf => hi.intact.mirror i r (hrow.mp hr).2 hf
          mirror_unique := fun i j r r' hr hr' =>
            hi.intact.mirror_unique i j r r' (hrow.mp hr).2 (hrow.mp hr').2 } }
  exact herase.charge fun _ => h.refunded.locked

section DeleteTree

variable {t : ℕ} {w : World} {view : Db} {u : ℕ} {folders files mirrors : List ℕ} {bytes : ℕ}

/-- The crosscheck finds no new child of a deleted folder, so every child folder is deleted. -/
theorem DeleteTreeOk.folder_mem (h : DeleteTreeOk t w view u folders files mirrors bytes)
    (hi : Inv w) (ha : w.db.crosscheck view folders (files ++ mirrors) = true) {f p : ℕ}
    {r : Folder} (hr : w.db.folders.get f = some r) (hp : r.parentId = some p) (hm : p ∈ folders) :
    f ∈ folders := by
  by_contra hf
  simp only [Db.crosscheck, Bool.and_eq_true, List.all_eq_true] at ha
  have hseen := ha.1 f (Table.mem_select.mpr ⟨r, hr, by simp [hf, hp, hm]⟩)
  have hu : r.userId = u := by
    obtain ⟨q, hq, hqu⟩ := hi.intact.folder_parent f r p hr hp
    obtain ⟨-, q', hq', hu'⟩ := h.folders_row p hm
    cases hq.symm.trans hq'
    exact hqu.symm.trans hu'
  exact hf (h.folders_closed f r (by rw [← of_decide_eq_true hseen, hr]) hu ⟨p, hm, hp⟩)

/-- Every row in a deleted folder is deleted: files are in the snapshot, mirrors go with their
folders. -/
theorem DeleteTreeOk.file_mem (h : DeleteTreeOk t w view u folders files mirrors bytes)
    (hi : Inv w) (ha : w.db.crosscheck view folders (files ++ mirrors) = true) {i p : ℕ}
    {r : File} (hr : w.db.files.get i = some r) (hp : r.parentId = some p) (hm : p ∈ folders) :
    i ∈ files ++ mirrors := by
  cases hf : r.isFolder with
  | false =>
    by_contra hn
    have hc := ha
    simp only [Db.crosscheck, Bool.and_eq_true, List.all_eq_true] at hc
    have hseen := hc.2 i (Table.mem_select.mpr ⟨r, hr, by simp [hn, hp, hm]⟩)
    have hu : r.userId = u := by
      obtain ⟨q, hq, hqu⟩ := hi.intact.file_parent i r p hr hp
      obtain ⟨-, q', hq', hu'⟩ := h.folders_row p hm
      cases hq.symm.trans hq'
      exact hqu.symm.trans hu'
    exact hn (List.mem_append_left _ (h.files_closed i r (by rw [← of_decide_eq_true hseen, hr])
      hu hf ⟨p, hm, hp⟩))
  | true =>
    obtain ⟨f, q, hid, hq, -, -, hqp, -⟩ := hi.intact.mirror i r hr hf
    have hfm : f ∈ folders := h.folder_mem hi ha hq (hqp.trans hp) hm
    obtain ⟨j, hj, r', hr', hid'⟩ := h.mirrored f hfm
    obtain ⟨-, r'', f', hr'', -, hf'', -, -⟩ := h.mirrors_row j hj
    cases hr'.symm.trans hr''
    have := hi.intact.mirror_unique i j r r' hr hr' hf hf'' (by rw [hid, hid'])
    exact List.mem_append_right _ (this ▸ hj)

/-- Every mirror of a deleted folder is deleted. -/
theorem DeleteTreeOk.mirror_mem (h : DeleteTreeOk t w view u folders files mirrors bytes)
    (hi : Inv w) {i f : ℕ} {r : File} (hr : w.db.files.get i = some r)
    (hid : r.folderId = some f) (hm : f ∈ folders) : i ∈ files ++ mirrors := by
  have hf : r.isFolder = true := by
    by_contra hf
    rw [hi.intact.plain i r hr (by simpa using hf)] at hid
    cases hid
  obtain ⟨j, hj, r', hr', hid'⟩ := h.mirrored f hm
  obtain ⟨-, r'', -, hr'', -, hf'', -, -⟩ := h.mirrors_row j hj
  cases hr'.symm.trans hr''
  exact List.mem_append_right _ (hi.intact.mirror_unique i j r r' hr hr' hf hf'' (by rw [hid, hid']) ▸ hj)

/-- **Nothing that stays refers to a deleted folder**, so nothing is set to null. -/
theorem DeleteTreeOk.get_folders (h : DeleteTreeOk t w view u folders files mirrors bytes)
    (hi : Inv w) (ha : w.db.crosscheck view folders (files ++ mirrors) = true) (f : ℕ) :
    ((FilesTx.deleteTree view u folders files mirrors bytes).apply w.db).folders.get f =
      if f ∈ folders then none else w.db.folders.get f := by
  simp only [FilesTx.apply, Db.charge_folders, Db.dropFolders, Db.dropFiles, Table.get_map, Table.get_eraseAll]
  split_ifs with hf
  · rfl
  · cases hr : w.db.folders.get f with
    | none => rfl
    | some r =>
      rw [Option.map_some, dropRef_eq_self fun p hp hm => hf (h.folder_mem hi ha hr hp hm)]

theorem DeleteTreeOk.get_files (h : DeleteTreeOk t w view u folders files mirrors bytes)
    (hi : Inv w) (ha : w.db.crosscheck view folders (files ++ mirrors) = true) (i : ℕ) :
    ((FilesTx.deleteTree view u folders files mirrors bytes).apply w.db).files.get i =
      if i ∈ files ++ mirrors then none else w.db.files.get i := by
  simp only [FilesTx.apply, Db.charge_files, Db.dropFolders, Db.dropFiles, Table.get_map, Table.get_eraseAll]
  by_cases hf : i ∈ files ++ mirrors
  · rw [if_pos hf]
    rfl
  · rw [if_neg hf]
    cases hr : w.db.files.get i with
    | none => rfl
    | some r =>
      rw [Option.map_some, dropRef_eq_self fun p hp hm => hf (h.file_mem hi ha hr hp hm),
        dropRef_eq_self fun p hp hm => hf (h.mirror_mem hi hr hp hm)]

theorem DeleteTreeOk.respects (h : DeleteTreeOk t w view u folders files mirrors bytes)
    (hi : Inv w) (ha : w.db.crosscheck view folders (files ++ mirrors) = true)
    (hw : w.waits (.files (.deleteTree view u folders files mirrors bytes)) t = false) :
    Respects t w ((FilesTx.deleteTree view u folders files mirrors bytes).apply w.db)
      ((FilesTx.deleteTree view u folders files mirrors bytes).entered w.db) := by
  set db' := (FilesTx.deleteTree view u folders files mirrors bytes).apply w.db with hdb
  have hfolder : ∀ {f r}, db'.folders.get f = some r ↔ f ∉ folders ∧ w.db.folders.get f = some r := by
    intro f r
    rw [hdb, h.get_folders hi ha]
    split_ifs with hf <;> simp [hf]
  have hfile : ∀ {i r}, db'.files.get i = some r ↔
      i ∉ files ++ mirrors ∧ w.db.files.get i = some r := by
    intro i r
    rw [hdb, h.get_files hi ha]
    by_cases hf : i ∈ files ++ mirrors
    · simp [hf]
    · simp [hf]
  have hlocked : ∀ i ∈ files ++ mirrors, w.locks (.file i) = some t ∧
      ∃ r, w.db.files.get i = some r ∧ r.userId = u := by
    intro i him
    rcases List.mem_append.mp him with hm | hm
    · obtain ⟨hl, r, hr, hu, -⟩ := h.files_row i hm
      exact ⟨hl, r, hr, hu⟩
    · obtain ⟨hl, r, f, hr, hu, -⟩ := h.mirrors_row i hm
      exact ⟨hl, r, hr, hu⟩
  have husers : db'.users = (w.db.charge u (-(bytes : ℤ))).users := rfl
  have hsessions : KeepsSessions t w db'.uploadSessions :=
    .of_unmoved le_rfl fun _ _ => Db.unmoved_deleted
  exact
    { rows := fun k x hl hl' hx => by
        have hc := World.not_cascade hw hl hl'
        cases k with
        | user v =>
          have hv : v ≠ u := fun hv => hl (hv ▸ h.refunded.locked)
          simpa only [Db.row, husers, Db.charge_users_ne _ _ _ hv] using hx
        | folder f =>
          obtain ⟨r, hr, rfl⟩ := Option.map_eq_some_iff.mp hx
          exact row_folder.mpr (hfolder.mpr ⟨fun hm => hl (h.folders_row f hm).1, hr⟩)
        | file i =>
          obtain ⟨r, hr, rfl⟩ := Option.map_eq_some_iff.mp hx
          exact row_file.mpr (hfile.mpr ⟨fun hm => hl (hlocked i hm).1, hr⟩)
        | link l => exact (congrArg (Option.map Row.link) (Db.get_dropFiles_link hc)).trans hx
        | token i => exact hx
        | session s => exact (congrArg (Option.map Row.session) (Db.get_dropFolders_session hc)).trans hx
        | operation i => exact hx
      tree := fun v hl f r hv => by
        rw [hfolder]
        refine ⟨fun hr => ⟨fun hm => ?_, hr⟩, fun hr => hr.2⟩
        obtain ⟨-, r', hr', hu'⟩ := h.folders_row f hm
        cases hr.symm.trans hr'
        exact hl (hv ▸ hu' ▸ h.refunded.locked)
      objects := fun v hl i r hv hr => by
        refine ⟨r, hfile.mpr ⟨fun hm => ?_, hr⟩, .refl r⟩
        obtain ⟨-, r', hr', hu'⟩ := hlocked i hm
        cases hr.symm.trans hr'
        exact hl (hv ▸ hu' ▸ h.refunded.locked)
      same := fun i r r' hr hr' => hi.seen_same hr (hfile.mp hr').2
      placed := fun i r hr => hi.placed (hfile.mp hr).2
      files_bound := le_refl w.db.files.bound
      grows := ⟨fun v hv => by
        rw [husers, Db.charge_users_isSome]
        exact hv, ⟨le_refl w.db.folders.bound, fun f r' _ hr => ⟨r', (hfolder.mp hr).2, rfl⟩⟩,
        .refl _, hsessions.issued⟩
      sessions := hsessions
      receipts := Db.keepsReceipts_deleted
      named := fun k e n hn => by
        left
        cases e with
        | file i =>
          obtain ⟨r, hr, hs⟩ := Option.bind_eq_some_iff.mp hn
          exact Option.bind_eq_some_iff.mpr ⟨r, (hfile.mp hr).2, hs⟩
        | folder f =>
          obtain ⟨r, hr, hs⟩ := Option.bind_eq_some_iff.mp hn
          exact Option.bind_eq_some_iff.mpr ⟨r, (hfolder.mp hr).2, hs⟩
      intact :=
        { folder_parent := fun f r p hr hp => by
            obtain ⟨hf, hr⟩ := hfolder.mp hr
            obtain ⟨q, hq, hu⟩ := hi.intact.folder_parent f r p hr hp
            exact ⟨q, hfolder.mpr ⟨fun hm => hf (h.folder_mem hi ha hr hp hm), hq⟩, hu⟩
          file_parent := fun i r p hr hp => by
            obtain ⟨hn, hr⟩ := hfile.mp hr
            obtain ⟨q, hq, hu⟩ := hi.intact.file_parent i r p hr hp
            exact ⟨q, hfolder.mpr ⟨fun hm => hn (h.file_mem hi ha hr hp hm), hq⟩, hu⟩
          plain := fun i r hr hf => hi.intact.plain i r (hfile.mp hr).2 hf
          mirror := fun i r hr hf => by
            obtain ⟨hn, hr⟩ := hfile.mp hr
            obtain ⟨f, q, hid, hq, hagree⟩ := hi.intact.mirror i r hr hf
            exact ⟨f, q, hid, hfolder.mpr ⟨fun hm => hn (h.mirror_mem hi hr hid hm), hq⟩, hagree⟩
          mirror_unique := fun i j r r' hr hr' =>
            hi.intact.mirror_unique i j r r' (hfile.mp hr).2 (hfile.mp hr').2 } }

end DeleteTree

/-! ## All writes -/

/-- **The writes of the file operations respect locks, owners and mirrors.** -/
theorem FilesTx.Ok.respects {t : ℕ} {w : World} {tx : FilesTx} (h : tx.Ok t w) (hi : Inv w)
    (ha : tx.allowed w.db = true) (hw : w.waits (.files tx) t = false) :
    Respects t w (tx.apply w.db) (tx.entered w.db) := by
  cases tx with
  | addFile file c => exact h.1.respects hi
  | addFolder folder receipt c =>
    refine h.1.respects (fun r hr => ?_) hi
    obtain ⟨l, root, p, ho⟩ := h.2 r hr
    exact ⟨l, ho.receipt⟩
  | placeFile id file choice =>
    obtain ⟨old, h⟩ := h
    exact h.respects hi
  | setFolder id mirrorId folder mirror choice =>
    obtain ⟨old, oldMirror, h⟩ := h
    exact h.respects hi
  | trashFile id patch =>
    obtain ⟨old, h⟩ := h
    exact h.respects hi ha
  | reinsertFile id file => exact ReinsertFileOk.respects h hi ha
  | deleteFile id u bytes =>
    obtain ⟨old, h⟩ := h
    exact h.respects hi hw
  | deleteTree view u folders files mirrors bytes => exact DeleteTreeOk.respects h hi ha hw

/-! ## Live paths -/

/-- **The live folders of a locked user stay.** -/
theorem Keeps.live {t : ℕ} {w w' : World} (h : Keeps t w w') (hi : Intact w'.db) {u : ℕ}
    (hl : w.locks (.user u) = some t) (f : ℕ) (r : Folder) (hr : w.db.folders.get f = some r)
    (hlive : w.db.liveFolder u f r = true) :
    w'.db.folders.get f = some r ∧ w'.db.liveFolder u f r = true := by
  simp only [Db.liveFolder, Bool.and_eq_true, decide_eq_true_eq, Bool.not_eq_true'] at hlive ⊢
  obtain ⟨⟨hu, hd⟩, hm⟩ := hlive
  have hr' := (h.tree u hl f r hu).mp hr
  refine ⟨hr', ⟨hu, hd⟩, ?_⟩
  obtain ⟨⟨i, m⟩, hfind⟩ := Option.isSome_iff_exists.mp hm
  obtain ⟨hmi, hmp⟩ := Table.find_some hfind
  simp only [Bool.and_eq_true, decide_eq_true_eq, Bool.not_eq_true'] at hmp
  obtain ⟨⟨⟨hid, hmu⟩, hmf⟩, -⟩ := hmp
  obtain ⟨m', hm', hsame⟩ := h.objects u hl i m hmu hmi
  -- The mirror agrees with its folder, which is live.
  obtain ⟨f', q, hid', hq, -, -, -, hqd⟩ := hi.mirror i m' hm' (hsame.isFolder.trans hmf)
  cases (hsame.folderId.trans hid).symm.trans hid'
  cases hr'.symm.trans hq
  by_contra hn
  have hnone := Table.find_none (Option.not_isSome_iff_eq_none.mp hn) hm'
  simp [hsame.folderId.trans hid, hsame.userId.trans hmu, hsame.isFolder.trans hmf,
    hqd.symm.trans hd] at hnone

end HomeCloud
