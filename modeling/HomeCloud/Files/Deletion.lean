import HomeCloud.Files.Copying
import HomeCloud.Files.Service

/-!
# Permanent deletion

One call of `deleteFolderPermanently` or `emptyTrash`, in which any step may fail, and the objects after its COMMIT.

* `deleteFolderPermanently`, `emptyTrash`: the calls, with every state of the store after their COMMIT.
* `Within`: the folders of a user below some roots; `Doomed`: what is to be deleted with them.
* `Removed`: exactly that is gone.
* **`deletion_exact`**.
-/

namespace HomeCloud

open Concurrent Faults

namespace Deletion

open Copying (Store)

/-! ## What may fail -/

/-- The steps of a call, without its COMMIT and without the objects. -/
inductive Step where
  | connect
  | begin
  | lockUser
  | folder
  | descendants
  | lockFolders
  | trashed
  | files
  | mirrors
  | decrement
  | deleteFiles
  | deleteFolders
  deriving DecidableEq

/-- What becomes of a COMMIT: it takes effect and is acknowledged, it is refused, or it takes effect and the
connection is lost. -/
inductive Outcome where
  | acknowledged
  | refused
  | unacknowledged
  deriving DecidableEq

/-- The steps that fail, what becomes of the COMMIT, and the objects that cannot be unlinked. -/
structure Env where
  fails : Step → Bool
  outcome : Outcome
  unlinkFails : Placement → Bool

/-! ## The calls -/

section Calls

variable (env : Env) (S : Store) (userId : ℕ)

/-- A statement on the database. -/
def Env.statement (step : Step) : Except Err Unit := attempt env.fails step (.database .connectionLost)

/-- The deletion of the rows, if there are any. -/
def Env.deletion (step : Step) (ids : List ℕ) : Except Err Unit := if ids = [] then .ok () else env.statement step

/-- The sum of the sizes, from `total` on. -/
def sumFileSizes (db : Db) : List ℕ → ℕ → Except Err ℕ
  | [], total => .ok total
  | i :: is, total => do
    let size ← Copying.parseDatabaseSize "Invalid file size metadata" ((db.files.get i).elim 0 fun r => r.size)
    let nextTotal ← Copying.parseDatabaseSize "Invalid file size metadata" (total + size)
    sumFileSizes db is nextTotal

def decrementStorageUsed (bytes : ℕ) : Except Err Unit :=
  if bytes = 0 then .ok ()
  else do
    env.statement .decrement
    let user ← found (.notFound "User not found") (S.db.users.get userId)
    check (.badRequest "Storage used would go negative — data inconsistency detected") (bytes ≤ user.storageUsed)

/-- The folder with all below it. -/
def descendants (id : ℕ) : List ℕ := S.db.descendants (·.userId = userId) fun r i => i = id && r.userId = userId

/-- The trashed folders with all below them. -/
def trashFolders : List ℕ := S.db.descendants (·.userId = userId) fun r _ => r.userId = userId && r.isDeleted

def lockFolders (message : String) (folderIds : List ℕ) : Except Err Unit := do
  env.statement .lockFolders
  let locked := S.db.folders.select fun i r => i ∈ folderIds && r.userId = userId
  check (.notFound message) (locked.length = folderIds.length)

/-- The ordinary files in the folders. -/
def filesIn (folderIds : List ℕ) : List ℕ :=
  S.db.files.select fun _ r => r.userId = userId && !r.isFolder && r.parentId.any (· ∈ folderIds)

def findMirrors (folderIds : List ℕ) : Except Err (List ℕ) := do
  env.statement .mirrors
  let mirrors := S.db.mirrorsOf userId folderIds
  check (.notFound "Folder mirror not found") (S.db.mirrored folderIds mirrors)
  return mirrors

/-- The charge and the deletions: what the transaction writes. -/
def deleteRows (folderIds files mirrors : List ℕ) : Except Err FilesTx := do
  let totalSize ← sumFileSizes S.db files 0
  decrementStorageUsed env S userId totalSize
  env.deletion .deleteFiles (files ++ mirrors)
  env.deletion .deleteFolders folderIds
  return .deleteTree S.db userId folderIds files mirrors totalSize

/-- The start of the transaction. -/
def startTransaction : Except Err Unit := do
  env.statement .connect
  env.statement .begin
  env.statement .lockUser

/-- The transaction of `deleteFolderPermanently`: the files whose objects are removed, and what it writes. -/
def deleteFolder (id : ℕ) : Except Err (List ℕ × FilesTx) := do
  startTransaction env
  env.statement .folder
  let _ ← found (.notFound "Folder not found") ((S.db.folders.get id).filter (·.userId = userId))
  env.statement .descendants
  let folderIds := descendants S userId id
  lockFolders env S userId "Folder subtree is inconsistent" folderIds
  env.statement .files
  let files := filesIn S userId folderIds
  let mirrors ← findMirrors env S userId folderIds
  let tx ← deleteRows env S userId folderIds files mirrors
  return (files, tx)

def lockTrashFolders (folderIds : List ℕ) : Except Err Unit :=
  if folderIds = [] then .ok () else lockFolders env S userId "Trash folder subtree is inconsistent" folderIds

/-- What `emptyTrash` finds in the trashed folders. -/
def findInFolders (folderIds : List ℕ) : Except Err (List ℕ × List ℕ) :=
  if folderIds = [] then .ok ([], [])
  else do
    env.statement .files
    let files := filesIn S userId folderIds
    let mirrors ← findMirrors env S userId folderIds
    return (files, mirrors)

/-- The transaction of `emptyTrash`. The files are put into a map by their numbers. -/
def deleteTrash : Except Err (List ℕ × FilesTx) := do
  startTransaction env
  env.statement .descendants
  let folderIds := trashFolders S userId
  lockTrashFolders env S userId folderIds
  env.statement .trashed
  let directlyTrashed := S.db.files.select fun _ r => r.userId = userId && r.isDeleted && !r.isFolder
  let (folderFiles, mirrors) ← findInFolders env S userId folderIds
  let files := directlyTrashed ++ folderFiles.filter (· ∉ directlyTrashed)
  let tx ← deleteRows env S userId folderIds files mirrors
  return (files, tx)

/-- The objects of the files are unlinked one after the other; each state after that. -/
def unlinkAll (db : Db) : List ℕ → Store → List Store
  | [], _ => []
  | i :: is, S =>
    match (db.files.get i).bind (·.placement) with
    | some p =>
      if env.unlinkFails p then unlinkAll db is S
      else { S with objects := setAt S.objects p none } :: unlinkAll db is { S with objects := setAt S.objects p none }
    | none => unlinkAll db is S

/-- What a call returns, and the states that it passes. -/
def finish : Except Err (List ℕ × FilesTx) → Except Err Unit × List Store
  | .error e => (.error e, [])
  | .ok (files, tx) =>
    let S' : Store := { S with db := tx.apply S.db }
    match env.outcome with
    | .acknowledged => (.ok (), S' :: unlinkAll env S.db files S')
    | .refused => (.error (.database .connectionLost), [])
    | .unacknowledged => (.error (.database .connectionLost), [S'])

def deleteFolderPermanently (id : ℕ) : Except Err Unit × List Store := finish env S (deleteFolder env S userId id)

def emptyTrash : Except Err Unit × List Store := finish env S (deleteTrash env S userId)

end Calls

/-! ## What is to be deleted -/

section Spec

/-- The folders of a user that are among the roots, or below one of them. -/
inductive Within (db : Db) (userId : ℕ) (root : ℕ → Folder → Prop) : ℕ → Prop
  | root {i : ℕ} {r : Folder} (hr : db.folders.get i = some r) (howner : r.userId = userId) (h : root i r) :
    Within db userId root i
  | child {i p : ℕ} {r : Folder} (hr : db.folders.get i = some r) (howner : r.userId = userId)
    (hparent : r.parentId = some p) (h : Within db userId root p) : Within db userId root i

variable (db : Db) (userId : ℕ) (folders : ℕ → Prop) (trashed : Bool)

/-- An ordinary file of the user in one of the folders, or in the trash. -/
def DoomedFile (i : ℕ) : Prop :=
  ∃ r, db.files.get i = some r ∧ r.userId = userId ∧ r.isFolder = false ∧
    (trashed = true ∧ r.isDeleted = true ∨ ∃ p, r.parentId = some p ∧ folders p)

/-- The mirror of one of the folders. -/
def DoomedMirror (i : ℕ) : Prop :=
  ∃ r, db.files.get i = some r ∧ r.userId = userId ∧ r.isFolder = true ∧ ∃ f, r.folderId = some f ∧ folders f

/-- A reference as it was, or to one of the folders and set to null. -/
def Detached (ref ref' : Option ℕ) : Prop := ref' = ref ∨ ref' = none ∧ ∃ p, ref = some p ∧ folders p

/-- The bytes of the files. -/
def totalSize (ids : List ℕ) : ℕ := (ids.map fun i => (db.files.get i).elim 0 fun r => r.size).sum

/-- **Exactly the rows are gone**, the rows that are left only lose references to the folders, and every file that is
gone is taken once off the usage. -/
structure Removed (db' : Db) : Prop where
  foldersGone : ∀ i, folders i → db'.folders.get i = none
  foldersKept : ∀ i r, ¬folders i → db.folders.get i = some r →
    ∃ parentId, Detached folders r.parentId parentId ∧ db'.folders.get i = some { r with parentId := parentId }
  filesGone : ∀ i, DoomedFile db userId folders trashed i ∨ DoomedMirror db userId folders i → db'.files.get i = none
  filesKept : ∀ i r, ¬DoomedFile db userId folders trashed i → ¬DoomedMirror db userId folders i →
    db.files.get i = some r → ∃ parentId folderId, Detached folders r.parentId parentId ∧
      Detached folders r.folderId folderId ∧ db'.files.get i = some { r with parentId := parentId, folderId := folderId }
  nothingNew : ∀ i, (db.folders.get i = none → db'.folders.get i = none) ∧ (db.files.get i = none → db'.files.get i = none)
  usage : ∃ ids : List ℕ, ids.Nodup ∧ (∀ i, i ∈ ids ↔ DoomedFile db userId folders trashed i) ∧
    ∀ u, db'.users.get u = (db.users.get u).map fun r =>
      if u = userId then { r with storageUsed := r.storageUsed - totalSize db ids } else r

/-- An object is as it was, or it is gone and was that of a file that is gone. -/
def ObjectsKept (S S' : Store) (doomed : ℕ → Prop) : Prop :=
  ∀ p, S'.objects p = S.objects p ∨
    S'.objects p = none ∧ ∃ i r, doomed i ∧ S.db.files.get i = some r ∧ r.placement = some p

/-- **A call deletes exactly.** Every state that it passes has exactly the rows removed, and no other objects; the first
one has all objects. If it fails, it passes no state, unless the COMMIT took effect unacknowledged; else it passes one. -/
structure Exact (env : Env) (S : Store) (userId : ℕ) (root : ℕ → Folder → Prop) (trashed : Bool)
    (result : Except Err Unit × List Store) : Prop where
  passed : ∀ S' ∈ result.2, Removed S.db userId (Within S.db userId root) trashed S'.db ∧
    ObjectsKept S S' (DoomedFile S.db userId (Within S.db userId root) trashed)
  committed : ∀ S' ∈ result.2.head?, S'.objects = S.objects
  failed : ∀ e, result.1 = .error e → result.2.tail = [] ∧ (env.outcome ≠ .unacknowledged → result.2 = [])
  done : result.1 = .ok () → result.2 ≠ []

/-- Nothing stands in the way of a call: no step fails, every folder has one mirror, and the usage covers the files. -/
structure Ready (env : Env) (S : Store) (userId : ℕ) (root : ℕ → Folder → Prop) (trashed : Bool) : Prop where
  steps : ∀ step, env.fails step = false
  outcome : env.outcome = .acknowledged
  mirrors : ∀ f, Within S.db userId root f →
    ∃! i, ∃ r, S.db.files.get i = some r ∧ r.userId = userId ∧ r.isFolder = true ∧ r.folderId = some f
  usage : ∃ ids : List ℕ, ids.Nodup ∧ (∀ i, i ∈ ids ↔ DoomedFile S.db userId (Within S.db userId root) trashed i) ∧
    totalSize S.db ids ≤ 9007199254740991 ∧
    ∃ user, S.db.users.get userId = some user ∧ totalSize S.db ids ≤ user.storageUsed

end Spec

/-! ## Folders below the roots -/

section Folders

variable {db : Db} {userId : ℕ} {roots : Folder → ℕ → Bool} {root : ℕ → Folder → Prop}

/-- **The folders that a call collects** are those of the user within the roots. -/
theorem mem_descendants_iff (hroots : ∀ i r, roots r i = true ↔ r.userId = userId ∧ root i r) {i : ℕ} :
    i ∈ db.descendants (·.userId = userId) roots ↔ Within db userId root i := by
  constructor
  · have hall : ∀ i ∈ db.descendants (·.userId = userId) roots, Within db userId root i := by
      refine saturate_of_step (P := fun ids => ∀ i ∈ ids, Within db userId root i) (fun ids hids i hi => ?_) _
        fun i hi => ?_
      · obtain ⟨r, hr, h | ⟨howner, p, hp, hparent⟩⟩ := mem_childStep.mp hi
        · exact hids i h
        · exact .child hr (of_decide_eq_true howner) hparent (hids p hp)
      · obtain ⟨r, hr, hroot⟩ := Table.mem_select.mp hi
        obtain ⟨howner, h⟩ := (hroots i r).mp hroot
        exact .root hr howner h
    exact hall i
  · intro h
    induction h with
    | root hr howner h => exact Db.root_mem_descendants hr ((hroots _ _).mpr ⟨howner, h⟩)
    | child hr howner hparent _ ih => exact Db.mem_descendants_of_parent hr (decide_eq_true howner) hparent ih

/-- A folder within the roots is one of the user. -/
theorem Within.folder {i : ℕ} (h : Within db userId root i) : ∃ r, db.folders.get i = some r ∧ r.userId = userId := by
  cases h with
  | root hr howner => exact ⟨_, hr, howner⟩
  | child hr howner => exact ⟨_, hr, howner⟩

end Folders

/-! ## What is collected -/

section Collected

variable {S : Store} {userId : ℕ} {folders : ℕ → Prop} {folderIds : List ℕ}

theorem mem_filesIn (hfolders : ∀ i, i ∈ folderIds ↔ folders i) {i : ℕ} :
    i ∈ filesIn S userId folderIds ↔ DoomedFile S.db userId folders false i := by
  simp only [filesIn, Table.mem_select, DoomedFile, Bool.and_eq_true, decide_eq_true_eq, Bool.not_eq_true',
    Option.any_eq_true, hfolders, and_assoc, Bool.false_eq_true, false_and, false_or]

theorem mem_mirrorsOf (hfolders : ∀ i, i ∈ folderIds ↔ folders i) {i : ℕ} :
    i ∈ S.db.mirrorsOf userId folderIds ↔ DoomedMirror S.db userId folders i := by
  simp only [Db.mirrorsOf, Table.mem_select, DoomedMirror, Bool.and_eq_true, decide_eq_true_eq, Option.any_eq_true,
    hfolders, and_assoc]

/-- The files that `emptyTrash` puts into its map. -/
def trashFiles (S : Store) (userId : ℕ) (folderIds : List ℕ) : List ℕ :=
  S.db.files.select (fun _ r => r.userId = userId && r.isDeleted && !r.isFolder) ++
    (filesIn S userId folderIds).filter
      (· ∉ S.db.files.select fun _ r => r.userId = userId && r.isDeleted && !r.isFolder)

/-- **A file is in the map once**, also if it is in the trash and in a trashed folder. -/
theorem nodup_trashFiles : (trashFiles S userId folderIds).Nodup := by
  refine List.Nodup.append (Table.nodup_select _ _) ((Table.nodup_select _ _).filter _) fun i hi hi' => ?_
  exact of_decide_eq_true (List.mem_filter.mp hi').2 hi

theorem mem_trashFiles (hfolders : ∀ i, i ∈ folderIds ↔ folders i) {i : ℕ} :
    i ∈ trashFiles S userId folderIds ↔ DoomedFile S.db userId folders true i := by
  have hsplit : i ∈ trashFiles S userId folderIds ↔
      i ∈ S.db.files.select (fun _ r => r.userId = userId && r.isDeleted && !r.isFolder) ∨
        i ∈ filesIn S userId folderIds := by
    rw [trashFiles, List.mem_append, List.mem_filter, decide_eq_true_eq]
    tauto
  rw [hsplit, mem_filesIn hfolders, Table.mem_select]
  simp only [DoomedFile, Bool.and_eq_true, decide_eq_true_eq, Bool.not_eq_true', Bool.false_eq_true, false_and, false_or,
    true_and]
  constructor
  · rintro (⟨r, hr, ⟨howner, hdeleted⟩, hplain⟩ | ⟨r, hr, howner, hplain, hin⟩)
    · exact ⟨r, hr, howner, hplain, .inl hdeleted⟩
    · exact ⟨r, hr, howner, hplain, .inr hin⟩
  · rintro ⟨r, hr, howner, hplain, hdeleted | hin⟩
    · exact .inl ⟨r, hr, ⟨howner, hdeleted⟩, hplain⟩
    · exact .inr ⟨r, hr, howner, hplain, hin⟩

/-- All folders that were collected are locked. -/
theorem lockFolders_eq_ok {env : Env} {message : String} {u : Unit} (hnodup : folderIds.Nodup)
    (howned : ∀ i ∈ folderIds, ∃ r, S.db.folders.get i = some r ∧ r.userId = userId) :
    lockFolders env S userId message folderIds = .ok u ↔ env.fails .lockFolders = false := by
  have hlocked : (S.db.folders.select fun i r => i ∈ folderIds && r.userId = userId).length = folderIds.length := by
    refine List.Perm.length_eq ((List.perm_ext_iff_of_nodup (Table.nodup_select _ _) hnodup).mpr fun i => ?_)
    simp only [Table.mem_select, Bool.and_eq_true, decide_eq_true_eq]
    exact ⟨fun ⟨_, _, hi, _⟩ => hi, fun hi => (howned i hi).imp fun r hr => ⟨hr.1, hi, hr.2⟩⟩
  simp only [lockFolders, Env.statement, bind_eq_ok, attempt_eq_ok, check_eq_ok, decide_eq_true_eq, hlocked, and_true,
    Unique.exists_iff]

end Collected

/-! ## The sizes -/

section Sizes

variable {db : Db}

@[simp]
theorem totalSize_nil : totalSize db [] = 0 := rfl

theorem totalSize_cons (i : ℕ) (is : List ℕ) :
    totalSize db (i :: is) = (db.files.get i).elim 0 (fun r => r.size) + totalSize db is := by
  rw [totalSize, List.map_cons, List.sum_cons, totalSize]

/-- The bytes do not depend on the order. -/
theorem totalSize_perm {ids ids' : List ℕ} (h : ids.Perm ids') : totalSize db ids = totalSize db ids' :=
  (h.map _).sum_eq

/-- **The sum of the sizes**, if it is a safe integer. -/
theorem sumFileSizes_eq_ok {ids : List ℕ} {total n : ℕ} :
    sumFileSizes db ids total = .ok n ↔
      n = total + totalSize db ids ∧ (ids ≠ [] → total + totalSize db ids ≤ 9007199254740991) := by
  induction ids generalizing total with
  | nil =>
    rw [sumFileSizes, totalSize_nil, Nat.add_zero, Except.ok.injEq]
    exact ⟨fun h => ⟨h.symm, fun hne => absurd rfl hne⟩, fun h => h.1.symm⟩
  | cons i is ih =>
    simp only [sumFileSizes, bind_eq_ok, Copying.parseDatabaseSize_eq_ok, ih, totalSize_cons]
    generalize (db.files.get i).elim 0 (fun r => r.size) = size
    constructor
    · rintro ⟨s, ⟨hsize, rfl⟩, t, ⟨htotal, rfl⟩, rfl, hrest⟩
      refine ⟨by omega, fun _ => ?_⟩
      cases is with
      | nil =>
        rw [totalSize_nil]
        omega
      | cons j js =>
        have hbound := hrest (List.cons_ne_nil j js)
        omega
    · rintro ⟨rfl, hbound⟩
      have hall := hbound (List.cons_ne_nil i is)
      exact ⟨size, ⟨by omega, rfl⟩, total + size, ⟨by omega, rfl⟩, by omega, fun _ => by omega⟩

end Sizes

/-! ## The rows that are gone -/

section Rows

variable {db : Db} {userId : ℕ} {folders : ℕ → Prop} {trashed : Bool} {folderIds files mirrors : List ℕ}

theorem detached_dropRef (hfolders : ∀ i, i ∈ folderIds ↔ folders i) (ref : Option ℕ) :
    Detached folders ref (dropRef folderIds ref) := by
  cases ref with
  | none => exact .inl rfl
  | some p =>
    by_cases hp : p ∈ folderIds
    · exact .inr ⟨Option.filter_some_neg (by simpa using hp), p, rfl, (hfolders p).mp hp⟩
    · exact .inl (Option.filter_some_pos (by simpa using hp))

/-- **What the transaction writes** removes exactly what is to be deleted. -/
theorem removed_deleteTree (hfolders : ∀ i, i ∈ folderIds ↔ folders i) (hnodup : files.Nodup)
    (hfiles : ∀ i, i ∈ files ↔ DoomedFile db userId folders trashed i)
    (hmirrors : ∀ i, i ∈ mirrors ↔ DoomedMirror db userId folders i) :
    Removed db userId folders trashed
      ((FilesTx.deleteTree db userId folderIds files mirrors (totalSize db files)).apply db) := by
  have hfolder (i : ℕ) : ((FilesTx.deleteTree db userId folderIds files mirrors (totalSize db files)).apply db).folders.get i =
      (if i ∈ folderIds then none else db.folders.get i).map fun r => { r with parentId := dropRef folderIds r.parentId } :=
    rfl
  have hfile (i : ℕ) : ((FilesTx.deleteTree db userId folderIds files mirrors (totalSize db files)).apply db).files.get i =
      (if i ∈ files ++ mirrors then none else db.files.get i).map fun r =>
        { r with parentId := dropRef folderIds r.parentId, folderId := dropRef folderIds r.folderId } :=
    rfl
  have hmem (i : ℕ) : i ∈ files ++ mirrors ↔ DoomedFile db userId folders trashed i ∨ DoomedMirror db userId folders i := by
    rw [List.mem_append, hfiles, hmirrors]
  refine ⟨fun i hi => ?_, fun i r hi hr => ?_, fun i hi => ?_, fun i r hi hm hr => ?_, fun i => ⟨fun h => ?_, fun h => ?_⟩,
    files, hnodup, hfiles, fun u => ?_⟩
  · rw [hfolder, if_pos ((hfolders i).mpr hi), Option.map_none]
  · rw [hfolder, if_neg fun hmem => hi ((hfolders i).mp hmem), hr, Option.map_some]
    exact ⟨_, detached_dropRef hfolders r.parentId, rfl⟩
  · rw [hfile, if_pos ((hmem i).mpr hi), Option.map_none]
  · rw [hfile, if_neg fun h => ((hmem i).mp h).elim hi hm, hr, Option.map_some]
    exact ⟨_, _, detached_dropRef hfolders r.parentId, detached_dropRef hfolders r.folderId, rfl⟩
  · rw [hfolder, h, ite_self, Option.map_none]
  · rw [hfile, h, ite_self, Option.map_none]
  · have huser : ((FilesTx.deleteTree db userId folderIds files mirrors (totalSize db files)).apply db).users.get u =
        (db.users.get u).map fun r =>
          if u = userId then { r with storageUsed := r.storageUsed + -(totalSize db files : ℤ) } else r := rfl
    rw [huser]
    simp only [← sub_eq_add_neg]

end Rows

/-! ## The transactions -/

section Transactions

variable {env : Env} {S : Store} {userId : ℕ}

theorem mem_descendants {id i : ℕ} :
    i ∈ descendants S userId id ↔ Within S.db userId (fun i _ => i = id) i := by
  refine mem_descendants_iff fun i r => ?_
  rw [Bool.and_eq_true, decide_eq_true_eq, decide_eq_true_eq, and_comm]

theorem mem_trashFolders {i : ℕ} :
    i ∈ trashFolders S userId ↔ Within S.db userId (fun _ r => r.isDeleted = true) i := by
  refine mem_descendants_iff fun i r => ?_
  rw [Bool.and_eq_true, decide_eq_true_eq]

/-- What a transaction comes to: the files that are to be deleted, and the writes that delete all. -/
def Comes (S : Store) (userId : ℕ) (root : ℕ → Folder → Prop) (trashed : Bool) (files : List ℕ) (tx : FilesTx) : Prop :=
  (∀ i, i ∈ files ↔ DoomedFile S.db userId (Within S.db userId root) trashed i) ∧
    Removed S.db userId (Within S.db userId root) trashed (tx.apply S.db)

theorem deletion_eq_ok {step : Step} {ids : List ℕ} {u : Unit} :
    env.deletion step ids = .ok u ↔ ids = [] ∨ env.fails step = false := by
  unfold Env.deletion
  split
  next h => exact ⟨fun _ => .inl h, fun _ => rfl⟩
  next h =>
    rw [Env.statement, attempt_eq_ok]
    exact ⟨.inr, fun hor => hor.resolve_left h⟩

theorem decrementStorageUsed_eq_ok {bytes : ℕ} {u : Unit} : decrementStorageUsed env S userId bytes = .ok u ↔
    bytes = 0 ∨ (env.fails .decrement = false ∧
      ∃ user, S.db.users.get userId = some user ∧ bytes ≤ user.storageUsed) := by
  unfold decrementStorageUsed
  split
  next h => exact ⟨fun _ => .inl h, fun _ => rfl⟩
  next h =>
    simp only [bind_eq_ok, Env.statement, attempt_eq_ok, found_eq_ok, check_eq_ok, decide_eq_true_eq, exists_const, h,
      false_or]

/-- What the last part of a transaction needs, and what it writes. -/
theorem deleteRows_eq_ok {folderIds files mirrors : List ℕ} {tx : FilesTx} :
    deleteRows env S userId folderIds files mirrors = .ok tx ↔
      ((files ≠ [] → totalSize S.db files ≤ 9007199254740991) ∧
        decrementStorageUsed env S userId (totalSize S.db files) = .ok () ∧
        env.deletion .deleteFiles (files ++ mirrors) = .ok () ∧ env.deletion .deleteFolders folderIds = .ok ()) ∧
      tx = .deleteTree S.db userId folderIds files mirrors (totalSize S.db files) := by
  simp only [deleteRows, bind_eq_ok, sumFileSizes_eq_ok, pure_eq_ok, Unique.exists_iff, Nat.zero_add]
  constructor
  · rintro ⟨total, ⟨rfl, hbound⟩, hdecrement, hfiles, hfolders, rfl⟩
    exact ⟨⟨hbound, hdecrement, hfiles, hfolders⟩, rfl⟩
  · rintro ⟨⟨hbound, hdecrement, hfiles, hfolders⟩, rfl⟩
    exact ⟨_, ⟨rfl, hbound⟩, hdecrement, hfiles, hfolders, rfl⟩

theorem findMirrors_eq_ok {folderIds mirrors : List ℕ} :
    findMirrors env S userId folderIds = .ok mirrors ↔ env.fails .mirrors = false ∧
      S.db.mirrored folderIds (S.db.mirrorsOf userId folderIds) = true ∧ mirrors = S.db.mirrorsOf userId folderIds := by
  simp only [findMirrors, Env.statement, bind_eq_ok, attempt_eq_ok, check_eq_ok, pure_eq_ok, Unique.exists_iff,
    eq_comm (a := mirrors)]

/-- The folders have one mirror each: there are as many, and one for each. -/
theorem mirrored_of_unique {folderIds : List ℕ} (hnodup : folderIds.Nodup)
    (hunique : ∀ f ∈ folderIds,
      ∃! i, ∃ r, S.db.files.get i = some r ∧ r.userId = userId ∧ r.isFolder = true ∧ r.folderId = some f) :
    S.db.mirrored folderIds (S.db.mirrorsOf userId folderIds) = true := by
  have hmirror {i : ℕ} (hi : i ∈ S.db.mirrorsOf userId folderIds) :
      ∃ f ∈ folderIds, ∃ r, S.db.files.get i = some r ∧ r.userId = userId ∧ r.isFolder = true ∧ r.folderId = some f := by
    obtain ⟨r, hr, howner, hfolder, f, hf, hmem⟩ := (mem_mirrorsOf fun _ => Iff.rfl).mp hi
    exact ⟨f, hmem, r, hr, howner, hfolder, hf⟩
  have hmem {f i : ℕ} (hf : f ∈ folderIds)
      (hi : ∃ r, S.db.files.get i = some r ∧ r.userId = userId ∧ r.isFolder = true ∧ r.folderId = some f) :
      i ∈ S.db.mirrorsOf userId folderIds := by
    obtain ⟨r, hr, howner, hfolder, hid⟩ := hi
    exact (mem_mirrorsOf fun _ => Iff.rfl).mpr ⟨r, hr, howner, hfolder, f, hid, hf⟩
  let folderOf (i : ℕ) : Option ℕ := (S.db.files.get i).bind (·.folderId)
  have hfolderOf {f i : ℕ}
      (hi : ∃ r, S.db.files.get i = some r ∧ r.userId = userId ∧ r.isFolder = true ∧ r.folderId = some f) :
      folderOf i = some f := by
    obtain ⟨r, hr, -, -, hid⟩ := hi
    rw [← hid]
    exact congrArg (·.bind (·.folderId)) hr
  have hperm : ((S.db.mirrorsOf userId folderIds).map folderOf).Perm (folderIds.map some) := by
    refine (List.perm_ext_iff_of_nodup ?_ (hnodup.map (Option.some_injective ℕ))).mpr fun o => ?_
    · refine List.Nodup.map_on (fun i hi j hj heq => ?_) (Table.nodup_select _ _)
      obtain ⟨f, hf, hif⟩ := hmirror hi
      obtain ⟨g, -, hjg⟩ := hmirror hj
      rw [hfolderOf hif, hfolderOf hjg, Option.some.injEq] at heq
      cases heq
      exact (hunique f hf).unique hif hjg
    · constructor
      · intro ho
        obtain ⟨i, hi, rfl⟩ := List.mem_map.mp ho
        obtain ⟨f, hf, hif⟩ := hmirror hi
        exact hfolderOf hif ▸ List.mem_map_of_mem hf
      · intro ho
        obtain ⟨f, hf, rfl⟩ := List.mem_map.mp ho
        obtain ⟨i, hi, -⟩ := hunique f hf
        exact List.mem_map.mpr ⟨i, hmem hf hi, hfolderOf hi⟩
  have hlength := hperm.length_eq
  rw [List.length_map, List.length_map] at hlength
  rw [Db.mirrored, Bool.and_eq_true, decide_eq_true_eq]
  refine ⟨hlength, List.all_eq_true.mpr fun f hf => ?_⟩
  obtain ⟨i, hi, -⟩ := hunique f hf
  refine List.any_eq_true.mpr ⟨i, hmem hf hi, ?_⟩
  obtain ⟨r, hr, -, -, hid⟩ := hi
  rw [hr]
  exact decide_eq_true hid

theorem comes_of_deleteFolder {id : ℕ} {files : List ℕ} {tx : FilesTx}
    (h : deleteFolder env S userId id = .ok (files, tx)) : Comes S userId (fun i _ => i = id) false files tx := by
  unfold deleteFolder at h
  obtain ⟨-, -, h⟩ := bind_eq_ok.mp h
  obtain ⟨-, -, h⟩ := bind_eq_ok.mp h
  obtain ⟨-, -, h⟩ := bind_eq_ok.mp h
  obtain ⟨-, -, h⟩ := bind_eq_ok.mp h
  obtain ⟨-, -, h⟩ := bind_eq_ok.mp h
  obtain ⟨-, -, h⟩ := bind_eq_ok.mp h
  obtain ⟨mirrors, hmirrors, h⟩ := bind_eq_ok.mp h
  obtain ⟨tx', htx, h⟩ := bind_eq_ok.mp h
  cases pure_eq_ok.mp h
  have hfolders (i : ℕ) : i ∈ descendants S userId id ↔ Within S.db userId (fun i _ => i = id) i := mem_descendants
  obtain ⟨-, -, rfl⟩ := findMirrors_eq_ok.mp hmirrors
  rw [(deleteRows_eq_ok.mp htx).2]
  exact ⟨fun i => mem_filesIn hfolders, removed_deleteTree hfolders (Table.nodup_select _ _) (fun i => mem_filesIn hfolders)
    fun i => mem_mirrorsOf hfolders⟩

theorem findInFolders_eq_ok {folderIds files mirrors : List ℕ} :
    findInFolders env S userId folderIds = .ok (files, mirrors) ↔
      files = filesIn S userId folderIds ∧ mirrors = S.db.mirrorsOf userId folderIds ∧
        (folderIds = [] ∨ env.fails .files = false ∧ env.fails .mirrors = false ∧
          S.db.mirrored folderIds (S.db.mirrorsOf userId folderIds) = true) := by
  unfold findInFolders
  split
  next hnil =>
    have hfiles : filesIn S userId folderIds = [] := by
      simp [filesIn, Table.select, hnil]
    have hmirrors : S.db.mirrorsOf userId folderIds = [] := by
      simp [Db.mirrorsOf, Table.select, hnil]
    rw [Except.ok.injEq, Prod.mk.injEq, hfiles, hmirrors]
    constructor
    · rintro ⟨hf, hm⟩
      exact ⟨hf.symm, hm.symm, .inl hnil⟩
    · rintro ⟨hf, hm, -⟩
      exact ⟨hf.symm, hm.symm⟩
  next hne =>
    simp only [bind_eq_ok, Env.statement, attempt_eq_ok, findMirrors_eq_ok, pure_eq_ok, Unique.exists_iff, Prod.mk.injEq,
      hne, false_or]
    constructor
    · rintro ⟨hfiles, -, ⟨hmirrors, hmirrored, rfl⟩, rfl, rfl⟩
      exact ⟨rfl, rfl, hfiles, hmirrors, hmirrored⟩
    · rintro ⟨rfl, rfl, hfiles, hmirrors, hmirrored⟩
      exact ⟨hfiles, _, ⟨hmirrors, hmirrored, rfl⟩, rfl, rfl⟩

theorem comes_of_deleteTrash {files : List ℕ} {tx : FilesTx} (h : deleteTrash env S userId = .ok (files, tx)) :
    Comes S userId (fun _ r => r.isDeleted = true) true files tx := by
  unfold deleteTrash at h
  obtain ⟨-, -, h⟩ := bind_eq_ok.mp h
  obtain ⟨-, -, h⟩ := bind_eq_ok.mp h
  obtain ⟨-, -, h⟩ := bind_eq_ok.mp h
  obtain ⟨-, -, h⟩ := bind_eq_ok.mp h
  obtain ⟨⟨folderFiles, mirrors⟩, hfound, h⟩ := bind_eq_ok.mp h
  obtain ⟨tx', htx, h⟩ := bind_eq_ok.mp h
  cases pure_eq_ok.mp h
  obtain ⟨rfl, rfl, -⟩ := findInFolders_eq_ok.mp hfound
  have hfolders (i : ℕ) : i ∈ trashFolders S userId ↔ Within S.db userId (fun _ r => r.isDeleted = true) i :=
    mem_trashFolders
  rw [(deleteRows_eq_ok.mp htx).2]
  exact ⟨fun i => mem_trashFiles hfolders, removed_deleteTree hfolders nodup_trashFiles (fun i => mem_trashFiles hfolders)
    fun i => mem_mirrorsOf hfolders⟩

end Transactions

/-! ## The objects -/

section Objects

variable {env : Env} {S : Store} {userId : ℕ} {doomed : ℕ → Prop}

theorem ObjectsKept.refl (S' : Store) (h : S'.objects = S.objects) : ObjectsKept S S' doomed := fun p => .inl (by rw [h])

/-- **The objects that are unlinked** are those of the files, and no row changes. -/
theorem unlinkAll_spec {files : List ℕ} (hfiles : ∀ i ∈ files, doomed i) {S₁ : Store} (h : ObjectsKept S S₁ doomed) :
    ∀ S' ∈ unlinkAll env S.db files S₁, S'.db = S₁.db ∧ ObjectsKept S S' doomed := by
  induction files generalizing S₁ with
  | nil => exact fun S' hS' => absurd hS' List.not_mem_nil
  | cons i is ih =>
    obtain ⟨hi, his⟩ := List.forall_mem_cons.mp hfiles
    unfold unlinkAll
    split
    next p hp =>
      split
      next => exact ih his h
      next =>
        have hnext : ObjectsKept S { S₁ with objects := setAt S₁.objects p none } doomed := by
          intro q
          dsimp only
          by_cases hq : q = p
          · obtain ⟨r, hr, hplacement⟩ := Option.bind_eq_some_iff.mp hp
            rw [hq, setAt_self]
            exact .inr ⟨rfl, i, r, hi, hr, hplacement⟩
          · rw [setAt_ne _ _ hq]
            exact h q
        exact List.forall_mem_cons.mpr ⟨⟨rfl, hnext⟩, fun S' hS' => ih his hnext S' hS'⟩
    next => exact ih his h

/-- **A call is as exact as its transaction.** -/
theorem exact_finish {root : ℕ → Folder → Prop} {trashed : Bool} {result : Except Err (List ℕ × FilesTx)}
    (h : ∀ files tx, result = .ok (files, tx) → Comes S userId root trashed files tx) :
    Exact env S userId root trashed (finish env S result) := by
  unfold finish
  split
  next e => exact ⟨fun _ hS' => absurd hS' List.not_mem_nil, fun _ hS' => (nomatch hS'), fun _ _ => ⟨rfl, fun _ => rfl⟩,
      fun hok => (nomatch hok)⟩
  next files tx =>
    obtain ⟨hfiles, hremoved⟩ := h files tx rfl
    have hfirst : Removed S.db userId (Within S.db userId root) trashed (tx.apply S.db) ∧
        ObjectsKept S ⟨tx.apply S.db, S.objects⟩ (DoomedFile S.db userId (Within S.db userId root) trashed) :=
      ⟨hremoved, .refl _ rfl⟩
    dsimp only
    split
    next =>
      refine ⟨List.forall_mem_cons.mpr ⟨hfirst, fun S' hS' => ?_⟩, fun S' hS' => ?_, fun e he => (nomatch he),
        fun _ => List.cons_ne_nil _ _⟩
      · obtain ⟨hdb, hkept⟩ := unlinkAll_spec (fun i hi => (hfiles i).mp hi) hfirst.2 S' hS'
        rw [hdb]
        exact ⟨hremoved, hkept⟩
      · cases Option.mem_some_iff.mp hS'
        rfl
    next => exact ⟨fun _ hS' => absurd hS' List.not_mem_nil, fun _ hS' => (nomatch hS'), fun _ _ => ⟨rfl, fun _ => rfl⟩,
        fun hok => (nomatch hok)⟩
    next houtcome =>
      refine ⟨fun S' hS' => ?_, fun S' hS' => ?_, fun e _ => ⟨rfl, fun hne => absurd houtcome hne⟩, fun hok => (nomatch hok)⟩
      · cases List.mem_singleton.mp hS'
        exact hfirst
      · cases Option.mem_some_iff.mp hS'
        rfl

end Objects

/-! ## Calls that nothing stands in the way of -/

section Done

variable {env : Env} {S : Store} {userId : ℕ} {root : ℕ → Folder → Prop} {trashed : Bool}

theorem Ready.deleteRows_ok (h : Ready env S userId root trashed) {folderIds files mirrors : List ℕ} (hnodup : files.Nodup)
    (hfiles : ∀ i, i ∈ files ↔ DoomedFile S.db userId (Within S.db userId root) trashed i) :
    ∃ tx, deleteRows env S userId folderIds files mirrors = .ok tx := by
  obtain ⟨ids, hids, hmem, hbound, husage⟩ := h.usage
  have hperm : ids.Perm files := (List.perm_ext_iff_of_nodup hids hnodup).mpr fun i => (hmem i).trans (hfiles i).symm
  rw [totalSize_perm hperm] at hbound husage
  exact ⟨_, deleteRows_eq_ok.mpr ⟨⟨fun _ => hbound, decrementStorageUsed_eq_ok.mpr (.inr ⟨h.steps _, husage⟩),
    deletion_eq_ok.mpr (.inr (h.steps _)), deletion_eq_ok.mpr (.inr (h.steps _))⟩, rfl⟩⟩

theorem Ready.finish_ok (h : Ready env S userId root trashed) {result : Except Err (List ℕ × FilesTx)}
    (hresult : ∃ planned, result = .ok planned) : (finish env S result).1 = .ok () := by
  obtain ⟨⟨files, tx⟩, rfl⟩ := hresult
  unfold finish
  dsimp only
  rw [h.outcome]

theorem Ready.statement_ok (h : Ready env S userId root trashed) (step : Step) : env.statement step = .ok () :=
  attempt_eq_ok.mpr (h.steps step)

theorem Ready.startTransaction_ok (h : Ready env S userId root trashed) : startTransaction env = .ok () := by
  unfold startTransaction
  rw [h.statement_ok, h.statement_ok]
  exact h.statement_ok _

theorem Ready.findMirrors_ok (h : Ready env S userId root trashed) {folderIds : List ℕ} (hnodup : folderIds.Nodup)
    (hfolders : ∀ i, i ∈ folderIds ↔ Within S.db userId root i) :
    findMirrors env S userId folderIds = .ok (S.db.mirrorsOf userId folderIds) :=
  findMirrors_eq_ok.mpr ⟨h.steps _, mirrored_of_unique hnodup fun f hf => h.mirrors f ((hfolders f).mp hf), rfl⟩

theorem Ready.lockFolders_ok (h : Ready env S userId root trashed) {folderIds : List ℕ} (hnodup : folderIds.Nodup)
    (hfolders : ∀ i, i ∈ folderIds ↔ Within S.db userId root i) (message : String) :
    lockFolders env S userId message folderIds = .ok () :=
  (lockFolders_eq_ok hnodup fun i hi => ((hfolders i).mp hi).folder).mpr (h.steps _)

theorem deleteFolder_ok {id : ℕ} (h : Ready env S userId (fun i _ => i = id) false)
    (hid : Within S.db userId (fun i _ => i = id) id) : ∃ planned, deleteFolder env S userId id = .ok planned := by
  have hfolders (i : ℕ) : i ∈ descendants S userId id ↔ Within S.db userId (fun i _ => i = id) i := mem_descendants
  obtain ⟨r, hr, howner⟩ := hid.folder
  have hfound : found (.notFound "Folder not found") ((S.db.folders.get id).filter (·.userId = userId)) =
      (.ok r : Except Err Folder) :=
    found_eq_ok.mpr (Option.filter_eq_some_iff.mpr ⟨hr, decide_eq_true howner⟩)
  have hfiles : (filesIn S userId (descendants S userId id)).Nodup := Table.nodup_select _ _
  obtain ⟨tx, htx⟩ := @Ready.deleteRows_ok _ _ _ _ _ h (descendants S userId id) _
    (S.db.mirrorsOf userId (descendants S userId id)) hfiles fun i => mem_filesIn hfolders
  refine ⟨(filesIn S userId (descendants S userId id), tx), ?_⟩
  unfold deleteFolder
  refine bind_eq_ok.mpr ⟨(), h.startTransaction_ok, bind_eq_ok.mpr ⟨(), h.statement_ok .folder, ?_⟩⟩
  refine bind_eq_ok.mpr ⟨r, hfound, bind_eq_ok.mpr ⟨(), h.statement_ok .descendants, ?_⟩⟩
  refine bind_eq_ok.mpr ⟨(), h.lockFolders_ok nodup_descendants hfolders _, ?_⟩
  refine bind_eq_ok.mpr ⟨(), h.statement_ok .files, ?_⟩
  exact bind_eq_ok.mpr ⟨_, h.findMirrors_ok nodup_descendants hfolders, bind_eq_ok.mpr ⟨tx, htx, rfl⟩⟩

theorem deleteTrash_ok (h : Ready env S userId (fun _ r => r.isDeleted = true) true) :
    ∃ planned, deleteTrash env S userId = .ok planned := by
  have hfolders (i : ℕ) : i ∈ trashFolders S userId ↔ Within S.db userId (fun _ r => r.isDeleted = true) i :=
    mem_trashFolders
  have hnodup : (trashFolders S userId).Nodup := nodup_descendants
  have hlock : lockTrashFolders env S userId (trashFolders S userId) = .ok () := by
    unfold lockTrashFolders
    split
    next => rfl
    next => exact h.lockFolders_ok hnodup hfolders _
  have hfound : findInFolders env S userId (trashFolders S userId) =
      .ok (filesIn S userId (trashFolders S userId), S.db.mirrorsOf userId (trashFolders S userId)) :=
    findInFolders_eq_ok.mpr ⟨rfl, rfl, .inr ⟨h.steps _, h.steps _,
      mirrored_of_unique hnodup fun f hf => h.mirrors f ((hfolders f).mp hf)⟩⟩
  obtain ⟨tx, htx⟩ := @Ready.deleteRows_ok _ _ _ _ _ h (trashFolders S userId) (trashFiles S userId (trashFolders S userId))
    (S.db.mirrorsOf userId (trashFolders S userId)) nodup_trashFiles fun i => mem_trashFiles hfolders
  refine ⟨(trashFiles S userId (trashFolders S userId), tx), ?_⟩
  unfold deleteTrash
  refine bind_eq_ok.mpr ⟨(), h.startTransaction_ok, bind_eq_ok.mpr ⟨(), h.statement_ok .descendants, ?_⟩⟩
  refine bind_eq_ok.mpr ⟨(), hlock, bind_eq_ok.mpr ⟨(), h.statement_ok .trashed, ?_⟩⟩
  exact bind_eq_ok.mpr ⟨_, hfound, bind_eq_ok.mpr ⟨tx, htx, rfl⟩⟩

end Done

/-- **Permanent deletion deletes exactly the subtrees.** Whatever fails, every state that a call passes has exactly the
folders within the roots removed, with their mirrors and files (and the files in the trash), each file counted once, and
only objects of files that are gone; a call that fails before the COMMIT passes no state. If nothing stands in its way,
a call succeeds. -/
theorem deletion_exact (env : Env) (S : Store) (userId : ℕ) :
    (∀ id, Exact env S userId (fun i _ => i = id) false (deleteFolderPermanently env S userId id) ∧
      (Ready env S userId (fun i _ => i = id) false → Within S.db userId (fun i _ => i = id) id →
        (deleteFolderPermanently env S userId id).1 = .ok ())) ∧
    Exact env S userId (fun _ r => r.isDeleted = true) true (emptyTrash env S userId) ∧
      (Ready env S userId (fun _ r => r.isDeleted = true) true → (emptyTrash env S userId).1 = .ok ()) := by
  refine ⟨fun id => ⟨exact_finish fun files tx => comes_of_deleteFolder, fun hready hid => hready.finish_ok ?_⟩,
    exact_finish fun files tx => comes_of_deleteTrash, fun hready => hready.finish_ok ?_⟩
  · exact deleteFolder_ok hready hid
  · exact deleteTrash_ok hready

end Deletion

end HomeCloud
