import HomeCloud.Files.Tree
import HomeCloud.Statements

/-!
# The file and folder operations

The operations of the files service as programs of statements, each with the row locks it takes.

* `createFile`, `createFolder`, `updateFile`, `updateFolder`, `moveFile`, `copyFile`.
* `removeFile`, `removeFolder`, `restoreFile`, `restoreFolder`.
* `deleteFilePermanently`, `deleteFolderPermanently`, `emptyTrash`.
-/

namespace HomeCloud

open Concurrent

/-! ## Lookups -/

def findOne (userId id : ℕ) : Op File := do
  let file ← query fun w => (w.db.files.get id).filter (·.userId = userId)
  require (.notFound "File not found") file

/-- A parent folder given by a request has to be a folder of the user, trashed or not. -/
def assertFolderOwnership (userId : ℕ) : Option ℕ → Op Unit
  | none | some 0 => pure ()
  | some id => do
    let folder ← query fun w => (w.db.folders.get id).filter (·.userId = userId)
    assert (.forbidden "Target folder not found or access denied") folder.isSome

/-- A fresh object key. -/
def generatePlacement : Op Placement := .pick fun n => .ret ⟨0, .object n⟩

/-! ## Creating -/

def createFile (userId : ℕ) (name : JsString) (size : ℤ) (mimeType : Option JsString)
    (parentId : Option ℕ) : Op File := do
  let displayName ← require (.badRequest "Invalid file name") (validateDisplayName name)
  let user ← query fun w => w.db.users.get userId
  assert (.forbidden "User not found") user.isSome
  assertFolderOwnership userId parentId
  transaction do
    let _ ← lockUser userId
    let choice ← allocateNamespaceName userId parentId displayName .file none none
    let placement ← generatePlacement
    let bytes ← parseDatabaseSize "Invalid storage size metadata" size
    updateStorageUsed userId bytes
    let file : File := {
      name := .ofJs choice.chosen
      placement := some placement
      size := bytes
      mimeType := mimeType
      checksum := none
      isFolder := false
      isDeleted := false
      deletedAt := none
      parentId := parentId
      folderId := none
      uploadId := none
      userId := userId }
    return (.files (.addFile file choice), file)

def createFolder (userId : ℕ) (name : JsString) (parentId : Option ℕ) : Op Unit := do
  assert (.badRequest "Folder name must not be empty") (!(trim name).isEmpty)
  assertFolderOwnership userId parentId
  transaction do
    let _ ← lockUser userId
    let choice ← allocateNamespaceName userId parentId name .folder none none
    let folder : Folder := {
      name := .ofJs choice.chosen
      parentId := parentId
      userId := userId
      isDeleted := false
      deletedAt := none }
    return (.files (.addFolder folder none choice), ())

def copyFile (userId id : ℕ) (targetParentId : Option ℕ) : Op File := do
  let source ← findOne userId id
  let user ← query fun w => w.db.users.get userId
  assert (.forbidden "User not found") user.isSome
  assertFolderOwnership userId targetParentId
  let size ← parseDatabaseSize "Invalid file size metadata" source.size
  let displayName ← require (.badRequest "Invalid file name") (validateDisplayName source.name.val)
  let placement ← generatePlacement
  -- Resolving the source fails for a mirror, which has no object.
  assert (.badRequest "Unknown or incomplete storage placement") source.placement.isSome
  transaction do
    updateStorageUsed userId size
    let choice ← allocateNamespaceName userId targetParentId displayName .file none none
    let file : File := {
      name := .ofJs choice.chosen
      placement := some placement
      size := size
      mimeType := source.mimeType
      checksum := none
      isFolder := false
      isDeleted := false
      deletedAt := none
      parentId := targetParentId
      folderId := none
      uploadId := none
      userId := userId }
    return (.files (.addFile file choice), file)

/-! ## Renaming, moving and restoring files -/

/-- The folder when it is live, else the root. -/
def activeParent (userId : ℕ) : Option ℕ → Op (Option ℕ)
  | some p => do
    let active ← query fun w => (w.db.folders.get p).any fun r => r.userId = userId && !r.isDeleted
    pure (if active then some p else none)
  | none => pure none

/-- Allocates a name for an entry whose directory, name or liveness changes. -/
def allocateWhen (changes : Bool) (userId : ℕ) (parentId : Option ℕ) (requested : JsString)
    (kind : EntryKind) (excludeFile excludeFolder : Option ℕ) : Op (Option NameChoice) :=
  if changes then do
    let choice ← allocateNamespaceName userId parentId requested kind excludeFile excludeFolder
    pure (some choice)
  else pure none

/-- Renames, moves or restores a file. `name` and `parentId` are what the request gives;
`parentId = some none` asks for the root. -/
def changeFilePlacement (userId id : ℕ) (name : Option JsString) (parentId : Option (Option ℕ))
    (restore : Bool) : Op File :=
  transaction do
    let _ ← lockUser userId
    let row ← lockFile id
    let file ← require (.notFound "File not found") (row.filter (·.userId = userId))
    assert (.badRequest "Cannot update folder via files endpoint") (!file.isFolder)
    let requested := parentId.getD file.parentId
    let destination ← (if restore then activeParent userId requested else pure requested : Op _)
    let allocates := (restore && file.isDeleted) || name.any (· ≠ file.name.val) ||
      destination ≠ file.parentId
    let choice ← allocateWhen allocates userId destination (name.getD file.name.val) .file
      (some id) none
    let file' : File := { file with
      name := choice.elim file.name fun c => .ofJs c.chosen
      parentId := destination
      isDeleted := if restore then false else file.isDeleted
      deletedAt := if restore then none else file.deletedAt }
    return (.files (.placeFile id file' choice), file')

/-- The check of an optional requested name. -/
def validateNewName : Option JsString → Op (Option JsString)
  | some n => do
    let displayName ← require (.badRequest "Invalid file name") (validateDisplayName n)
    pure (some displayName)
  | none => pure none

/-- The check of an optional requested parent. -/
def assertTargetOwnership (userId : ℕ) : Option (Option ℕ) → Op Unit
  | some p => assertFolderOwnership userId p
  | none => pure ()

def updateFile (userId id : ℕ) (name : Option JsString) (parentId : Option (Option ℕ)) :
    Op File := do
  let displayName ← validateNewName name
  assertTargetOwnership userId parentId
  changeFilePlacement userId id displayName parentId false

def restoreFile (userId id : ℕ) : Op File := changeFilePlacement userId id none none true

/-! ## Renaming, moving, trashing and restoring folders -/

/-- The destination of a folder must not be the folder or below it. -/
def assertNoCycle (folderId targetParentId : ℕ) : Op Unit := do
  let ids ← query fun w => w.db.descendants (fun _ => true) fun _ i => i = folderId
  assert (.badRequest "Cannot move folder into its own subtree") (targetParentId ∉ ids)

/-- The same for an optional requested parent. -/
def assertNoCycleTo (folderId : ℕ) : Option (Option ℕ) → Op Unit
  | some (some p) => assertNoCycle folderId p
  | _ => pure ()

/-- The folder and its mirror, locked. -/
def lockFolderAndMirror (userId id : ℕ) : Op (Folder × ℕ × File) := do
  let row ← lockFolder id
  let folder ← require (.notFound "Folder not found") (row.filter (·.userId = userId))
  let found ← query fun w =>
    w.db.files.find fun _ r => r.folderId = some id && r.userId = userId && r.isFolder
  let (mirrorId, _) ← require (.notFound "Folder mirror not found") found
  let row ← lockFile mirrorId
  let mirror ← require (.notFound "Folder mirror not found")
    (row.filter fun r => r.folderId = some id && r.userId = userId && r.isFolder)
  return (folder, mirrorId, mirror)

def updateFolder (userId id : ℕ) (name : Option JsString) (parentId : Option (Option ℕ)) :
    Op File := do
  assert (.badRequest "Folder name must not be empty") (name.all fun n => !(trim n).isEmpty)
  assertTargetOwnership userId parentId
  assertNoCycleTo id parentId
  transaction do
    let _ ← lockUser userId
    let (folder, mirrorId, mirror) ← lockFolderAndMirror userId id
    let destination := parentId.getD folder.parentId
    assertNoCycleTo id parentId
    let requested := (name.filter fun n => !(trim n).isEmpty).getD folder.name.val
    let choice ← allocateWhen (requested ≠ folder.name.val || destination ≠ folder.parentId) userId
      destination requested .folder (some mirrorId) (some id)
    let folder' := choice.elim folder fun c =>
      { folder with name := .ofJs c.chosen, parentId := destination }
    let mirror' := choice.elim mirror fun c =>
      { mirror with name := .ofJs c.chosen, parentId := destination }
    return (.files (.setFolder id mirrorId folder' mirror' choice), mirror')

def removeFolder (userId id : ℕ) : Op Unit :=
  transaction do
    let _ ← lockUser userId
    let (folder, mirrorId, mirror) ← lockFolderAndMirror userId id
    let now ← query (·.now)
    let folder' := { folder with isDeleted := true, deletedAt := some now }
    let mirror' := { mirror with isDeleted := true, deletedAt := some now }
    return (.files (.setFolder id mirrorId folder' mirror' none), ())

def restoreFolder (userId id : ℕ) : Op Unit :=
  transaction do
    let _ ← lockUser userId
    let (folder, mirrorId, mirror) ← lockFolderAndMirror userId id
    let parentId ← activeParent userId folder.parentId
    let choice ← allocateWhen folder.isDeleted userId parentId folder.name.val .folder
      (some mirrorId) (some id)
    let folder' : Folder := { folder with
      name := choice.elim folder.name fun c => .ofJs c.chosen
      parentId := parentId
      isDeleted := false
      deletedAt := none }
    let mirror' : File := { mirror with
      name := choice.elim mirror.name fun c => .ofJs c.chosen
      parentId := if parentId = folder.parentId then mirror.parentId else none
      isDeleted := false
      deletedAt := none }
    return (.files (.setFolder id mirrorId folder' mirror' choice), ())

def moveFile (userId id : ℕ) (targetParentId : Option ℕ) : Op File := do
  assertFolderOwnership userId targetParentId
  let current ← findOne userId id
  if current.isFolder then do
    let folderId ← require (.notFound "Folder not found") current.folderId
    updateFolder userId folderId none (some targetParentId)
  else changeFilePlacement userId id none (some targetParentId) false

/-! ## Trashing files -/

/-- The columns in which the entity differs from the row. -/
def File.diff (entity row : File) : FilePatch where
  name := if entity.name = row.name then none else some entity.name
  parentId := if entity.parentId = row.parentId then none else some entity.parentId
  isDeleted := if entity.isDeleted = row.isDeleted then none else some entity.isDeleted
  deletedAt := if entity.deletedAt = row.deletedAt then none else some entity.deletedAt

/-- Trashes a file. The row is read without a lock; `save` reloads it and writes the columns that
differ from the entity, or inserts the entity when the row is gone. -/
def removeFile (userId id : ℕ) : Op Unit := do
  let file ← findOne userId id
  assert (.badRequest "Cannot delete folder via files endpoint") (!file.isFolder)
  let now ← query (·.now)
  let entity := { file with isDeleted := true, deletedAt := some now }
  transaction do
    let row ← query fun w => w.db.files.get id
    match row with
    | none => return (.files (.reinsertFile id entity), ())
    | some row => do
      let current ← lockFile id
      match current with
      | none => return (.none, ())
      | some _ => return (.files (.trashFile id (entity.diff row)), ())

/-! ## Permanent deletion -/

def deleteFilePermanently (userId id : ℕ) : Op Unit :=
  transaction do
    let _ ← lockUser userId
    let found ← query fun w => (w.db.files.get id).filter (·.userId = userId)
    let file ← require (.notFound "File not found") found
    let bytes ← parseDatabaseSize "Invalid storage size metadata" file.size
    decrementStorageUsed userId bytes
    let _ ← lockFile id
    return (.files (.deleteFile id userId bytes), ())

/-- A row lock in a serializable transaction, which fails when the row has changed since the
snapshot. -/
def lockUnchanged (view : Db) (k : LockKey) : Op Unit := do
  let row ← selectForUpdate k (·.row k)
  assert (.database .serialization) (row = view.row k)

/-- Locks the rows one after the other. -/
def lockAllUnchanged (view : Db) : List LockKey → Op Unit
  | [] => pure ()
  | k :: ks => do
    lockUnchanged view k
    lockAllUnchanged view ks

/-- The sum of the sizes of the files, a safe integer. -/
def sumFileSizes (view : Db) (ids : List ℕ) : Op ℕ :=
  parseDatabaseSize "Invalid file size metadata"
    ((ids.map fun i => (view.files.get i).elim 0 fun r => r.size).sum : ℕ)

/-- The mirrors among the rows, by folder. -/
def Db.mirrorsOf (db : Db) (userId : ℕ) (folderIds : List ℕ) : List ℕ :=
  db.files.select fun _ r => r.userId = userId && r.isFolder && r.folderId.any (· ∈ folderIds)

/-- Each folder has one of the mirrors, and there are as many mirrors as folders. -/
def Db.mirrored (db : Db) (folderIds mirrors : List ℕ) : Bool :=
  mirrors.length = folderIds.length &&
    folderIds.all fun f => mirrors.any fun i => (db.files.get i).any fun r => r.folderId = some f

/-- The common end of both deletions: locks folders, files and mirrors, checks the mirrors and takes
the sizes off the usage. -/
def deleteSubtrees (view : Db) (userId : ℕ) (folderIds files : List ℕ) : Op (Tx × Unit) := do
  lockAllUnchanged view (folderIds.map .folder)
  lockAllUnchanged view (files.map .file)
  let mirrors := view.mirrorsOf userId folderIds
  lockAllUnchanged view (mirrors.map .file)
  assert (.notFound "Folder mirror not found") (view.mirrored folderIds mirrors)
  let totalSize ← sumFileSizes view files
  decrementStorageUsed userId totalSize
  return (.files (.deleteTree view userId folderIds files mirrors totalSize), ())

def deleteFolderPermanently (userId id : ℕ) : Op Unit :=
  transaction do
    let view ← query (·.db)
    lockUnchanged view (.user userId)
    let folder := (view.folders.get id).filter (·.userId = userId)
    assert (.notFound "Folder not found") folder.isSome
    lockUnchanged view (.folder id)
    let folderIds := view.descendants (·.userId = userId) fun r i => i = id && r.userId = userId
    deleteSubtrees view userId folderIds (view.files.select fun _ r =>
      r.userId = userId && !r.isFolder && r.parentId.any (· ∈ folderIds))

def emptyTrash (userId : ℕ) : Op Unit :=
  transaction do
    let view ← query (·.db)
    lockUnchanged view (.user userId)
    let folderIds := view.descendants (·.userId = userId) fun r _ =>
      r.userId = userId && r.isDeleted
    -- The files in the trash, and those in the trashed folders.
    deleteSubtrees view userId folderIds (view.files.select fun _ r =>
      r.userId = userId && !r.isFolder && (r.isDeleted || r.parentId.any (· ∈ folderIds)))

end HomeCloud
