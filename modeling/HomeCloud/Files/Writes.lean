import HomeCloud.Schema

/-!
# What the file operations write

What a transaction writes becomes visible at once when it commits, so the writes of one transaction
are one value.

* `NameQuery`, `NameChoice`: the name a transaction allocates, from the names it has read.
* `FilesTx`, `FilesTx.apply`, `FilesTx.allowed`: the writes of the file and folder operations and
  the constraints checked on them.
* `FilesTx.entered`: the directories in which they make or rename a live entry.
-/

namespace HomeCloud

open Concurrent

/-! ## Choosing a name -/

/-- A query for the names of a directory, to choose a name in it. -/
structure NameQuery where
  slot : Slot
  kind : EntryKind
  requested : JsString
  excludeFile : Option ℕ
  excludeFolder : Option ℕ

/-- A name chosen in a directory. -/
structure NameChoice where
  slot : Slot
  chosen : JsString

/-- The live names the query returns: files and mirrors, and folders, less the excluded rows. -/
def Db.occupied (db : Db) (q : NameQuery) : List JsString :=
  ((db.files.select fun i r => r.slot = q.slot && !r.isDeleted && q.excludeFile ≠ some i).filterMap
      fun i => (db.files.get i).map (·.name.val)) ++
  ((db.folders.select fun i r => r.slot = q.slot && !r.isDeleted && q.excludeFolder ≠ some i).filterMap
      fun i => (db.folders.get i).map (·.name.val))

/-- The name chosen after the query, none when all variants are taken. -/
def NameQuery.choose (q : NameQuery) (db : Db) : Option NameChoice :=
  (chooseName q.kind q.requested (db.occupied q)).map fun n => ⟨q.slot, n⟩

/-! ## Writes -/

/-- The columns a `save` of a file entity found changed. -/
structure FilePatch where
  name : Option DbText
  parentId : Option (Option ℕ)
  isDeleted : Option Bool
  deletedAt : Option (Option ℕ)

/-- The row with the changed columns written. -/
def FilePatch.apply (p : FilePatch) (r : File) : File where
  name := p.name.getD r.name
  placement := r.placement
  size := r.size
  mimeType := r.mimeType
  checksum := r.checksum
  isFolder := r.isFolder
  isDeleted := p.isDeleted.getD r.isDeleted
  deletedAt := p.deletedAt.getD r.deletedAt
  parentId := p.parentId.getD r.parentId
  folderId := r.folderId
  uploadId := r.uploadId
  userId := r.userId

/-- The mirror row inserted with the folder `id`. -/
def Folder.mirror (r : Folder) (id : ℕ) : File where
  name := r.name
  placement := none
  size := 0
  mimeType := none
  checksum := none
  isFolder := true
  isDeleted := false
  deletedAt := none
  parentId := r.parentId
  folderId := some id
  uploadId := none
  userId := r.userId

/-- The rows a file or folder operation writes. `choice` is the name it allocated. -/
inductive FilesTx where
  | addFile (file : File) (choice : NameChoice)
  | addFolder (folder : Folder) (receipt : Option PublicShareOperation) (choice : NameChoice)
  | placeFile (id : ℕ) (file : File) (choice : Option NameChoice)
  | setFolder (id mirrorId : ℕ) (folder : Folder) (mirror : File) (choice : Option NameChoice)
  | trashFile (id : ℕ) (patch : FilePatch)
  | reinsertFile (id : ℕ) (file : File)
  | deleteFile (id : ℕ) (userId bytes : ℕ)
  | deleteTree (view : Db) (userId : ℕ) (folders files mirrors : List ℕ) (bytes : ℕ)

/-- Adds `bytes` to the usage of `u`. -/
def Db.charge (db : Db) (u : ℕ) (bytes : ℤ) : Db :=
  { db with users := db.users.map fun i r =>
      if i = u then { r with storageUsed := r.storageUsed + bytes } else r }

/-- A reference to one of the deleted folders, set to null. -/
def dropRef (deleted : List ℕ) (ref : Option ℕ) : Option ℕ := ref.filter (· ∉ deleted)

/-- Deletes folders; what is left of the references to them is set to null. -/
def Db.dropFolders (db : Db) (ids : List ℕ) : Db :=
  { db with
    folders := (db.folders.eraseAll ids).map fun _ r => { r with parentId := dropRef ids r.parentId }
    files := db.files.map fun _ r =>
      { r with parentId := dropRef ids r.parentId, folderId := dropRef ids r.folderId }
    publicShareOperations := db.publicShareOperations.map fun _ r =>
      { r with
        shareRootFolderId := dropRef ids r.shareRootFolderId
        resultFolderId := dropRef ids r.resultFolderId }
    uploadSessions := db.uploadSessions.map fun _ r =>
      { r with
        parentId := dropRef ids r.parentId
        shareRootFolderId := dropRef ids r.shareRootFolderId } }

/-- The share links of the files. -/
def Db.linksOf (db : Db) (fileIds : List ℕ) : List ℕ :=
  db.shareLinks.select fun _ r => r.fileId ∈ fileIds

/-- Deletes files with their share links; the references to these are set to null. -/
def Db.dropFiles (db : Db) (ids : List ℕ) : Db :=
  { db with
    files := db.files.eraseAll ids
    shareLinks := db.shareLinks.eraseAll (db.linksOf ids)
    publicShareOperations := db.publicShareOperations.map fun _ r =>
      { r with shareLinkId := dropRef (db.linksOf ids) r.shareLinkId }
    uploadSessions := db.uploadSessions.map fun _ r =>
      { r with shareLinkId := dropRef (db.linksOf ids) r.shareLinkId } }

/-- The rows that the deletion of folders and files changes without having locked them: the share
links of the files, and the sessions that refer to them or to the folders. -/
def Db.cascades (db : Db) (folders files : List ℕ) : List LockKey :=
  (db.linksOf files).map .link ++
  (db.uploadSessions.select fun _ r =>
    r.parentId.any (· ∈ folders) || r.shareRootFolderId.any (· ∈ folders) ||
      r.shareLinkId.any (· ∈ db.linksOf files)).map .session

/-- The database after the writes. -/
def FilesTx.apply (db : Db) : FilesTx → Db
  | .addFile file _ => { db with files := db.files.insert file }.charge file.userId file.size
  | .addFolder folder receipt _ =>
    { db with
      folders := db.folders.insert folder
      files := db.files.insert (folder.mirror db.folders.bound)
      publicShareOperations :=
        receipt.elim db.publicShareOperations fun r =>
          db.publicShareOperations.insert { r with resultFolderId := some db.folders.bound } }
  | .placeFile id file _ => { db with files := db.files.put id file }
  | .setFolder id mirrorId folder mirror _ =>
    { db with folders := db.folders.put id folder, files := db.files.put mirrorId mirror }
  | .trashFile id patch =>
    match db.files.get id with
    | some r => { db with files := db.files.put id (patch.apply r) }
    | none => db
  | .reinsertFile id file => { db with files := db.files.put id file }
  | .deleteFile id userId bytes =>
    (db.dropFiles [id]).charge userId (-(bytes : ℤ))
  | .deleteTree _ userId folders files mirrors bytes =>
    ((db.dropFiles (files ++ mirrors)).dropFolders folders).charge userId (-(bytes : ℤ))

/-- The foreign key of a `parentId`. -/
def Db.parentExists (db : Db) (parentId : Option ℕ) : Bool :=
  parentId.all fun p => (db.folders.get p).isSome

/-- No other file has the object, `UQ_files_placement`. -/
def Db.placementFree (db : Db) (placement : Option Placement) : Bool :=
  placement.all fun p => (db.files.select fun _ r => r.placement = some p).isEmpty

/-- No receipt for the same kind of request has its share link and key,
`uq_public_share_operation_retry`. -/
def Db.receiptFree (db : Db) (receipt : PublicShareOperation) : Bool :=
  (db.publicShareOperations.select fun _ r =>
    r.shareLinkId = receipt.shareLinkId && r.idempotencyKey = receipt.idempotencyKey &&
      r.request.isMkdir = receipt.request.isMkdir).isEmpty

/-- The receipts of a share link. -/
def Db.receiptsOf (db : Db) (linkId : ℕ) : List ℕ :=
  db.publicShareOperations.select fun _ r => r.shareLinkId = some linkId

/-- A serializable transaction deletes folders only if every row left that refers to one of them is
one it has seen in its snapshot. -/
def Db.crosscheck (db view : Db) (folders files : List ℕ) : Bool :=
  (db.folders.select fun i r => i ∉ folders && r.parentId.any (· ∈ folders)).all
      (fun i => db.folders.get i = view.folders.get i) &&
  (db.files.select fun i r => i ∉ files && r.parentId.any (· ∈ folders)).all
      fun i => db.files.get i = view.files.get i

/-- The constraints that a commit of the writes has to meet. -/
def FilesTx.allowed (db : Db) : FilesTx → Bool
  | .addFile file _ => db.placementFree file.placement
  | .addFolder _ receipt _ => receipt.all db.receiptFree
  | .trashFile _ patch => patch.parentId.all db.parentExists
  | .reinsertFile id file =>
    (db.files.get id).isNone && db.parentExists file.parentId && db.placementFree file.placement
  | .deleteTree view _ folders files mirrors _ => db.crosscheck view folders (files ++ mirrors)
  | _ => true

/-- The rows that the writes change by cascade. -/
def FilesTx.cascades (db : Db) : FilesTx → List LockKey
  | .deleteFile id _ _ => db.cascades [] [id]
  | .deleteTree _ _ folders files mirrors _ => db.cascades folders (files ++ mirrors)
  | _ => []

/-- The directory in which a row is shown that was not shown there, or not under that name. -/
def enters (old new : Option (Slot × DbText)) : List Slot :=
  match new with
  | some kn => if old = some kn then [] else [kn.1]
  | none => []

/-- The directories in which the writes make or rename a live entry. -/
def FilesTx.entered (db : Db) : FilesTx → List Slot
  | .addFile file _ => enters none file.shown
  | .addFolder folder _ _ => enters none folder.shown
  | .placeFile id file _ => enters (db.shown (.file id)) file.shown
  | .setFolder id _ folder _ _ => enters (db.shown (.folder id)) folder.shown
  | .trashFile id patch =>
    enters (db.shown (.file id)) ((db.files.get id).bind fun r => (patch.apply r).shown)
  | .reinsertFile _ file => enters none file.shown
  | .deleteFile .. | .deleteTree .. => []

end HomeCloud
