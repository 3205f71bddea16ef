import HomeCloud.Concurrent.Table
import HomeCloud.Text

/-!
# The database

The tables the services share, row types named after the entities, with the columns that the
modelled statements read or write.

* `Db`, `Db.empty`: the tables.
* `Db.Named`: the live entries of a directory with their names, a folder and its mirror being one
  entry.
* `Db.usage`: the bytes of a user's ordinary files.
-/

namespace HomeCloud

open Concurrent

/-! ## Rows -/

/-- A row of `users`. -/
structure User where
  email : ℕ
  password : ℕ
  isActive : Bool
  storageUsed : ℤ
  storageQuota : ℕ
  deriving DecidableEq

/-- A row of `folders`. -/
structure Folder where
  name : DbText
  parentId : Option ℕ
  userId : ℕ
  isDeleted : Bool
  deletedAt : Option ℕ
  deriving DecidableEq

/-- The key of an object: that of a new file or a copy, that of an attempt to assemble an upload
(of the upload itself before there were attempts), or that of a finalization operation. -/
inductive ObjectKey where
  | object (n : ℕ)
  | assembled (uploadId : ℕ) (attempt : Option ℕ)
  | finalized (userId operationId : ℕ)
  deriving DecidableEq

/-- The object of an ordinary file: a storage location and a key in it. -/
structure Placement where
  storageLocationId : ℕ
  relativeObjectKey : ObjectKey
  deriving DecidableEq

/-- A row of `files`: an ordinary file, or the mirror of a folder. -/
structure File where
  name : DbText
  placement : Option Placement
  size : ℕ
  mimeType : Option JsString
  checksum : Option ℕ
  isFolder : Bool
  isDeleted : Bool
  deletedAt : Option ℕ
  parentId : Option ℕ
  folderId : Option ℕ
  uploadId : Option ℕ
  userId : ℕ
  deriving DecidableEq

/-- A row of `share_links`. Times are in milliseconds. -/
structure ShareLink where
  token : ℕ
  password : Option ℕ
  expiresAt : Option ℕ
  lockedUntil : Option ℕ
  isActive : Bool
  failedAttempts : ℕ
  isFolder : Bool
  allowUpload : Bool
  userId : ℕ
  fileId : ℕ
  deriving DecidableEq

/-- A request for a public folder or a public upload; its digest stands for it. -/
inductive PublicRequest where
  | mkdir (shareId rootId parentId : ℕ) (name : JsString)
  | uploadSession (shareId rootId parentId : ℕ) (filename : JsString) (totalSize chunkSize : ℤ)
      (expectedSha256 : Option ℕ)
  deriving DecidableEq

def PublicRequest.isMkdir : PublicRequest → Bool
  | .mkdir .. => true
  | .uploadSession .. => false

/-- A row of `public_share_operations`, the receipt of a public request. -/
structure PublicShareOperation where
  shareLinkId : Option ℕ
  shareRootFolderId : Option ℕ
  userId : ℕ
  idempotencyKey : ℕ
  request : PublicRequest
  resultFolderId : Option ℕ
  resultUploadSessionId : Option ℕ
  expiresAt : ℕ
  deriving DecidableEq

/-- A row of `refresh_tokens`. No statement reads the last two columns: `parent` is the token it was
issued for, and `origin` counts the sign-outs of the user before the password check it goes back
to. -/
structure RefreshToken where
  tokenHash : ℕ
  replacedBy : Option ℕ
  revoked : Bool
  expiresAt : ℕ
  userId : ℕ
  parent : Option ℕ
  origin : ℕ
  deriving DecidableEq

/-- A row of `upload_chunks`, less its session. -/
structure UploadChunk where
  chunkIndex : ℕ
  byteSize : ℕ
  sha256 : ℕ
  deriving DecidableEq

inductive UploadStatus where
  | pending
  | uploading
  | completed
  | aborted
  deriving DecidableEq

inductive UploadWorkspace where
  | legacy
  | ssd
  deriving DecidableEq

inductive UploadOrigin where
  | owner
  | «public»
  deriving DecidableEq

/-- A row of `upload_sessions` with its rows of `upload_chunks`. Its number is its `uploadId` too,
since neither is issued twice. -/
structure UploadSession where
  filename : DbText
  totalSize : ℕ
  uploadedSize : ℕ
  chunkSize : ℕ
  totalChunks : ℕ
  uploadedCount : ℕ
  accountingInitialized : Bool
  expectedSha256 : Option ℕ
  workspaceId : UploadWorkspace
  parentId : Option ℕ
  origin : UploadOrigin
  shareLinkId : Option ℕ
  shareRootFolderId : Option ℕ
  status : UploadStatus
  expiresAt : ℕ
  userId : ℕ
  chunks : List UploadChunk
  deriving DecidableEq

/-- The session can still be completed. -/
def UploadSession.active (s : UploadSession) : Bool := s.status = .pending || s.status = .uploading

/-- A file on a device. -/
structure ArtifactIdentity where
  device : ℕ
  inode : ℕ
  deriving DecidableEq

/-- Where a finalization reads and writes: the directory of the session, the object, whose temporary
file lies next to it, and the identities of the roots and the directories. -/
structure FinalizationBinding where
  sourcePath : ℕ
  target : Placement
  sourceRoot : ArtifactIdentity
  targetRoot : ArtifactIdentity
  sourceDirectory : ArtifactIdentity
  targetDirectory : ArtifactIdentity
  deriving DecidableEq

inductive FinalizationState where
  | assembling
  | verified
  | publishing
  | published
  | committed
  deriving DecidableEq

inductive CleanupState where
  | pending
  | cleaned
  deriving DecidableEq

/-- A row of `ssd_finalization_operations` with its rows of `ssd_finalization_chunks`. -/
structure FinalizationOperation where
  sessionId : ℕ
  userId : ℕ
  filename : DbText
  parentId : Option ℕ
  totalSize : ℕ
  chunkSize : ℕ
  totalChunks : ℕ
  expectedSha256 : ℕ
  binding : FinalizationBinding
  state : FinalizationState
  fileId : Option ℕ
  targetIdentity : Option ArtifactIdentity
  cleanupState : CleanupState
  mimeType : JsString
  mimeTypeCheckpointed : Bool
  chunks : List UploadChunk
  deriving DecidableEq

/-! ## Tables -/

/-- The tables. -/
structure Db where
  users : Table User
  folders : Table Folder
  files : Table File
  shareLinks : Table ShareLink
  publicShareOperations : Table PublicShareOperation
  refreshTokens : Table RefreshToken
  uploadSessions : Table UploadSession
  finalizationOperations : Table FinalizationOperation

/-- No rows but the given users. -/
def Db.empty (users : Table User) : Db where
  users := users
  folders := .empty
  files := .empty
  shareLinks := .empty
  publicShareOperations := .empty
  refreshTokens := .empty
  uploadSessions := .empty
  finalizationOperations := .empty

/-! ## Rows and locks -/

/-- The rows that statements lock. -/
inductive LockKey where
  | user (id : ℕ)
  | folder (id : ℕ)
  | file (id : ℕ)
  | link (id : ℕ)
  | token (id : ℕ)
  | session (id : ℕ)
  | operation (id : ℕ)
  deriving DecidableEq

/-- A row of one of these tables. -/
inductive Row where
  | user (r : User)
  | folder (r : Folder)
  | file (r : File)
  | link (r : ShareLink)
  | token (r : RefreshToken)
  | session (r : UploadSession)
  | operation (r : FinalizationOperation)
  deriving DecidableEq

/-- The row with the key `k`. -/
def Db.row (db : Db) : LockKey → Option Row
  | .user id => (db.users.get id).map .user
  | .folder id => (db.folders.get id).map .folder
  | .file id => (db.files.get id).map .file
  | .link id => (db.shareLinks.get id).map .link
  | .token id => (db.refreshTokens.get id).map .token
  | .session id => (db.uploadSessions.get id).map .session
  | .operation id => (db.finalizationOperations.get id).map .operation

section Rows

variable {db : Db} {id : ℕ}

theorem row_user {r : User} : db.row (.user id) = some (.user r) ↔ db.users.get id = some r := by
  simp [Db.row]

theorem row_folder {r : Folder} :
    db.row (.folder id) = some (.folder r) ↔ db.folders.get id = some r := by
  simp [Db.row]

theorem row_file {r : File} : db.row (.file id) = some (.file r) ↔ db.files.get id = some r := by
  simp [Db.row]

theorem row_token {r : RefreshToken} :
    db.row (.token id) = some (.token r) ↔ db.refreshTokens.get id = some r := by
  simp [Db.row]

theorem row_session {r : UploadSession} :
    db.row (.session id) = some (.session r) ↔ db.uploadSessions.get id = some r := by
  simp [Db.row]

theorem row_operation {r : FinalizationOperation} :
    db.row (.operation id) = some (.operation r) ↔ db.finalizationOperations.get id = some r := by
  simp [Db.row]

end Rows

/-! ## Directories -/

/-- A directory: the owner and the parent folder, `none` for the root. -/
structure Slot where
  userId : ℕ
  parentId : Option ℕ
  deriving DecidableEq

/-- An entry of a directory. A mirror is no entry of its own. -/
inductive Entry where
  | file (id : ℕ)
  | folder (id : ℕ)
  deriving DecidableEq

/-- The directory a folder is shown in. -/
def Folder.slot (r : Folder) : Slot := ⟨r.userId, r.parentId⟩

/-- The directory a file is shown in. -/
def File.slot (r : File) : Slot := ⟨r.userId, r.parentId⟩

/-- Where and under which name a file is shown, if it is an ordinary live file. -/
def File.shown (r : File) : Option (Slot × DbText) :=
  if r.isFolder || r.isDeleted then none else some (r.slot, r.name)

/-- Where and under which name a folder is shown, if it is live. -/
def Folder.shown (r : Folder) : Option (Slot × DbText) :=
  if r.isDeleted then none else some (r.slot, r.name)

/-- Where and under which name an entry is shown. -/
def Db.shown (db : Db) : Entry → Option (Slot × DbText)
  | .file i => (db.files.get i).bind File.shown
  | .folder i => (db.folders.get i).bind Folder.shown

/-- The entry `e` is live in the directory `k` under the name `n`. -/
def Db.Named (db : Db) (k : Slot) (e : Entry) (n : DbText) : Prop := db.shown e = some (k, n)

instance (db : Db) (k : Slot) (e : Entry) (n : DbText) : Decidable (db.Named k e n) :=
  inferInstanceAs (Decidable (_ = _))

/-- No two live entries of a directory have the same name. -/
def Db.NamesUnique (db : Db) : Prop :=
  ∀ k e e' n, db.Named k e n → db.Named k e' n → e = e'

/-! ## Storage -/

/-- What a file row counts for in the usage of `u`. -/
def File.charge (u : ℕ) (r : File) : ℕ := if r.userId = u ∧ r.isFolder = false then r.size else 0

/-- The bytes of the ordinary files of `u`, trashed ones included. -/
def Db.usage (db : Db) (u : ℕ) : ℕ := db.files.total fun _ r => r.charge u

end HomeCloud
