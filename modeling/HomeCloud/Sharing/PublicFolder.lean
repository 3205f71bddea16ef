import HomeCloud.Files.Tree
import HomeCloud.Statements
import Mathlib.Data.List.Sort

/-!
# Public folders

What a visitor with an upload link may do: the authorization of each step, and the creation of
folders below the shared one.

* `livePath`, `lockLivePath`: the live folders from a target up to the root, and their locks.
* `Db.uploadLink`, `authorizeUpload`: the link, which has to be live and as the proof says.
* `PublicFolder.createFolder`.
-/

namespace HomeCloud

open Concurrent

/-! ## Live paths -/

/-- The live folders from the target to the root, among which is the shared one. -/
def livePath (userId targetId rootId : ℕ) : Op (List ℕ) := do
  let rows ← query fun w => w.db.ancestors userId 128 [] targetId
  assert (.notFound "Folder unavailable") (rootId ∈ rows.map (·.1) && rows.any (·.2 = none))
  return rows.map (·.1)

/-- Locks the folders one after the other. -/
def lockFolders : List ℕ → Op Unit
  | [] => pure ()
  | id :: ids => do
    let _ ← lockFolder id
    lockFolders ids

/-- Locks the live path and checks that it still is one. -/
def lockLivePath (userId targetId rootId : ℕ) : Op Unit := do
  let ids ← livePath userId targetId rootId
  lockFolders (ids.insertionSort (· ≤ ·))
  let _ ← livePath userId targetId rootId

/-! ## Authorization -/

/-- The payload of a proof. Only payloads that the server has signed get here. -/
structure UploadProof where
  shareId : ℕ
  rootId : ℕ
  userId : ℕ
  expires : ℕ
  deriving DecidableEq

def verifyProof (proof : UploadProof) : Op Unit := do
  let now ← statement (.check proof.expires) fun _ w => w.now
  assert (.forbidden "Public folder authorization expired or invalid") (now < proof.expires)

/-- The link with the token and the folder it shares, while uploads are allowed and both are live. -/
def Db.uploadLink (db : Db) (token now : ℕ) : Option (ℕ × ShareLink × ℕ) := do
  let (id, link) ← db.shareLinks.find fun _ r => r.token = token
  let mirror ← db.files.get link.fileId
  let root ← mirror.folderId
  let folder ← db.folders.get root
  let owner ← db.users.get link.userId
  if link.isActive && link.allowUpload && link.isFolder && link.expiresAt.all (now < ·) &&
      mirror.userId = link.userId && mirror.isFolder && !mirror.isDeleted &&
      folder.userId = link.userId && !folder.isDeleted && owner.isActive then
    some (id, link, root)
  else none

/-- The link as the proof says. -/
def provenLink (proof : UploadProof) (link : Option (ℕ × ShareLink × ℕ)) :
    Option (ℕ × ShareLink × ℕ) :=
  link.filter fun l => l.1 = proof.shareId && l.2.1.userId = proof.userId && l.2.2 = proof.rootId

/-- The link, locked. After a wait the lock sees the row anew, and the other rows as they were. -/
def lockUploadLink (token : ℕ) (proof : UploadProof) : Op (ℕ × ShareLink × ℕ) := do
  let (view, now) ← query fun w => (w.db, w.now)
  let (id, _) ← require (.notFound "Share link unavailable")
    (provenLink proof (view.uploadLink token now))
  let link ← selectForUpdate (.link id) fun db =>
    { view with shareLinks := db.shareLinks }.uploadLink token now
  require (.notFound "Share link unavailable") (provenLink proof link)

def authorizeUpload (token : ℕ) (proof : UploadProof) (parentId : ℕ) (lock : Bool) : Op Unit := do
  verifyProof proof
  if lock then do
    let _ ← lockUploadLink token proof
    lockLivePath proof.userId parentId proof.rootId
  else do
    let link ← query fun w => w.db.uploadLink token w.now
    let _ ← require (.notFound "Share link unavailable") (provenLink proof link)
    let _ ← livePath proof.userId parentId proof.rootId

/-! ## Creating folders -/

namespace PublicFolder

/-- The check of a requested folder name, which is normalized by `nfc` first. -/
def validateName (nfc : JsString → JsString) (value : JsString) : Option JsString :=
  let name := trim (nfc value)
  if name.isEmpty || name == [0x2E] || name == [0x2E, 0x2E] || name.length > 255 ||
      name.any (fun c => c == 0x2F || c == 0x5C) ||
      name.any (fun c => c < 32 || (127 ≤ c && c ≤ 159)) then none
  else some name

/-- What the response says: the folder, unless it is only now created, its parent and its name. -/
structure CreatedFolder where
  id : Option ℕ
  parentId : ℕ
  name : DbText

/-- The folder an earlier request with the same key has created. -/
def replay (userId rootId parentId now : ℕ) (request : PublicRequest)
    (prior : PublicShareOperation) : Op (Tx × CreatedFolder) := do
  assert (.conflict "Idempotency key already used")
    (prior.request = request && now < prior.expiresAt)
  let id ← require (.notFound "Folder unavailable") prior.resultFolderId
  lockLivePath userId id rootId
  let existing ← query fun w =>
    (w.db.folders.get id).filter fun r => r.userId = userId && !r.isDeleted
  let folder ← require (.notFound "Folder unavailable") existing
  assert (.conflict "Created folder moved; tree resume requires review")
    (folder.parentId = some parentId)
  return (.none, ⟨some id, parentId, folder.name⟩)

def createFolder (nfc : JsString → JsString) (token : ℕ) (proof : UploadProof) (key parentId : ℕ)
    (name : JsString) : Op CreatedFolder := do
  verifyProof proof
  let name ← require (.badRequest "Invalid folder name") (validateName nfc name)
  let request := PublicRequest.mkdir proof.shareId proof.rootId parentId name
  transaction do
    let _ ← lockUser proof.userId
    let (linkId, link, root) ← lockUploadLink token proof
    lockLivePath link.userId parentId root
    let (now, prior) ← query fun w => (w.now, w.db.publicShareOperations.find fun _ r =>
      r.shareLinkId = some linkId && r.request.isMkdir && r.idempotencyKey = key)
    match prior with
    | some (_, prior) => replay link.userId root parentId now request prior
    | none => do
      let used ← query fun w => (w.db.publicShareOperations.select fun _ r =>
        r.shareLinkId = some linkId).length
      assert (.tooManyRequests "Public folder creation limit reached") (used < 1000)
      let choice ← allocateNamespaceName link.userId (some parentId) name .folder none none
      -- The folder is inserted only while the link is live; the proof is not looked at again.
      let live ← statement (.check proof.expires) fun _ w => (w.db.shareLinks.get linkId).any fun r =>
        r.isActive && r.allowUpload && r.expiresAt.all (w.now < ·)
      assert (.notFound "Share link unavailable") live
      let folder : Folder := {
        name := .ofJs choice.chosen
        parentId := some parentId
        userId := link.userId
        isDeleted := false
        deletedAt := none }
      let receipt : PublicShareOperation := {
        shareLinkId := some linkId
        shareRootFolderId := some root
        userId := link.userId
        idempotencyKey := key
        request := request
        resultFolderId := none
        resultUploadSessionId := none
        expiresAt := now + 86400000 }
      return (.files (.addFolder folder (some receipt) choice),
        ⟨none, parentId, .ofJs choice.chosen⟩)

end PublicFolder

end HomeCloud
