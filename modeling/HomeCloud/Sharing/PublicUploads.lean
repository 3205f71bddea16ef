import HomeCloud.Sharing.Links
import HomeCloud.Uploads.Completed

/-!
# Public uploads

The upload operations for a request with an upload link, which come with a proof.

* `PublicUploads.create`, `chunk`, `status`, `complete`, `abort`.
-/

namespace HomeCloud

open Concurrent

namespace PublicUploads

/-- The access of a request, whose proof has not expired. -/
def access (enabled : Bool) (token : ℕ) (proof : UploadProof) : Op PublicAccess := do
  assertPublicLegacy enabled
  verifyProof proof
  return ⟨token, proof⟩

def create (enabled : Bool) (nfc : JsString → JsString) (limits : UploadLimits) (token : ℕ)
    (proof : UploadProof) (key parentId : ℕ) (filename : JsString) (totalSize chunkSize : ℤ)
    (expectedSha256 : Option ℕ) : Op (ℕ × UploadSession) := do
  let access ← access enabled token proof
  assert (.badRequest "Invalid target or filename") (parentId ≠ 0)
  access.authorize parentId false
  let filename := trim (nfc filename)
  let request := PublicRequest.uploadSession proof.shareId proof.rootId parentId filename totalSize
    chunkSize expectedSha256
  createUploadSession enabled limits proof.userId filename totalSize chunkSize (some parentId)
    expectedSha256 (some ⟨access, key, request⟩)

def chunk (enabled : Bool) (token : ℕ) (proof : UploadProof) (id chunkIndex : ℕ) (data : Bytes) :
    Op Unit := do
  let access ← access enabled token proof
  uploadChunk enabled proof.userId id chunkIndex data (some access)

def status (enabled : Bool) (token : ℕ) (proof : UploadProof) (id : ℕ) : Op (List UploadChunk) := do
  let access ← access enabled token proof
  reconcileUploadSession enabled proof.userId id (some access)

def complete (enabled : Bool) (detect : Bytes → JsString) (token : ℕ) (proof : UploadProof)
    (id : ℕ) : Op Unit := do
  let access ← access enabled token proof
  completeUpload enabled detect proof.userId id (some access)

def abort (enabled : Bool) (token : ℕ) (proof : UploadProof) (id : ℕ) : Op Unit := do
  let access ← access enabled token proof
  abortUpload enabled proof.userId id (some access)

section

variable {t : ℕ} {w : World} {enabled : Bool} {token id : ℕ} {proof : UploadProof}

theorem access_safe : Safe contract t (access enabled token proof) w := by
  unfold access
  rw [Safe, wp_bind]
  refine wp_assert fun _ => ?_
  rw [wp_bind]
  exact wp_verifyProof fun _ _ _ _ _ => trivial

theorem create_safe {nfc : JsString → JsString} {limits : UploadLimits} {key parentId : ℕ}
    {filename : JsString} {totalSize chunkSize : ℤ} {expectedSha256 : Option ℕ} :
    Safe contract t (create enabled nfc limits token proof key parentId filename totalSize chunkSize
      expectedSha256) w := by
  refine Safe.bind access_safe fun access w₁ => ?_
  rw [Safe, wp_bind]
  refine wp_assert fun _ => ?_
  rw [wp_bind]
  exact wp_authorize fun w₂ _ _ => createUploadSession_safe

theorem chunk_safe {chunkIndex : ℕ} {data : Bytes} :
    Safe contract t (chunk enabled token proof id chunkIndex data) w :=
  Safe.bind access_safe fun _ _ => uploadChunk_safe

theorem status_safe : Safe contract t (status enabled token proof id) w :=
  Safe.bind access_safe fun _ _ => reconcileUploadSession_safe

theorem complete_safe {detect : Bytes → JsString} :
    Safe contract t (complete enabled detect token proof id) w :=
  Safe.bind access_safe fun _ _ => completeUpload_safe

theorem abort_safe : Safe contract t (abort enabled token proof id) w :=
  Safe.bind access_safe fun _ _ => abortUpload_safe

end

end PublicUploads

end HomeCloud
