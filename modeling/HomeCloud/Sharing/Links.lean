import HomeCloud.Auth.Service
import HomeCloud.Rules

/-!
# The links of shares

* `createShareLink`, `revokeShare`: the owner's operations on a link.
* `cleanupReceipts`: the removal of expired receipts.
* **`revokeShare_safe`**: only a locked link is revoked.
-/

namespace HomeCloud

open Concurrent

/-! ## Operations -/

/-- What may be shared as a file. -/
structure ShareLimits where
  maxShareSize : ℕ
  allowedShareMimeTypes : List JsString

/-- The options of a request for a link. -/
structure ShareOptions where
  password : Option ℕ
  expiresInDays : Option ℕ
  isFolder : Option Bool
  allowUpload : Option Bool

def createShareLink (b : Bcrypt) (limits : ShareLimits) (userId fileId : ℕ)
    (options : ShareOptions) : Op ShareLink := do
  let found ← query fun w => (w.db.files.get fileId).filter fun r => r.userId = userId && !r.isDeleted
  let file ← require (.notFound "File not found") found
  assert (.badRequest "Cannot share folder as file")
    !(file.isFolder && options.isFolder = some false)
  assert (.badRequest "Cannot share file as folder")
    !(!file.isFolder && options.isFolder = some true)
  assert (.badRequest "Only folders can allow public uploads")
    !(options.allowUpload = some true && !file.isFolder)
  assert (.badRequest "File exceeds maximum shareable size")
    (file.isFolder || file.size ≤ limits.maxShareSize)
  assert (.badRequest "File type is not allowed for sharing")
    (file.isFolder || file.mimeType.any (· ∈ limits.allowedShareMimeTypes))
  let user ← query fun w => w.db.users.get userId
  assert (.notFound "User not found") (user.any (·.isActive))
  let token ← fresh
  let now ← query (·.now)
  let salt ← fresh
  let shareLink : ShareLink := {
    token := token
    password := options.password.map fun password => b.hash password salt
    expiresAt := some (now + options.expiresInDays.getD 7 * 86400000)
    lockedUntil := none
    isActive := true
    failedAttempts := 0
    isFolder := options.isFolder.getD file.isFolder
    allowUpload := options.allowUpload.getD false
    userId := userId
    fileId := fileId }
  transaction do
    return (.sharing (.addLink shareLink), shareLink)

/-- A link that is gone by the time it is saved cannot be inserted again without its file. -/
def revokeShare (userId shareId : ℕ) : Op Unit := do
  let share ← query fun w => (w.db.shareLinks.get shareId).filter (·.userId = userId)
  let _ ← require (.notFound "Share link not found") share
  transaction do
    let row ← lockLink shareId
    let _ ← require (.database .constraint) row
    return (.sharing (.revokeLink shareId), ())

/-- The receipts that expired first, at most a thousand. -/
def Db.expiredReceipts (db : Db) (now : ℕ) : List ℕ :=
  let expiry (i : ℕ) : ℕ := (db.publicShareOperations.get i).elim 0 (·.expiresAt)
  ((db.publicShareOperations.select fun _ r => r.expiresAt < now).insertionSort
    fun i j => expiry i ≤ expiry j).take 1000

def cleanupReceipts : Op Unit :=
  transaction do
    let expired ← query fun w => w.db.expiredReceipts w.now
    return (.sharing (.dropReceipts expired), ())

/-! ## The contract -/

section

variable {t : ℕ} {w : World} {userId : ℕ}

theorem wp_lockLink {id : ℕ} {Q : Option ShareLink → World → Prop}
    (h : ∀ w' r, Rely t w w' → Inv w' → w'.db.shareLinks.get id = r →
      (r.isSome → w'.locks (.link id) = some t) → Q r w') :
    After t (lockLink id) Q w :=
  wp_selectForUpdate fun w' hr hi hk =>
    h w' _ hr hi rfl fun hs => hk (by rwa [Db.row, Option.isSome_map])

theorem createShareLink_safe {b : Bcrypt} {limits : ShareLimits} {fileId : ℕ}
    {options : ShareOptions} : Safe contract t (createShareLink b limits userId fileId options) w := by
  unfold createShareLink
  rw [Safe, wp_bind]
  refine wp_query fun w₁ _ _ => ?_
  rw [wp_bind]
  refine wp_require fun file _ => ?_
  rw [wp_bind]
  refine wp_assert fun _ => ?_
  rw [wp_bind]
  refine wp_assert fun _ => ?_
  rw [wp_bind]
  refine wp_assert fun _ => ?_
  rw [wp_bind]
  refine wp_assert fun _ => ?_
  rw [wp_bind]
  refine wp_assert fun _ => ?_
  rw [wp_bind]
  refine wp_query fun w₂ _ _ => ?_
  rw [wp_bind]
  refine wp_assert fun _ => ?_
  rw [wp_bind]
  intro token
  rw [wp_ret, wp_bind]
  refine wp_query fun w₃ _ _ => ?_
  rw [wp_bind]
  intro salt
  rw [wp_ret]
  exact wp_transaction (.intro fun _ _ _ _ => trivial)

/-- **Only a locked link is revoked.** -/
theorem revokeShare_safe {shareId : ℕ} : Safe contract t (revokeShare userId shareId) w := by
  unfold revokeShare
  rw [Safe, wp_bind]
  refine wp_query fun w₁ _ _ => ?_
  rw [wp_bind]
  refine wp_require fun share _ => wp_transaction ?_
  rw [After, wp_bind]
  refine wp_lockLink fun w₂ row _ _ _ hl => ?_
  rw [wp_bind]
  refine wp_require fun link hlink => .intro fun w₃ h₃ _ _ => ?_
  exact h₃.keeps.locks _ (hl (hlink ▸ rfl))

theorem cleanupReceipts_safe : Safe contract t cleanupReceipts w := by
  unfold cleanupReceipts
  refine wp_transaction ?_
  rw [After, wp_bind]
  exact wp_query fun _ _ _ => .intro fun _ _ _ _ => trivial

end

end HomeCloud
