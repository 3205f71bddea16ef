import HomeCloud.Schema

/-!
# What the sharing service writes

* `SharingTx`, `SharingTx.apply`, `SharingTx.allowed`: the writes of the sharing service and the
  constraints checked on them.
-/

namespace HomeCloud

open Concurrent

/-- The rows the sharing service writes. -/
inductive SharingTx where
  | addLink (link : ShareLink)
  | revokeLink (id : ℕ)
  | dropReceipts (ids : List ℕ)

/-- The database after the writes. -/
def SharingTx.apply (db : Db) : SharingTx → Db
  | .addLink link => { db with shareLinks := db.shareLinks.insert link }
  | .revokeLink id =>
    { db with
      shareLinks := db.shareLinks.map fun i r => if i = id then { r with isActive := false } else r }
  | .dropReceipts ids =>
    { db with publicShareOperations := db.publicShareOperations.eraseAll ids }

/-- The constraints that a commit of the writes has to meet. -/
def SharingTx.allowed (db : Db) : SharingTx → Bool
  | .addLink link => (db.files.get link.fileId).isSome &&
    (db.shareLinks.find fun _ r => r.token = link.token).isNone
  | _ => true

end HomeCloud
