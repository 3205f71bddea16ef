import HomeCloud.Schema

/-!
# What the sign-in operations write

* `UserPatch`: the columns a `save` of a user entity found changed.
* `AuthTx`, `AuthTx.apply`, `AuthTx.allowed`: the writes and the constraints checked on them.
-/

namespace HomeCloud

open Concurrent

/-- The columns a `save` of a user entity found changed. -/
structure UserPatch where
  email : Option ℕ
  password : Option ℕ
  isActive : Option Bool
  storageUsed : Option ℤ
  storageQuota : Option ℕ
  deriving DecidableEq

/-- The row with the changed columns written. -/
def UserPatch.apply (p : UserPatch) (r : User) : User where
  email := p.email.getD r.email
  password := p.password.getD r.password
  isActive := p.isActive.getD r.isActive
  storageUsed := p.storageUsed.getD r.storageUsed
  storageQuota := p.storageQuota.getD r.storageQuota

/-- The columns in which the entity differs from the row. -/
def User.diff (entity row : User) : UserPatch where
  email := if entity.email = row.email then none else some entity.email
  password := if entity.password = row.password then none else some entity.password
  isActive := if entity.isActive = row.isActive then none else some entity.isActive
  storageUsed := if entity.storageUsed = row.storageUsed then none else some entity.storageUsed
  storageQuota := if entity.storageQuota = row.storageQuota then none else some entity.storageQuota

/-- The rows a sign-in operation writes. `rotate` revokes the token `id` for the new one. -/
inductive AuthTx where
  | saveUser (id : ℕ) (patch : UserPatch)
  | addToken (token : RefreshToken)
  | rotate (id : ℕ) (token : RefreshToken)
  | revoke (ids : List ℕ)

/-- The tokens with those in `ids` revoked. -/
def revokeTokens (tokens : Table RefreshToken) (ids : List ℕ) : Table RefreshToken :=
  tokens.map fun i r => if i ∈ ids then { r with revoked := true } else r

/-- The tokens with `id` revoked and replaced by `token`. -/
def rotateToken (tokens : Table RefreshToken) (id : ℕ) (token : RefreshToken) :
    Table RefreshToken :=
  (tokens.map fun i r =>
    if i = id then { r with revoked := true, replacedBy := some token.tokenHash } else r).insert token

/-- The database after the writes. -/
def AuthTx.apply (db : Db) : AuthTx → Db
  | .saveUser id patch =>
    { db with users := db.users.map fun i r => if i = id then patch.apply r else r }
  | .addToken token => { db with refreshTokens := db.refreshTokens.insert token }
  | .rotate id token => { db with refreshTokens := rotateToken db.refreshTokens id token }
  | .revoke ids => { db with refreshTokens := revokeTokens db.refreshTokens ids }

/-- No other token has the hash. -/
def Db.hashFree (db : Db) (hash : ℕ) : Bool :=
  (db.refreshTokens.select fun _ r => r.tokenHash = hash).isEmpty

/-- The constraints that a commit of the writes has to meet. -/
def AuthTx.allowed (db : Db) : AuthTx → Bool
  | .addToken token | .rotate _ token =>
    db.hashFree token.tokenHash && (db.users.get token.userId).isSome
  | _ => true

end HomeCloud
