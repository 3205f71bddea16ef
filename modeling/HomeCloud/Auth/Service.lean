import HomeCloud.Statements

/-!
# The sign-in operations

Login, refresh, logout and change of password as programs of statements.

* `login`, `refresh`, `logout`, `changePassword`.
* `findAndLockRefreshToken`, `revokeAllUserTokens`: the statements on refresh tokens.
-/

namespace HomeCloud

open Concurrent

/-- The password hashes: `hash` takes a secret and a salt. -/
structure Bcrypt where
  hash : ℕ → ℕ → ℕ
  compare : ℕ → ℕ → Bool

/-- A random number. -/
def fresh : Op ℕ := .pick fun n => .ret n

section Tokens

variable (b : Bcrypt) (lifetime userId : ℕ)

/-- A token of the user, signed now. -/
def newToken (now secret salt : ℕ) (parent : Option ℕ) (origin : ℕ) : RefreshToken where
  tokenHash := b.hash secret salt
  replacedBy := none
  revoked := false
  expiresAt := now + lifetime
  userId := userId
  parent := parent
  origin := origin

/-- Issues a token after a password check. -/
def generateTokens (origin : ℕ) : Op ℕ := do
  let secret ← fresh
  let salt ← fresh
  let now ← query (·.now)
  transaction do
    return (.auth (.addToken (newToken b lifetime userId now secret salt none origin)), secret)

def login (email password : ℕ) : Op ℕ := do
  let found ← query fun w =>
    (w.db.users.find fun _ r => r.email = email).map fun u => (u.1, u.2, w.signOuts u.1)
  let (userId, user, origin) ← require (.unauthorized "Invalid credentials") found
  assert (.unauthorized "Invalid credentials") user.isActive
  assert (.unauthorized "Invalid credentials") (b.compare password user.password)
  generateTokens b lifetime userId origin

/-- Looks for the token among those of the user and locks it. -/
def findAndLockRefreshToken (secret : ℕ) : Op (Option (ℕ × RefreshToken)) := do
  let found ← query fun w =>
    w.db.refreshTokens.find fun _ r => r.userId = userId && b.compare secret r.tokenHash
  match found with
  | some (id, _) => do
    let row ← lockToken id
    return row.map fun r => (id, r)
  | none => return none

/-- Locks the tokens one after the other. -/
def lockTokens : List ℕ → Op Unit
  | [] => pure ()
  | id :: ids => do
    let _ ← lockToken id
    lockTokens ids

/-- `UPDATE … SET revoked = true WHERE userId = … AND revoked = false`: finds the tokens there are
when it starts, and waits for those that are locked. -/
def revokeUserTokens : Op Tx := do
  let ids ← statement (.sweep userId) fun _ w => World.liveTokens w.db userId
  lockTokens ids
  return .auth (.revoke ids)

def revokeAllUserTokens : Op Unit :=
  transaction do
    let tx ← revokeUserTokens userId
    return (tx, ())

/-- The tokens of the user are reported as revoked. -/
def reportSignOut : Op Unit := statement (.signOut userId) fun _ _ => ()

/-- Exchanges a refresh token for a new one. -/
def refresh (refreshToken : Option ℕ) : Op ℕ := do
  let result ← transaction do
    let user ← query fun w => w.db.users.get userId
    assert (.unauthorized "Invalid user") (user.any (·.isActive))
    let presented ← require (.unauthorized "Invalid refresh token") refreshToken
    let found ← findAndLockRefreshToken b userId presented
    let (id, storedToken) ← require (.unauthorized "Invalid refresh token") found
    let now ← query (·.now)
    assert (.unauthorized "Refresh token expired") (now ≤ storedToken.expiresAt)
    if storedToken.revoked then do
      let tx ← revokeUserTokens userId
      return (tx, none)
    else do
      let secret ← fresh
      let salt ← fresh
      let current ← lockToken id
      -- `UPDATE … WHERE id = … AND revoked = false` finds no row when the token has been revoked.
      if current.any (!·.revoked) then
        return (.auth (.rotate id
          (newToken b lifetime userId now secret salt (some id) storedToken.origin)), some secret)
      else do
        let tx ← revokeUserTokens userId
        return (tx, none)
  match result with
  | some secret => return secret
  | none => do
    reportSignOut userId
    throw (.unauthorized "Refresh token was reused")

/-- The last token in the chain of replacements, none when the chain breaks off or comes back. The
first argument bounds the rounds of the loop. -/
def lastReplacement :
    ℕ → List ℕ → ℕ × RefreshToken → Op (Option (ℕ × RefreshToken))
  | 0, _, _ => throw (.database .connectionLost)
  | n + 1, visitedHashes, (id, storedToken) =>
    match storedToken.replacedBy with
    | none => return some (id, storedToken)
    | some hash =>
      if hash ∈ visitedHashes then return none
      else do
        let found ← query fun w =>
          w.db.refreshTokens.find fun _ r => r.tokenHash = hash && r.userId = userId
        match found with
        | none => return none
        | some (next, _) => do
          let row ← lockToken next
          match row with
          | none => return none
          | some replacement => lastReplacement n (hash :: visitedHashes) (next, replacement)

def logout (refreshToken : Option ℕ) : Op Unit :=
  match refreshToken with
  | none => pure ()
  | some presented => do
    let rounds ← fresh
    transaction do
      let initialToken ← findAndLockRefreshToken b userId presented
      match initialToken with
      | none => return (.none, ())
      | some stored => do
        let last ← lastReplacement userId rounds [] stored
        match last with
        | some (id, storedToken) =>
          if storedToken.revoked then return (.none, ()) else return (.auth (.revoke [id]), ())
        | none => return (.none, ())

/-- `save` of a user entity: reloads the row and writes the columns that differ from the entity.
Users are not deleted. -/
def saveUser (user : User) : Op Unit :=
  transaction do
    let row ← query fun w => w.db.users.get userId
    let row ← require (.database .constraint) row
    let _ ← lockUser userId
    return (.auth (.saveUser userId (user.diff row)), ())

def changePassword (oldPassword newPassword : ℕ) : Op Unit := do
  let found ← query fun w => w.db.users.get userId
  let user ← require (.unauthorized "User not found") found
  assert (.unauthorized "Current password is incorrect") (b.compare oldPassword user.password)
  let salt ← fresh
  saveUser userId { user with password := b.hash newPassword salt }
  revokeAllUserTokens userId
  reportSignOut userId

end Tokens

end HomeCloud
