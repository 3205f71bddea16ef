import HomeCloud.Auth.Writes
import HomeCloud.Journal.Triggers
import HomeCloud.Journal.Writes
import HomeCloud.Sharing.Writes
import HomeCloud.Uploads.Disk
import HomeCloud.Uploads.Writes

/-!
# The shared state and the statements

The state the services share: the database, the row and advisory locks of the open connections, and
the files. A transaction reads and locks rows statement by statement and writes when it commits.

* `Tx`: the writes of all services.
* `World`: the state, with what the proofs record of the open transactions.
* `Instr`, `Instr.perform`, `Instr.exec`: the statements, and what they do on a lost connection.
-/

namespace HomeCloud

open Concurrent

/-! ## Writes of all services -/

/-- What a transaction writes. -/
inductive Tx where
  | none
  | files (tx : FilesTx)
  | auth (tx : AuthTx)
  | uploads (tx : UploadsTx)
  | journal (tx : JournalTx)
  | sharing (tx : SharingTx)

/-- The database after the writes. -/
def Tx.apply (db : Db) : Tx → Db
  | .none => db
  | .files tx => tx.apply db
  | .auth tx => tx.apply db
  | .uploads tx => tx.apply db
  | .journal tx => tx.apply db
  | .sharing tx => tx.apply db

/-- The constraints that a commit of the writes has to meet. -/
def Tx.constraints (db : Db) : Tx → Bool
  | .none => true
  | .files tx => tx.allowed db
  | .auth tx => tx.allowed db
  | .uploads tx => tx.allowed db
  | .journal tx => tx.allowed db
  | .sharing tx => tx.allowed db

/-- The constraints and triggers that a commit of the writes has to pass. -/
def Tx.allowed (db : Db) (tx : Tx) : Bool := tx.constraints db && db.triggers (tx.apply db)

/-- The rows that the writes change by cascade. -/
def Tx.cascades (db : Db) : Tx → List LockKey
  | .files tx => tx.cascades db
  | _ => []

/-- The directories in which the writes make or rename a live entry. -/
def Tx.entered (db : Db) : Tx → List Slot
  | .files tx => tx.entered db
  | .uploads tx => tx.entered
  | .journal tx => tx.entered
  | _ => []

/-! ## The shared state -/

/-- The advisory locks on a session: one connection that assembles it, or transactions on it.
`attempt` is the attempt of the assembling connection. -/
structure Fence where
  exclusive : Option ℕ
  attempt : Option ℕ
  shared : List ℕ

/-- The shared state. `lost t` says that the connection of `t` has broken and `t` does not know yet.
No statement reads the other fields from `window` on: `window t` is the name that the open
transaction of `t` has chosen, `reserved k` the last thread to read the names of `k` with no entry
made or renamed there since, `seen i` the last row of the file `i` and `erased i` whether the row has
been deleted, `sweeping t` the user whose tokens `t` is revoking with those it has found,
`signOuts u` how often `u` has been signed out everywhere, `admitted s` the folder the session `s`
was created for, `checked t` when `t` last checked an upload link and when the proof for it expires,
and `torn s` and `stray s` whether the chunk files of `s` have been changed or an object linked by a
thread that did not have the session locked. -/
structure World where
  db : Db
  locks : LockKey → Option ℕ
  fences : ℕ → Fence
  disk : Disk
  now : ℕ
  lost : ℕ → Bool
  window : ℕ → Option NameChoice
  reserved : Slot → Option ℕ
  seen : ℕ → Option File
  erased : ℕ → Bool
  sweeping : ℕ → Option (ℕ × List ℕ)
  signOuts : ℕ → ℕ
  admitted : ℕ → Option ℕ
  checked : ℕ → Option (ℕ × ℕ)
  torn : ℕ → Bool
  stray : ℕ → Bool

/-- No locks, no open transactions, no files. -/
def World.initial (db : Db) : World where
  db := db
  locks := fun _ => none
  fences := fun _ => ⟨none, none, []⟩
  disk := .empty
  now := 0
  lost := fun _ => false
  window := fun _ => none
  reserved := fun _ => none
  seen := db.files.get
  erased := fun _ => false
  sweeping := fun _ => none
  signOuts := fun _ => 0
  admitted := fun s => (db.uploadSessions.get s).bind (·.parentId)
  checked := fun _ => none
  torn := fun _ => false
  stray := fun _ => false

namespace World

/-- Locks the row, unless there is none. -/
def lock (w : World) (k : LockKey) (t : ℕ) : World :=
  if (w.db.row k).isSome then { w with locks := fun k' => if k' = k then some t else w.locks k' }
  else w

/-- Ends the transaction of `t`. -/
def release (w : World) (t : ℕ) : World :=
  { w with
    locks := fun k => if w.locks k = some t then none else w.locks k
    fences := fun s => { w.fences s with shared := (w.fences s).shared.filter (· ≠ t) }
    window := fun t' => if t' = t then none else w.window t' }

/-- Gives up the assembly locks of `t`. -/
def unfence (w : World) (t : ℕ) : World :=
  { w with
    fences := fun s =>
      if (w.fences s).exclusive = some t then
        { w.fences s with exclusive := none, attempt := none }
      else w.fences s }

/-- Whether `t` gets the advisory lock it tries to take. -/
def fenceFree (w : World) (session : ℕ) (exclusive : Bool) (t : ℕ) : Bool :=
  (w.fences session).exclusive.all (· = t) &&
    (!exclusive || (w.fences session).shared.all (· = t))

def takeFence (w : World) (session : ℕ) (exclusive : Bool) (t : ℕ) : World :=
  if w.fenceFree session exclusive t then
    { w with
      fences := fun s =>
        if s = session then
          if exclusive then { w.fences s with exclusive := some t, attempt := none }
          else { w.fences s with shared := t :: (w.fences s).shared }
        else w.fences s }
  else w

/-- Reads the names of a directory and chooses one. -/
def readNames (w : World) (q : NameQuery) (t : ℕ) : World :=
  { w with
    window := fun t' => if t' = t then q.choose w.db else w.window t'
    reserved := fun k => if k = q.slot then some t else w.reserved k }

/-- The tokens of the user that are not revoked. -/
def liveTokens (db : Db) (userId : ℕ) : List ℕ :=
  db.refreshTokens.select fun _ r => r.userId = userId && !r.revoked

/-- Starts an `UPDATE` that revokes the tokens of the user: it finds those there are. -/
def sweep (w : World) (userId t : ℕ) : World :=
  { w with
    sweeping := fun t' => if t' = t then some (userId, liveTokens w.db userId) else w.sweeping t' }

/-- The tokens of the user are reported as revoked. -/
def signOut (w : World) (userId t : ℕ) : World :=
  { w with
    sweeping := fun t' => if t' = t then none else w.sweeping t'
    signOuts := fun u => if u = userId then w.signOuts u + 1 else w.signOuts u }

/-- `t` checks an upload link, with a proof that expires at `expires`. -/
def check (w : World) (expires t : ℕ) : World :=
  { w with checked := setAt w.checked t (some (w.now, expires)) }

/-- `t` has the session locked, to assemble it or for a transaction on its row. -/
def controls (w : World) (session t : ℕ) : Bool :=
  (w.fences session).exclusive = some t ||
    (t ∈ (w.fences session).shared && w.locks (.session session) = some t)

/-- A step of `t` on the file system. A new attempt on a session is that of the thread that
assembles it. -/
def onDisk (w : World) (op : DiskOp) (t : ℕ) : World :=
  { w with
    disk := op.apply t w.disk
    fences := match op with
      | .createAttempt s =>
        if (w.fences s).exclusive = some t then
          setAt w.fences s { w.fences s with attempt := some w.disk.issued }
        else w.fences
      | _ => w.fences
    torn := fun s => w.torn s || (op.tears = some s && !w.controls s t)
    stray := fun s => w.stray s || (op.links = some s && !w.controls s t) }

/-- Applies the writes of a transaction of `t`. -/
def write (w : World) (tx : Tx) (t : ℕ) : World :=
  { w with
    db := tx.apply w.db
    reserved := fun k => if k ∈ tx.entered w.db then none else w.reserved k
    seen := fun i => ((tx.apply w.db).files.get i).or (w.seen i)
    erased := fun i => w.erased i ||
      (w.db.files.get i).isSome && ((tx.apply w.db).files.get i).isNone
    admitted := match tx with
      | .uploads (.createSession session _) =>
        setAt w.admitted w.db.uploadSessions.bound session.parentId
      | _ => w.admitted
    sweeping := fun t' =>
      match tx with
      | .auth (.revoke ids) =>
        if t' = t then (w.sweeping t).map fun s => (s.1, s.2.filter (· ∉ ids)) else w.sweeping t'
      | _ => w.sweeping t' }

/-- Whether others have locked a row that the writes of `t` change by cascade or that a trigger on
them locks. -/
def waits (w : World) (tx : Tx) (t : ℕ) : Bool :=
  (tx.cascades w.db ++ w.db.guardedSessions (tx.apply w.db)).any fun k =>
    w.locks k ≠ none && w.locks k ≠ some t

/-- The end of the connection of `t`. -/
def disconnect (w : World) (t : ℕ) : World :=
  let w := (w.release t).unfence t
  { w with sweeping := fun t' => if t' = t then none else w.sweeping t' }

end World

/-! ## Statements -/

/-- The statements: one that only reads, `SELECT … FOR UPDATE` of a row, an attempt to take an
advisory lock and its end, the query for the names of a directory, the start of an `UPDATE` of the
tokens of a user and the report of it, the check of an upload link, a step on the file system, and
the ends of a transaction. -/
inductive Instr where
  | read
  | lock (k : LockKey)
  | fence (session : ℕ) (exclusive : Bool)
  | unfence
  | names (q : NameQuery)
  | sweep (userId : ℕ)
  | signOut (userId : ℕ)
  | check (expires : ℕ)
  | disk (op : DiskOp)
  | commit (tx : Tx)
  | rollback

/-- The state after the statement of thread `t`, none while it waits for a lock. -/
def Instr.perform : Instr → ℕ → World → Option World
  | .read, _, w => some w
  | .lock k, t, w =>
    match w.locks k with
    | none => some (w.lock k t)
    | some t' => if t' = t then some w else none
  | .fence session exclusive, t, w => some (w.takeFence session exclusive t)
  | .unfence, t, w => some (w.unfence t)
  | .names q, t, w => some (w.readNames q t)
  | .sweep userId, t, w => some (w.sweep userId t)
  | .signOut userId, t, w => some (w.signOut userId t)
  | .check expires, t, w => some (w.check expires t)
  | .disk op, t, w => some (w.onDisk op t)
  | .commit tx, t, w =>
    if tx.allowed w.db then
      if w.waits tx t then none else some ((w.write tx t).release t)
    else some (w.release t)
  | .rollback, t, w => some (w.release t)

/-- What is left of a statement when the connection has broken: a rollback is the end of it, and the
file system does not need it. -/
def Instr.detached : Instr → ℕ → World → World
  | .disk op, t, w => w.onDisk op t
  | .rollback, t, w => { w with lost := fun t' => if t' = t then false else w.lost t' }
  | _, _, w => w

/-- The state after the statement of thread `t`. -/
def Instr.exec (i : Instr) (t : ℕ) (w : World) : Option World :=
  if w.lost t then some (i.detached t w) else i.perform t w

end HomeCloud
