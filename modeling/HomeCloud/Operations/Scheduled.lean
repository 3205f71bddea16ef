import HomeCloud.Operations.Dedup

/-!
# Scheduled jobs and their alerts

The runner of the scheduled jobs: what a run sees of its job, the alerts that it delivers, and the file in which it
remembers them.

* `Run`: one run of a job, with all that it meets.
* `transition`, `readState`, `run`: the runner. An exception ends it, and leaves what was done before.
* `Finds`: which problems a run finds.
-/

namespace HomeCloud

namespace Scheduled

/-! ## Alerts -/

inductive Key where
  | backup
  | backupRetention
  | certRenew
  | certCheck
  | backupStale
  | certCheckStale
  deriving DecidableEq

/-- The keys that a state may have. -/
def keys : List Key := [.backup, .backupRetention, .certRenew, .certCheck, .backupStale, .certCheckStale]

inductive Reason where
  | ok
  | stale
  | backupConfigurationFailed
  | backupLegacyFailed
  | backupArchiveFailed
  | backupMetadataFailed
  | backupEncryptionFailed
  | backupReplicationFailed
  | backupVerificationFailed
  | timeout
  | backupFailed
  | retentionWarning
  | expiryWarning
  | expiryCritical
  | certificateFailed
  | renewalFailed
  deriving DecidableEq

inductive Severity where
  | info
  | warning
  | critical
  deriving DecidableEq

inductive EventType where
  | recovery
  | repeated
  | failure
  deriving DecidableEq

structure Payload where
  eventType : EventType
  severity : Severity
  timestamp : ℚ
  host : String
  service : Key
  reason : Reason
  runId : ℕ
  deriving DecidableEq

/-- An alert that the receiver has confirmed: when it did, and whether the state with it gets into place. -/
structure Alert where
  payload : Payload
  deliveredAt : ℚ
  saved : Bool
  deriving DecidableEq

structure Config where
  identity : String
  cooldownSeconds : ℚ
  attempts : ℕ
  backupMaxAge : ℚ
  certMaxAge : ℚ
  cooldownBounds : 1 ≤ cooldownSeconds ∧ cooldownSeconds ≤ 604800
  attemptsBounds : 1 ≤ attempts ∧ attempts ≤ 5
  backupBounds : 1 ≤ backupMaxAge ∧ backupMaxAge ≤ 604800
  certBounds : 1 ≤ certMaxAge ∧ certMaxAge ≤ 604800

/-! ## What a run meets -/

/-- How the saving of a state goes: well, or up to an exception or a crash before or after the file was replaced. -/
inductive Save where
  | saved
  | raised (replaced : Bool)
  | killed (replaced : Bool)

/-- The file has the new state. -/
def Save.replaced : Save → Bool
  | .saved => true
  | .raised replaced => replaced
  | .killed replaced => replaced

/-- What happens to an alert, if one is sent: which attempts have a 2xx status, when, and how its state is saved. -/
structure Outcome where
  responses : ℕ → Bool
  deliveredAt : ℚ
  save : Save

/-- What is read from a marker, or from the line of an event. -/
structure Event where
  event : Option String
  offsiteVerified : Bool
  status : Option String
  deriving DecidableEq

def Event.completed (e : Event) : Bool := e.event = some "backup_production_completed" && e.offsiteVerified

/-- What `wait` returns: an exit status, the code for a timeout, or the number of a signal, negative. -/
abbrev ReturnCode := {code : ℤ // -64 ≤ code ∧ code ≤ 255}

/-- The timestamps of the two markers, if they can be read, and the marker of the backup, if it can be read again. -/
structure Freshness where
  backupStamp : Option ℚ
  backupMarker : Option Event
  certStamp : Option ℚ

/-- A backup: whether it could be started, what it returns and says, the clock when the marker is looked at and after
that, its timestamp, and the marker, if it can be read again. -/
structure Backup where
  started : Bool
  code : ReturnCode
  events : List Event
  lookedAt : ℚ
  comparedAt : ℚ
  stamp : Option ℚ
  marker : Option Event

/-- A renewal or a check of the certificate: whether it could be started, what it returns and says, and whether the
heartbeat could be saved. -/
structure Certificate where
  started : Bool
  code : ReturnCode
  events : List Event
  heartbeatSaved : Bool

inductive Observed where
  | freshness (f : Freshness)
  | backup (b : Backup)
  | certRenew (x : Certificate)
  | certCheck (x : Certificate)

/-- The readings of the clock while a job runs. -/
def Observed.times : Observed → List ℚ
  | .backup b => [b.lookedAt, b.comparedAt]
  | _ => []

/-- A run: whether another one holds the lock, the clock at its start, whether the file can be read and the clock
then, what the job shows, and what happens to its first and its second alert. -/
structure Run where
  busy : Bool
  now : ℚ
  runId : ℕ
  readable : Bool
  readAt : ℚ
  observed : Observed
  first : Outcome
  second : Outcome

/-- The readings of the clock, in order. -/
def Run.times (r : Run) : List ℚ :=
  r.now :: r.readAt :: r.observed.times ++ [r.first.deliveredAt, r.second.deliveredAt]

/-! ## Effects -/

structure Sent where
  reason : Reason
  sentAt : ℚ
  deriving DecidableEq

abbrev State := Key → Option Sent

/-- The file, and the alerts that were delivered so far. -/
structure World where
  file : State
  alerts : List Alert

/-- How a process ends. -/
inductive Exit where
  | exited (status : ℕ)
  | killed
  deriving DecidableEq

/-- A part of a run. If it ends early, what it did stays. -/
abbrev Job (α : Type) := ExceptT Exit (StateM World) α

/-- What `main` does with an exception. -/
def raise {α : Type} : Job α := throw (.exited 70)

def found {α : Type} : Option α → Job α
  | some a => return a
  | none => raise

/-! ## The runner -/

/-- The attempts one after the other, up to the first one with a 2xx status. -/
def deliver (c : Config) (payload : Payload) (o : Outcome) : Job Unit :=
  if (List.range c.attempts).any o.responses then
    modify fun w => { w with alerts := w.alerts ++ [⟨payload, o.deliveredAt, o.save.replaced⟩] }
  else raise

def replace (state : State) : Job Unit := modify fun w => { w with file := state }

def save (state : State) : Save → Job Unit
  | .saved => replace state
  | .raised replaced => do
    if replaced then
      replace state
    raise
  | .killed replaced => do
    if replaced then
      replace state
    throw .killed

/-- All times lie between zero and a minute after now. -/
def readState (r : Run) : Job State := do
  if !r.readable then
    raise
  let s := (← get).file
  if keys.any fun key => (s key).any fun v => v.sentAt < 0 || v.sentAt > r.readAt + 60 then
    raise
  return s

section Transition

variable (c : Config)

def suppressed (old : Option Sent) (reason : Reason) (now : ℚ) : Bool :=
  old.any fun sent => reason = sent.reason && now - sent.sentAt < c.cooldownSeconds

def eventType (old : Option Sent) (reason : Reason) : EventType :=
  if reason = .ok then .recovery else if old.any fun sent => sent.reason = reason then .repeated else .failure

def transition (state : State) (key : Key) (reason : Reason) (severity : Severity) (now : ℚ) (runId : ℕ) (o : Outcome) :
    Job State := do
  let old := state key
  if reason = .ok ∧ old = none then
    return state
  if suppressed c old reason now then
    return state
  deliver c ⟨eventType old reason, if reason = .ok then .info else severity, now, c.identity, key, reason, runId⟩ o
  let state : State := fun k => if k = key then (if reason = .ok then none else some ⟨reason, now⟩) else state k
  save state o.save
  return state

end Transition

/-- The age of a marker, none for infinity. -/
def age (stamp : Option ℚ) (now : ℚ) : Option ℚ :=
  stamp.bind fun timestamp => if timestamp > now + 60 then none else some (max 0 (now - timestamp))

/-- An age above a threshold. -/
def above (age : Option ℚ) (threshold : ℚ) : Bool := age.all fun seconds => threshold < seconds

/-! ### Freshness -/

def staleBackup (c : Config) (now : ℚ) (f : Freshness) : Job Bool := do
  if above (age f.backupStamp now) c.backupMaxAge then
    return true
  let m ← found f.backupMarker
  return !m.completed

def runFreshness (c : Config) (r : Run) (f : Freshness) (state : State) : Job ℤ := do
  let stale ← staleBackup c r.now f
  let state ← transition c state .backupStale (if stale then .stale else .ok) .critical r.now r.runId r.first
  let staleCheck := above (age f.certStamp r.now) c.certMaxAge
  let _ ← transition c state .certCheckStale (if staleCheck then .stale else .ok) .critical r.now r.runId r.second
  return if stale || staleCheck then 1 else 0

/-! ### Backup -/

/-- An event says that the backup is complete, and its marker is new. -/
def Backup.claimed (b : Backup) (now : ℚ) : Bool :=
  b.events.any Event.completed && !above (age b.stamp b.lookedAt) (b.comparedAt - now + 5)

def Backup.confirmed (b : Backup) (now : ℚ) : Job Bool := do
  if !b.claimed now then
    return false
  let m ← found b.marker
  return m.completed

def backupCode (code : ℤ) (completed : Bool) : ℤ := if code = 0 && !completed then 1 else code

def backupReason : ℤ → Reason
  | 0 => .ok
  | 2 => .backupConfigurationFailed
  | 10 => .backupLegacyFailed
  | 11 => .backupArchiveFailed
  | 12 => .backupMetadataFailed
  | 13 => .backupEncryptionFailed
  | 14 => .backupReplicationFailed
  | 15 => .backupVerificationFailed
  | 124 => .timeout
  | _ => .backupFailed

def retentionWarning (events : List Event) : Bool := events.any fun e => e.event = some "retention_warning"

def runBackup (c : Config) (r : Run) (b : Backup) (state : State) : Job ℤ := do
  if !b.started then
    raise
  let completed ← b.confirmed r.now
  let code := backupCode b.code completed
  let state ← transition c state .backup (backupReason code) .critical r.now r.runId r.first
  if code = 0 then
    let reason := if retentionWarning b.events then .retentionWarning else .ok
    let _ ← transition c state .backupRetention reason .warning r.now r.runId r.second
  return code

/-! ### Certificates -/

/-- The status that belongs to a code, if there is one. -/
def expected (check : Bool) (code : ℤ) : Option String :=
  if check then
    match code with
    | 0 => some "ok"
    | 1 => some "warning"
    | 2 => some "critical"
    | 3 => some "invalid"
    | _ => none
  else
    match code with
    | 0 => some "installed"
    | 3 => some "failed"
    | _ => none

def valid (check : Bool) (code : ℤ) (events : List Event) : Bool :=
  expected check code ∈ events.map Event.status || (!check && code = 0 && some "unchanged" ∈ events.map Event.status)

def certCode (check : Bool) (code : ℤ) (events : List Event) : ℤ :=
  if !valid check code events && code ≠ 124 then 3 else code

def certReason (check : Bool) (code : ℤ) : Reason :=
  if check then
    match code with
    | 0 => .ok
    | 1 => .expiryWarning
    | 2 => .expiryCritical
    | _ => .certificateFailed
  else if code = 0 then .ok
  else .renewalFailed

def runCertificate (c : Config) (r : Run) (check : Bool) (x : Certificate) (state : State) : Job ℤ := do
  if !x.started then
    raise
  let code := certCode check x.code x.events
  let reason := certReason check code
  if check && valid check x.code x.events && (code = 0 || code = 1 || code = 2) && !x.heartbeatSaved then
    raise
  let severity := if reason = .expiryWarning then .warning else .critical
  let _ ← transition c state (if check then .certCheck else .certRenew) reason severity r.now r.runId r.first
  return code

/-! ### Runs -/

def run (c : Config) (r : Run) : Job ℤ := do
  let state ← readState r
  match r.observed with
  | .freshness f => runFreshness c r f state
  | .backup b => runBackup c r b state
  | .certRenew x => runCertificate c r false x state
  | .certCheck x => runCertificate c r true x state

/-- The run, unless another one holds the lock. -/
def main (c : Config) (r : Run) (w : World) : Exit × World :=
  if r.busy then (.exited 75, w)
  else
    match (run c r).run.run w with
    | (.ok code, w') => (.exited (code % 256).toNat, w')
    | (.error e, w') => (e, w')

/-- The world after some runs, from the one without a file. -/
def after (c : Config) (runs : List Run) : World := runs.foldl (fun w r => (main c r w).2) ⟨fun _ => none, []⟩

/-- Runs one after the other, on a clock that never goes back. -/
structure Schedule where
  runs : List Run
  clock : (runs.flatMap Run.times).Pairwise (· ≤ ·)

/-! ## Problems -/

/-- The problems that a job shows. -/
inductive Finds (c : Config) (now : ℚ) : Observed → Key → Reason → Prop
  | backupOld (f : Freshness) (h : above (age f.backupStamp now) c.backupMaxAge = true) :
    Finds c now (.freshness f) .backupStale .stale
  | backupIncomplete (f : Freshness) (m : Event) (hm : f.backupMarker = some m) (h : m.completed = false) :
    Finds c now (.freshness f) .backupStale .stale
  | checkOld (f : Freshness) (h : above (age f.certStamp now) c.certMaxAge = true) :
    Finds c now (.freshness f) .certCheckStale .stale
  | backup (b : Backup) (completed : Bool) (hc : completed = (b.claimed now && b.marker.any Event.completed))
    (h : backupReason (backupCode b.code completed) ≠ .ok) :
    Finds c now (.backup b) .backup (backupReason (backupCode b.code completed))
  | retention (b : Backup) (h : b.code.val = 0) (hw : retentionWarning b.events = true) :
    Finds c now (.backup b) .backupRetention .retentionWarning
  | certRenew (x : Certificate) (h : certReason false (certCode false x.code x.events) ≠ .ok) :
    Finds c now (.certRenew x) .certRenew (certReason false (certCode false x.code x.events))
  | certCheck (x : Certificate) (h : certReason true (certCode true x.code x.events) ≠ .ok) :
    Finds c now (.certCheck x) .certCheck (certReason true (certCode true x.code x.events))

end Scheduled

end HomeCloud
