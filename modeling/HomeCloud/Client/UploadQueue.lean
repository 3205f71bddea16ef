import HomeCloud.Client.Retry
import HomeCloud.Client.WholeSha256
import HomeCloud.Uploads.ChunkSizes

/-!
# The upload queue of the client

A job of the queue goes through an asynchronous run. Between two `await`s nothing else happens, so the
parts of a run between them are functions from jobs to jobs, with what the run awaits next.

* `Job`, `Run`, `Phase`: the jobs, and where their runs are.
* `attempt`, `begins`, `failed`: the requests that are sent again.
* `begin`, `fingerprinted`, …, `replayed`: the parts of `run`; `Job.caught`, `Job.finalize`: its end.
* `Job.finishCancellation`, `Job.cancellation`: the cancellation of a job.
* `Job.pause`, `Job.resume`, `Job.cancel`, `Job.reselect`: what the user does to a job.
-/

namespace HomeCloud

namespace Queue

open WholeSha256 ChunkSizes

/-! ## Data -/

/-- A `File` of the browser; `ref` tells objects apart. -/
structure LocalFile where
  ref : ℕ
  name : JsString
  data : List UInt8
  deriving DecidableEq

/-- What the page offers to the queue: the transport of a public link or none, `crypto.subtle` or not,
and SHA-256. -/
structure Page (Hash : Type) where
  transport : Bool
  subtle : Bool
  digest : List UInt8 → Hash

inductive UploadQueueState where
  | selected | queued | preparing | hashing | uploading | pausing | paused | retrying | completing
  | completed | error | cancelling | cancelled | needsFile
  deriving DecidableEq

inductive SessionStatus where
  | pending | uploading | completed | aborted
  deriving DecidableEq

structure SessionChunk (Hash : Type) where
  chunkIndex : ℕ
  byteSize : ℕ
  sha256 : Hash
  deriving DecidableEq

/-- A session as the server describes it; the creation and the list leave out the chunks. -/
structure Session (Hash : Type) where
  uploadId : ℕ
  filename : JsString
  totalSize : ℕ
  chunkSize : ℕ
  totalChunks : ℕ
  uploadedSize : ℕ
  parentId : Option ℕ
  status : SessionStatus
  chunks : Option (List (SessionChunk Hash))
  file : Option ℕ
  deriving DecidableEq

structure UploadLimits where
  wholeSha256Required : Bool
  ssd : Bool
  maxChunkBytes : ℕ
  maxChunks : ℕ
  effectiveMaxFileBytes : ℕ
  deriving DecidableEq

/-- The body of a request for a new session. -/
structure NewSession (Hash : Type) where
  filename : JsString
  totalSize : ℕ
  chunkSize : ℕ
  expectedSha256 : Option Hash
  parentId : Option ℕ
  deriving DecidableEq

inductive Request (Hash : Type) where
  | limits
  | create (key : Option ℕ) (body : NewSession Hash)
  | detail (uploadId : ℕ)
  | chunk (uploadId index : ℕ) (bytes : List UInt8)
  | complete (uploadId : ℕ)
  | remove (uploadId : ℕ)
  | sessions
  deriving DecidableEq

inductive Response (Hash : Type) where
  | refused (refusal : Refusal)
  | limits (limits : UploadLimits)
  | created (uploadId : ℕ)
  | detail (session : Session Hash)
  | accepted
  | completed
  | removed
  | sessions (sessions : List (Session Hash))
  deriving DecidableEq

/-- A job that is added, or one for a session of the server. -/
inductive JobId where
  | fresh (n : ℕ)
  | server (uploadId : ℕ)
  deriving DecidableEq

/-- Requests that `withChunkRetry` sends. -/
inductive Call (Hash : Type) where
  | limits
  | create (chunkSize : ℕ)
  | chunk (session : Session Hash) (accepted : List ℕ) (index : ℕ)
  | complete (session : Session Hash) (accepted : List ℕ)
  | replay (session : Session Hash)

/-- `withChunkRetry` waits until a time, or for the answer to an attempt. -/
inductive Wait where
  | backoff (attempt time : ℕ)
  | sent (attempt exchange : ℕ)

/-- What the hash of the whole file is for. -/
inductive HashUse (Hash : Type) where
  | create (chunkSize : ℕ)
  | verify (session : Session Hash)

/-- What a run awaits: samples of the file, its hash, the details of the session, the hash of a chunk, a
request with its retries, or nothing any more. -/
inductive Phase (Hash : Type) where
  | fingerprint
  | hashing (use : HashUse Hash) (file : LocalFile)
  | reconciling (exchange : ℕ)
  | verifying (session : Session Hash) (n : ℕ)
  | calling (call : Call Hash) (wait : Wait)
  | ended

/-- A run with its file; `since` is the number of requests before it. -/
structure Run (Hash : Type) where
  file : LocalFile
  since : ℕ
  phase : Phase Hash

/-- What a cancellation awaits, with the budget of its own. -/
inductive CancelPhase (Hash : Type) where
  | deleting (wait : Wait) (budget : RetryBudget)
  | checking (exchange deadline : ℕ)
  | replaying (session : Session Hash) (wait : Wait) (budget : RetryBudget)

/-- A cancellation; `pumps` when it belongs to the end of a run. -/
structure Cancellation (Hash : Type) where
  pumps : Bool
  phase : CancelPhase Hash

/-- A job with its runs, cancellations and reselections under way. `cancelRequested` tells whether it has
ever been cancelled by the user, and `uploaded` the file of the run that has completed it. -/
structure Job (Hash : Type) where
  id : JobId
  createKey : Option ℕ
  createDeadline : Option ℕ
  name : JsString
  size : ℕ
  parentId : Option ℕ
  state : UploadQueueState
  committedBytes : ℕ
  needsFile : Bool
  uploadId : Option ℕ
  file : Option LocalFile
  session : Option (Session Hash)
  expectedSha256 : Option Hash
  fingerprint : Option Hash
  budget : RetryBudget
  control : Option Bool
  pauseRequested : Bool
  cancellationPending : Bool
  cancelling : Bool
  verifyCommitted : Bool
  busy : Bool
  creationUncertain : Bool
  hashVerifiedFile : Option LocalFile
  runs : List (Run Hash)
  cancellations : List (Cancellation Hash)
  reselections : List LocalFile
  cancelRequested : Bool
  uploaded : Option LocalFile

def WAIT_BUDGET_MS : ℕ := 300000

def SAMPLE_SIZE : ℕ := 64 * 1024

def UPLOAD_CHUNK_SIZE : ℕ := 10 * 1024 * 1024

/-- How long a creation may be sent again with its key. -/
def CREATE_WINDOW_MS : ℕ := 23 * 60 * 60000

def UploadQueueState.terminal (state : UploadQueueState) : Bool :=
  state = .completed || state = .cancelled

/-- `Math.ceil(totalSize / chunkSize)`. -/
def ceilDiv (totalSize chunkSize : ℕ) : ℕ := (totalSize + chunkSize - 1) / chunkSize

def validSession (session : Session Hash) : Bool :=
  isSafeInteger session.totalSize && session.totalSize > 0 && isSafeInteger session.chunkSize &&
    session.chunkSize > 0 && session.totalChunks = ceilDiv session.totalSize session.chunkSize &&
    isSafeInteger session.uploadedSize && session.uploadedSize ≤ session.totalSize

/-- The indexes of the chunks that the server has reported. -/
def Session.indexes (session : Session Hash) : List ℕ :=
  (session.chunks.getD []).map (·.chunkIndex)

/-- `sampleFingerprint`, none without `crypto.subtle`. -/
def sampleFingerprint (page : Page Hash) (file : LocalFile) : Option Hash :=
  let size := file.data.length
  let starts := [0, size / 2 - SAMPLE_SIZE / 2, size - SAMPLE_SIZE].eraseDups
  if page.subtle then
    some (page.digest (starts.flatMap fun start => (file.data.drop start).take SAMPLE_SIZE))
  else none

/-! ## Parts of a run -/

/-- What the parts of a run see of the queue: the page, whether it is disposed, the time, and the number
of the next request. -/
structure Context (Hash : Type) where
  page : Page Hash
  disposed : Bool
  now : ℕ
  next : ℕ

/-- A part of a run ends awaiting something, having sent a request or not, or the run returns or
throws. -/
inductive Outcome (Hash : Type) where
  | await (phase : Phase Hash) (request : Option (Request Hash))
  | returned
  | thrown (e : Err)

section Parts

variable {Hash : Type} [DecidableEq Hash] (c : Context Hash) (file : LocalFile)

/-- The signal of the job is aborted. -/
def Job.aborted (job : Job Hash) : Bool := job.control = some true

def Job.stopped (job : Job Hash) : Bool :=
  job.pauseRequested || job.cancellationPending || c.disposed

/-- The state that `stopped` sets. -/
def Job.stop (job : Job Hash) : Job Hash :=
  { job with
    state := if job.cancellationPending then .cancelling
      else if job.file.isSome then .paused else .needsFile }

/-- Completions are not interrupted. -/
def Call.signalled : Call Hash → Bool
  | .complete .. | .replay _ => false
  | _ => true

/-- `onRetry`. -/
def Call.retrying (call : Call Hash) (job : Job Hash) : Job Hash :=
  match call with
  | .create _ | .chunk .. => { job with state := .retrying }
  | .complete .. => { job with state := .completing }
  | _ => job

/-- The request for a session. -/
def Job.creation (job : Job Hash) (chunkSize : ℕ) : Request Hash :=
  .create job.createKey ⟨file.name, file.data.length, chunkSize, job.expectedSha256, job.parentId⟩

/-- An attempt of `withChunkRetry`; the budget of a job has no deadline. -/
def attempt (call : Call Hash) (n : ℕ) (job : Job Hash) : Job Hash × Outcome Hash :=
  let sends (job : Job Hash) (request : Request Hash) : Job Hash × Outcome Hash :=
    (job, .await (.calling call (.sent n c.next)) (some request))
  if call.signalled && job.aborted then (job, .thrown .abort)
  else
    match call with
    | .limits => sends job .limits
    | .create chunkSize =>
      if c.page.transport then
        let createDeadline := job.createDeadline.getD (c.now + CREATE_WINDOW_MS)
        let job := { job with createDeadline := some createDeadline }
        if createDeadline ≤ c.now then
          ({ job with budget := { job.budget with notBefore := none } }, .thrown .other)
        else sends { job with creationUncertain := true } (job.creation file chunkSize)
      else sends { job with creationUncertain := true } (job.creation file chunkSize)
    | .chunk session _ index =>
      if job.stopped c then (job.stop, .thrown .abort)
      else sends { job with state := .uploading }
        (.chunk session.uploadId index (slice file.data session.chunkSize index))
    | .complete session _ | .replay session => sends job (.complete session.uploadId)

/-- `withChunkRetry`, up to its first attempt or its first wait. -/
def begins (call : Call Hash) (job : Job Hash) : Job Hash × Outcome Hash :=
  match job.budget.first c.now with
  | .error e => (job, .thrown e)
  | .ok none => attempt c file call 1 job
  | .ok (some time) =>
    let job := call.retrying job
    if call.signalled && job.aborted then (job, .thrown .abort)
    else (job, .await (.calling call (.backoff 1 time)) none)

/-- The error tells that the server has not made a session. -/
def definite (e : ApiError) : Bool :=
  isUploadBusyError e || isUploadCapacityError e || !(e.kind = .network || e.kind = .server)

/-- The `catch` of `withChunkRetry`. -/
def retried (call : Call Hash) (n : ℕ) (e : ApiError) (jitter : ℕ) (job : Job Hash) :
    Job Hash × Outcome Hash :=
  if isRetryable e then
    match job.budget.failed c.now n (call.signalled && job.aborted) e jitter with
    | (budget, .error e) => ({ job with budget }, .thrown e)
    | (budget, .ok time) =>
      (call.retrying { job with budget }, .await (.calling call (.backoff (n + 1) time)) none)
  else (job, .thrown (.api e))

def Err.definite : Err → Bool
  | .api e => Queue.definite e
  | _ => false

/-- An attempt has failed. -/
def failed (call : Call Hash) (n : ℕ) (e : ApiError) (jitter : ℕ) (job : Job Hash) :
    Job Hash × Outcome Hash :=
  match call with
  | .create _ =>
    let job := { job with creationUncertain := job.creationUncertain && !definite e }
    if isUploadBusyError e || e.kind = .rateLimit then retried c call n e jitter job
    -- `withAdmissionRetry` takes other errors for results.
    else ({ job with budget := { job.budget with notBefore := none } }, .thrown (.api e))
  | _ => retried c call n e jitter job

/-- The loop over the chunks, from the index on. -/
def loop (session : Session Hash) (accepted : List ℕ) (index : ℕ) (job : Job Hash) :
    Job Hash × Outcome Hash :=
  if job.stopped c then (job.stop, .returned)
  else
    match (List.range' index (session.totalChunks - index)).find? (· ∉ accepted) with
    | some i => begins c file (.chunk session accepted i) { job with state := .uploading }
    | none => begins c file (.complete session accepted) { job with state := .completing }

/-- The loop that verifies the chunks of the server, from the one at the position `n` on. -/
def verify (session : Session Hash) (n : ℕ) (job : Job Hash) : Job Hash × Outcome Hash :=
  if n < session.indexes.length then
    if job.stopped c then (job.stop, .returned) else (job, .await (.verifying session n) none)
  else loop c file session session.indexes 0 { job with verifyCommitted := false }

/-- The hash of a chunk of the file is there. -/
def verified (session : Session Hash) (n : ℕ) (job : Job Hash) : Job Hash × Outcome Hash :=
  match (session.chunks.getD [])[n]? with
  | none => (job, .thrown .other)
  | some chunk =>
    if !c.page.subtle then (job, .thrown .other)
    else if c.page.digest (slice file.data session.chunkSize chunk.chunkIndex) ≠ chunk.sha256 then
      ({ job with file := none, needsFile := true }, .thrown .other)
    else verify c file session (n + 1) job

/-- The chunks of the server are verified where this is asked for. -/
def checked (session : Session Hash) (job : Job Hash) : Job Hash × Outcome Hash :=
  if job.verifyCommitted then verify c file session 0 job
  else loop c file session session.indexes 0 job

/-- `hashWholeFile`, up to the hash. -/
def hashWholeFile (use : HashUse Hash) (job : Job Hash) : Job Hash × Outcome Hash :=
  let job := { job with state := .hashing }
  match job.file with
  | none => (job, .thrown .other)
  | some hashed => (job, .await (.hashing use hashed) none)

/-- The hash of the whole file is there. -/
def hashed (use : HashUse Hash) (whole : LocalFile) (job : Job Hash) : Job Hash × Outcome Hash :=
  let hash := c.page.digest whole.data
  if job.expectedSha256.any (· ≠ hash) then
    ({ job with file := none, needsFile := true }, .thrown .other)
  else
    let job := { job with expectedSha256 := some hash, hashVerifiedFile := some whole }
    if job.stopped c then (job.stop, .returned)
    else
      match use with
      | .create chunkSize => begins c file (.create chunkSize) job
      | .verify session => checked c file session job

/-- What the details of a session tell: it is completed, or how many bytes are committed. -/
inductive Reconciled where
  | completed
  | committed (bytes : ℕ)

/-- A chunk of the server is one of the session. -/
def chunkFits (session : Session Hash) (chunk : SessionChunk Hash) : Bool :=
  isSafeInteger chunk.chunkIndex &&
    reconcileAccepts session.totalSize session.chunkSize session.totalChunks chunk.chunkIndex chunk.byteSize

/-- The checks of `reconcile`. -/
def Job.reconcile (job : Job Hash) (session : Session Hash) : Option Reconciled :=
  if !validSession session || session.filename ≠ job.name || session.totalSize ≠ job.size ||
      session.parentId ≠ job.parentId then none
  else if session.status = .completed && session.file.isSome then some .completed
  else if session.status = .completed || session.status = .aborted then none
  else
    match session.chunks with
    | none => none
    | some chunks =>
      let committed := (chunks.map (·.byteSize)).sum
      if chunks.all (chunkFits session) && session.indexes.Nodup && committed = session.uploadedSize then
        some (.committed committed)
      else none

/-- The details of the session are there. -/
def reconciled (session : Session Hash) (job : Job Hash) : Job Hash × Outcome Hash :=
  match job.reconcile session with
  | none => (job, .thrown .other)
  | some .completed => begins c file (.replay session) { job with state := .completing }
  | some (.committed bytes) =>
    let job := { job with session := some session, committedBytes := bytes }
    if job.state.terminal then (job, .returned)
    else if job.stopped c then (job.stop, .returned)
    else if job.expectedSha256.isSome && job.hashVerifiedFile ≠ some file then
      hashWholeFile (.verify session) job
    else checked c file session job

/-- A run with a session reconciles it, or goes on with its chunks. -/
def continued (job : Job Hash) (uploadId : ℕ) : Job Hash × Outcome Hash :=
  if job.stopped c then (job.stop, .returned)
  else
    match job.session with
    | none => (job, .await (.reconciling c.next) (some (.detail uploadId)))
    | some session =>
      if job.verifyCommitted || session.chunks.isNone then
        (job, .await (.reconciling c.next) (some (.detail uploadId)))
      else loop c file session session.indexes 0 job

/-- The session is created. -/
def created (chunkSize uploadId : ℕ) (job : Job Hash) : Job Hash × Outcome Hash :=
  let session : Session Hash := ⟨uploadId, file.name, file.data.length, chunkSize,
    ceilDiv file.data.length chunkSize, 0, job.parentId, .pending, some [], none⟩
  continued c file { job with creationUncertain := false, uploadId, session } uploadId

/-- The limits are there. -/
def limited (limits : UploadLimits) (job : Job Hash) : Job Hash × Outcome Hash :=
  let size := file.data.length
  let chunkSize := min limits.maxChunkBytes (max UPLOAD_CHUNK_SIZE (ceilDiv size limits.maxChunks))
  if job.stopped c then (job.stop, .returned)
  else if !isSafeInteger limits.effectiveMaxFileBytes || size > limits.effectiveMaxFileBytes then
    (job, .thrown .other)
  else if !isSafeInteger limits.maxChunkBytes || limits.maxChunkBytes = 0 ||
      !isSafeInteger limits.maxChunks || limits.maxChunks = 0 then (job, .thrown .other)
  else if ceilDiv size chunkSize > limits.maxChunks then (job, .thrown .other)
  else if limits.wholeSha256Required || limits.ssd then hashWholeFile (.create chunkSize) job
  else begins c file (.create chunkSize) job

/-- The samples of the file are there. -/
def fingerprinted (job : Job Hash) : Job Hash × Outcome Hash :=
  let job := { job with fingerprint := sampleFingerprint c.page file }
  if job.stopped c then (job.stop, .returned) else begins c file .limits job

/-- A chunk is accepted. -/
def accepted (session : Session Hash) (accepted : List ℕ) (index : ℕ) (job : Job Hash) :
    Job Hash × Outcome Hash :=
  let bytes := (slice file.data session.chunkSize index).length
  loop c file session (accepted ++ [index]) (index + 1)
    { job with committedBytes := job.committedBytes + bytes }

/-- The upload is completed by the run. -/
def completed (job : Job Hash) : Job Hash × Outcome Hash :=
  ({ job with
    cancellationPending := false
    state := .completed
    committedBytes := file.data.length
    file := none
    needsFile := false
    uploaded := some file }, .returned)

/-- The upload has been completed before. -/
def Job.replayed (job : Job Hash) : Job Hash :=
  { job with
    state := .completed
    committedBytes := job.size
    file := none
    cancellationPending := false
    needsFile := false }

/-- An attempt is answered. -/
def answered (call : Call Hash) (n : ℕ) (response : Response Hash) (jitter : ℕ) (job : Job Hash) :
    Job Hash × Outcome Hash :=
  match response with
  | .refused refusal => failed c call n (normalizeApiError (some refusal)) jitter job
  | response =>
    let job := { job with budget := { job.budget with notBefore := none } }
    match call, response with
    | .limits, .limits limits => limited c file limits job
    | .create chunkSize, .created uploadId => created c file chunkSize uploadId job
    | .chunk session acceptedIndexes index, .accepted => accepted c file session acceptedIndexes index job
    | .complete .., .completed => completed file job
    | .replay _, .completed => (job.replayed, .returned)
    | _, _ => (job, .thrown .other)

/-- The first part of a run. -/
def begin (job : Job Hash) : Job Hash × Outcome Hash :=
  let job := { job with state := .preparing }
  match job.uploadId with
  | none => (job, .await .fingerprint none)
  | some uploadId => continued c file job uploadId

/-! ## The end of a run -/

/-- The `catch` of a run, and whether it starts a discovery. -/
def Job.caught (job : Job Hash) (e : Err) : Job Hash × Bool :=
  let job := { job with
    verifyCommitted := job.uploadId.isSome
    creationUncertain := job.creationUncertain && !e.definite }
  let discovers := job.creationUncertain && !c.page.transport && !c.disposed
  if job.cancellationPending then (job, discovers)
  else if job.pauseRequested || c.disposed then
    ({ job with state := if job.file.isSome then .paused else .needsFile }, discovers)
  else ({ job with state := if job.file.isSome then .error else .needsFile }, discovers)

/-- The cancellation is confirmed, or there is nothing to be cancelled. -/
def Job.cancelled (job : Job Hash) : Job Hash :=
  { job with
    state := .cancelled
    committedBytes := 0
    needsFile := false
    file := none
    cancellationPending := false
    cancelling := false }

def CANCEL_BUDGET_MS : ℕ := 10000

/-- `finishCancellation`, up to its request. -/
def Job.finishCancellation (job : Job Hash) (pumps : Bool) : Job Hash × Option (Request Hash) :=
  if job.cancelling || job.state.terminal then (job, none)
  else
    match job.uploadId with
    | none => (job.cancelled, none)
    | some uploadId =>
      let budget : RetryBudget := ⟨CANCEL_BUDGET_MS, some (c.now + CANCEL_BUDGET_MS), none⟩
      ({ job with
        cancelling := true
        cancellations := job.cancellations ++ [⟨pumps, .deleting (.sent 1 c.next) budget⟩] },
        some (.remove uploadId))

/-- What happens to a job, besides what its record tells: the requests that are sent, whether a run of it
has ended, and whether a discovery, a publication and the pump follow. -/
structure Effect (Hash : Type) where
  job : Job Hash
  request : Option (Request Hash)
  ended : Bool
  discovers : Bool
  publishes : Bool
  pumps : Bool

/-- The `finally` of a run. -/
def Job.finalize (job : Job Hash) (i : ℕ) (discovers : Bool) : Effect Hash :=
  let job := { job with busy := false, control := none, runs := job.runs.eraseIdx i }
  if job.cancellationPending && job.state ≠ .completed then
    let (job, request) := job.finishCancellation c true
    ⟨job, request, true, discovers, true, request.isNone⟩
  else ⟨job, none, true, discovers, true, true⟩

/-- A part of the run at the position `i` is over. -/
def Run.settle (run : Run Hash) (i : ℕ) (x : Job Hash × Outcome Hash) : Effect Hash :=
  match x with
  | (job, .await phase request) =>
    ⟨{ job with runs := job.runs.set i { run with phase } }, request, false, false, true, false⟩
  | (job, .returned) => job.finalize c i false
  | (job, .thrown e) =>
    let (job, discovers) := job.caught c e
    job.finalize c i discovers

/-- What a run meets while it awaits something: an answer, with what is added to a wait at random; no
answer; the end of a wait; an abort; the result of a computation; or a file that cannot be read. -/
inductive Input where
  | answer (jitter : ℕ)
  | lost (refusal : Option Refusal) (jitter : ℕ)
  | elapsed
  | interrupted
  | computed
  | unreadable

/-- The run gets on; `response` are the answers that have come in. -/
def Run.next (response : ℕ → Option (Response Hash)) (run : Run Hash) (input : Input) (job : Job Hash) :
    Option (Job Hash × Outcome Hash) :=
  let file := run.file
  match run.phase, input with
  | .fingerprint, .computed => some (fingerprinted c file job)
  | .fingerprint, .unreadable => some (job, .thrown .other)
  | .hashing use whole, .computed => some (hashed c file use whole job)
  | .hashing .., .unreadable => some (job, .thrown .other)
  | .hashing .., .interrupted => if job.aborted then some (job, .thrown .abort) else none
  | .reconciling exchange, .answer _ => (response exchange).map fun
    | .detail session => reconciled c file session job
    | .refused refusal => (job, .thrown (.api (normalizeApiError (some refusal))))
    | _ => (job, .thrown .other)
  | .reconciling _, .lost refusal _ => some (job, .thrown (.api (normalizeApiError refusal)))
  | .verifying session n, .computed => some (verified c file session n job)
  | .verifying .., .unreadable => some (job, .thrown .other)
  | .calling call (.sent n exchange), .answer jitter =>
    (response exchange).map fun response => answered c file call n response jitter job
  | .calling call (.sent n _), .lost refusal jitter =>
    some (failed c call n (normalizeApiError refusal) jitter job)
  | .calling call (.backoff n time), .elapsed =>
    if time ≤ c.now then some (attempt c file call n job) else none
  | .calling call (.backoff ..), .interrupted =>
    if call.signalled && job.aborted then some (job, .thrown .abort) else none
  | .ended, .computed => some (job, .returned)
  | _, _ => none

/-- The run at the position `i` gets on. -/
def Job.run (response : ℕ → Option (Response Hash)) (job : Job Hash) (i : ℕ) (input : Input) :
    Option (Effect Hash) := do
  let run ← job.runs[i]?
  let x ← run.next c response input job
  match run.phase, x.2 with
  -- The `catch` of a run that had nothing to await is done already.
  | .ended, _ => some (x.1.finalize c i false)
  | _, _ => some (run.settle c i x)

/-! ## Cancellation -/

/-- The end of the cancellation at the position `i`. -/
def Job.finished (job : Job Hash) (i : ℕ) (pumps : Bool) : Effect Hash :=
  ⟨{ job with cancelling := false, cancellations := job.cancellations.eraseIdx i }, none, false, false,
    true, pumps⟩

/-- The cancellation is not confirmed. -/
def Job.unconfirmed (job : Job Hash) (i : ℕ) (pumps : Bool) : Effect Hash :=
  { job with state := .error, cancellationPending := true }.finished i pumps

/-- The cancellation goes on, with a request or without. -/
def Job.cancels (job : Job Hash) (i : ℕ) (cancellation : Cancellation Hash) (phase : CancelPhase Hash)
    (request : Option (Request Hash)) : Effect Hash :=
  ⟨{ job with cancellations := job.cancellations.set i { cancellation with phase } }, request, false,
    false, true, false⟩

/-- How long a cancellation that has failed is reconciled. -/
def RECONCILE_BUDGET_MS : ℕ := 5000

/-- The cancellation has failed: perhaps the upload is completed. -/
def Job.check (job : Job Hash) (i : ℕ) (cancellation : Cancellation Hash) : Effect Hash :=
  match job.uploadId with
  | none => job.unconfirmed i cancellation.pumps
  | some uploadId =>
    job.cancels i cancellation (.checking c.next (c.now + RECONCILE_BUDGET_MS)) (some (.detail uploadId))

/-- An attempt to delete the session. -/
def Job.delete (job : Job Hash) (i n : ℕ) (cancellation : Cancellation Hash) (budget : RetryBudget) :
    Effect Hash :=
  match job.uploadId with
  | none => job.check c i cancellation
  | some uploadId =>
    if budget.spent c.now then job.check c i cancellation
    else job.cancels i cancellation (.deleting (.sent n c.next) budget) (some (.remove uploadId))

/-- An attempt to complete the session again. -/
def Job.replay (job : Job Hash) (i n : ℕ) (cancellation : Cancellation Hash) (session : Session Hash)
    (budget : RetryBudget) : Effect Hash :=
  if budget.spent c.now then job.unconfirmed i cancellation.pumps
  else job.cancels i cancellation (.replaying session (.sent n c.next) budget)
    (some (.complete session.uploadId))

/-- An attempt to delete the session has failed. -/
def Job.deleteFailed (job : Job Hash) (i n : ℕ) (cancellation : Cancellation Hash) (budget : RetryBudget)
    (e : ApiError) (jitter : ℕ) : Effect Hash :=
  if isRetryable e then
    match budget.failed c.now n (budget.spent c.now) e jitter with
    | (_, .error _) => job.check c i cancellation
    | (budget, .ok time) =>
      job.cancels i cancellation (.deleting (.backoff (n + 1) time) budget) none
  else job.check c i cancellation

/-- An attempt to complete the session again has failed. -/
def Job.replayFailed (job : Job Hash) (i n : ℕ) (cancellation : Cancellation Hash)
    (session : Session Hash) (budget : RetryBudget) (e : ApiError) (jitter : ℕ) : Effect Hash :=
  if isRetryable e then
    match budget.failed c.now n (budget.spent c.now) e jitter with
    | (_, .error _) => job.unconfirmed i cancellation.pumps
    | (budget, .ok time) =>
      job.cancels i cancellation (.replaying session (.backoff (n + 1) time) budget) none
  else job.unconfirmed i cancellation.pumps

/-- The details of the session are there while it is cancelled. -/
def Job.checked (job : Job Hash) (i : ℕ) (cancellation : Cancellation Hash) (deadline : ℕ)
    (session : Session Hash) : Effect Hash :=
  match job.reconcile session with
  | none => job.unconfirmed i cancellation.pumps
  | some (.committed bytes) =>
    { job with session := some session, committedBytes := bytes }.unconfirmed i cancellation.pumps
  | some .completed =>
    let job := { job with state := .completing }
    let budget : RetryBudget := ⟨RECONCILE_BUDGET_MS, some deadline, job.budget.notBefore⟩
    match budget.first c.now with
    | .error _ => job.unconfirmed i cancellation.pumps
    | .ok none => job.replay c i 1 cancellation session budget
    | .ok (some time) => job.cancels i cancellation (.replaying session (.backoff 1 time) budget) none

/-- The cancellation at the position `i` gets on; it is interrupted when its time is over. -/
def Job.cancellation (response : ℕ → Option (Response Hash)) (job : Job Hash) (i : ℕ) (input : Input) :
    Option (Effect Hash) := do
  let cancellation ← job.cancellations[i]?
  match cancellation.phase, input with
  | .deleting (.sent n exchange) budget, .answer jitter => (response exchange).map fun
    | .removed => job.cancelled.finished i cancellation.pumps
    | .refused refusal =>
      job.deleteFailed c i n cancellation budget (normalizeApiError (some refusal)) jitter
    | _ => job.check c i cancellation
  | .deleting (.sent n _) budget, .lost refusal jitter =>
    some (job.deleteFailed c i n cancellation budget (normalizeApiError refusal) jitter)
  | .deleting (.backoff n time) budget, .elapsed =>
    if time ≤ c.now then some (job.delete c i n cancellation budget) else none
  | .deleting _ budget, .interrupted =>
    if budget.spent c.now then some (job.check c i cancellation) else none
  | .checking exchange deadline, .answer _ => (response exchange).map fun
    | .detail session => job.checked c i cancellation deadline session
    | _ => job.unconfirmed i cancellation.pumps
  | .checking .., .lost .. => some (job.unconfirmed i cancellation.pumps)
  | .checking _ deadline, .interrupted =>
    if deadline ≤ c.now then some (job.unconfirmed i cancellation.pumps) else none
  | .replaying session (.sent n exchange) budget, .answer jitter => (response exchange).map fun
    | .completed => job.replayed.finished i cancellation.pumps
    | .refused refusal =>
      job.replayFailed c i n cancellation session budget (normalizeApiError (some refusal)) jitter
    | _ => job.unconfirmed i cancellation.pumps
  | .replaying session (.sent n _) budget, .lost refusal jitter =>
    some (job.replayFailed c i n cancellation session budget (normalizeApiError refusal) jitter)
  | .replaying session (.backoff n time) budget, .elapsed =>
    if time ≤ c.now then some (job.replay c i n cancellation session budget) else none
  | .replaying _ _ budget, .interrupted =>
    if budget.spent c.now then some (job.unconfirmed i cancellation.pumps) else none
  | _, _ => none

/-! ## The user -/

/-- Nothing happens to the job but what its record tells. -/
def Job.still (job : Job Hash) : Effect Hash := ⟨job, none, false, false, false, false⟩

def Job.pause (job : Job Hash) : Effect Hash :=
  if job.state.terminal || job.cancellationPending || job.state = .completing then job.still
  else
    { { job with
        pauseRequested := true
        control := job.control.map fun _ => true
        state := if job.busy then .pausing else .paused }.still with publishes := true }

def Job.cancel (job : Job Hash) : Effect Hash :=
  if c.disposed || job.state.terminal || job.cancelling then job.still
  else
    let job := { job with
      cancellationPending := true
      cancelRequested := true
      pauseRequested := false
      state := .cancelling
      control := job.control.map fun _ => true }
    if job.busy then { job.still with publishes := true }
    else
      let (job, request) := job.finishCancellation c false
      ⟨job, request, false, false, true, false⟩

def Job.resume (job : Job Hash) : Effect Hash :=
  if c.disposed || job.state.terminal || job.busy then job.still
  else if job.cancellationPending then job.cancel c
  else if job.creationUncertain && !c.page.transport then
    { job.still with discovers := true, publishes := true }
  else
    match job.file with
    | none => { { job with state := .needsFile, needsFile := true }.still with publishes := true }
    | some file =>
      if isSafeInteger file.data.length && file.data.length > 0 then
        ⟨{ job with
          pauseRequested := false
          state := .queued
          verifyCommitted := job.uploadId.isSome
          budget := { job.budget with remainingWaitMs := WAIT_BUDGET_MS } }, none, false, false, true,
          true⟩
      else job.still

/-- `reselect`, up to the samples of the file. -/
def Job.reselect (job : Job Hash) (file : LocalFile) : Effect Hash :=
  if c.disposed || job.busy || job.state.terminal || job.cancellationPending then job.still
  else if file.name ≠ job.name || file.data.length ≠ job.size then { job.still with publishes := true }
  else { job with reselections := job.reselections ++ [file] }.still

/-- The samples of the file are there, or it cannot be read. -/
def Job.reselected (job : Job Hash) (i : ℕ) (readable : Bool) : Option (Effect Hash) := do
  let file ← job.reselections[i]?
  let job := { job with reselections := job.reselections.eraseIdx i }
  let fingerprint := sampleFingerprint c.page file
  if !readable || (job.fingerprint.isSome && fingerprint ≠ job.fingerprint) then
    some { job.still with publishes := true }
  else if c.disposed || job.cancellationPending || job.state.terminal then some job.still
  else
    some ({ job with
      file := some file
      fingerprint
      needsFile := false
      verifyCommitted := true }.resume c)

/-- What `dispose` does to a job. -/
def Job.dispose (job : Job Hash) : Job Hash :=
  if job.state.terminal || job.cancellationPending then job
  else { job with
    pauseRequested := true
    control := job.control.map fun _ => true
    state := if job.busy then .pausing else .paused }

end Parts

end Queue

end HomeCloud
