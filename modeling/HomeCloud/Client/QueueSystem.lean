import HomeCloud.Client.UploadQueue

/-!
# The upload queue, the network and the server

The requests of the queue are on their way for any time; the server may serve or refuse them late, and
answers may be lost.

* `ServerSession`, `serve`: the server, as far as the queue relies on it.
* `State.publish`, `State.pump`, `State.discover`, `State.act`: the queue around its jobs.
* `Move`, `State.next`, `Reached`: the steps of the user, the network, the server and the runs.
-/

namespace HomeCloud

namespace Queue

open ChunkSizes

/-! ## The server -/

inductive ServerStatus where
  | live | completed | aborted
  deriving DecidableEq

/-- A session of the server, made for a request; its chunks with their indexes. -/
structure ServerSession (Hash : Type) where
  creator : ℕ
  key : Option ℕ
  body : NewSession Hash
  chunks : List (ℕ × List UInt8)
  status : ServerStatus
  deriving DecidableEq

section Server

variable {Hash : Type} (digest : List UInt8 → Hash)

def ServerSession.totalChunks (session : ServerSession Hash) : ℕ :=
  ceilDiv session.body.totalSize session.body.chunkSize

/-- The bytes of the chunk `index`. -/
def ServerSession.chunk (session : ServerSession Hash) (index : ℕ) : Option (List UInt8) :=
  (session.chunks.find? (·.1 = index)).map (·.2)

/-- How the server describes a session that it lists. -/
def ServerSession.metadata (session : ServerSession Hash) (uploadId : ℕ) : Session Hash where
  uploadId
  filename := session.body.filename
  totalSize := session.body.totalSize
  chunkSize := session.body.chunkSize
  totalChunks := session.totalChunks
  uploadedSize := if session.status = .aborted then 0 else (session.chunks.map (·.2.length)).sum
  parentId := session.body.parentId
  status := match session.status with
    | .live => if session.chunks.isEmpty then .pending else .uploading
    | .completed => .completed
    | .aborted => .aborted
  chunks := none
  file := none

/-- `reconcileUploadSession`. -/
def ServerSession.detail (session : ServerSession Hash) (uploadId : ℕ) : Session Hash :=
  match session.status with
  | .live => { session.metadata uploadId with
      chunks := some (session.chunks.map fun chunk => ⟨chunk.1, chunk.2.length, digest chunk.2⟩) }
  | .completed => { session.metadata uploadId with chunks := some [], file := some uploadId }
  | .aborted => { session.metadata uploadId with chunks := some [] }

variable [DecidableEq Hash]

/-- What the server makes of a request that it grants: its sessions and the answer. A key is good for one
session, and a chunk for one content. -/
def serve (server : List (ServerSession Hash)) (k : ℕ) :
    Request Hash → Option (List (ServerSession Hash) × Response Hash)
  | .create key body =>
    match server.findIdx? fun session => key.isSome && session.key = key with
    | none => some (server ++ [⟨k, key, body, [], .live⟩], .created server.length)
    | some uploadId =>
      match server[uploadId]? with
      | some session => if session.body = body then some (server, .created uploadId) else none
      | none => none
  | .detail uploadId =>
    (server[uploadId]?).map fun session => (server, .detail (session.detail digest uploadId))
  | .chunk uploadId index bytes =>
    match server[uploadId]? with
    | none => none
    | some session =>
      if session.status = .live && uploadChunkAccepts session.body.totalSize session.body.chunkSize
          session.totalChunks index bytes.length then
        match session.chunk index with
        | none => some (server.set uploadId { session with chunks := session.chunks ++ [(index, bytes)] },
            .accepted)
        | some stored => if stored = bytes then some (server, .accepted) else none
      else none
  | .complete uploadId =>
    match server[uploadId]? with
    | none => none
    | some session =>
      match session.status with
      | .aborted => none
      | .completed => some (server, .completed)
      | .live =>
        if (List.range session.totalChunks).all fun index => (session.chunk index).isSome then
          some (server.set uploadId { session with status := .completed }, .completed)
        else none
  | .remove uploadId =>
    match server[uploadId]? with
    | none => none
    | some session =>
      if session.status = .completed then none
      else some (server.set uploadId { session with status := .aborted, chunks := [] }, .removed)
  | .limits | .sessions => none

end Server

/-! ## The state -/

/-- A request of a job, or of anything else, when it has been sent, and its answer. -/
structure Exchange (Hash : Type) where
  job : Option JobId
  request : Request Hash
  time : ℕ
  response : Option (Response Hash)

/-- The requests, the sessions of the server, and the time. -/
structure World (Hash : Type) where
  exchanges : List (Exchange Hash)
  server : List (ServerSession Hash)
  now : ℕ

structure UploadQueueItem where
  id : JobId
  name : JsString
  size : ℕ
  parentId : Option ℕ
  state : UploadQueueState
  committedBytes : ℕ
  percent : ℕ
  needsFile : Bool
  uploadId : Option ℕ

structure SavedUpload (Hash : Type) where
  id : JobId
  name : JsString
  size : ℕ
  parentId : Option ℕ
  uploadId : ℕ
  committedBytes : ℕ
  expectedSha256 : Option Hash
  fingerprint : Option Hash
  notBefore : Option ℕ
  cancellationPending : Bool

/-- The queue of a page; what it has saved, and whether it can save anything now; `sequence` makes the
identifiers of the jobs. -/
structure State (Hash : Type) extends World Hash where
  jobs : List (Job Hash)
  snapshot : List UploadQueueItem
  active : ℕ
  disposed : Bool
  storage : List (SavedUpload Hash)
  storable : Bool
  sequence : ℕ
  discovery : Option ℕ

def CONCURRENT_FILES : ℕ := 2

section Machine

variable {Hash : Type} [DecidableEq Hash] (page : Page Hash)

def Job.item (job : Job Hash) : UploadQueueItem where
  id := job.id
  name := job.name
  size := job.size
  parentId := job.parentId
  state := job.state
  committedBytes := job.committedBytes
  percent := if job.state = .completed then 100 else min 99 (job.committedBytes * 100 / job.size)
  needsFile := job.needsFile
  uploadId := job.uploadId

def Job.saved (job : Job Hash) : Option (SavedUpload Hash) :=
  if job.state.terminal then none
  else
    job.uploadId.map fun uploadId => ⟨job.id, job.name, job.size, job.parentId, uploadId,
      job.committedBytes, job.expectedSha256, job.fingerprint, job.budget.notBefore,
      job.cancellationPending⟩

def validSaved (saved : SavedUpload Hash) : Bool :=
  WholeSha256.isSafeInteger saved.size && saved.size > 0 &&
    WholeSha256.isSafeInteger saved.committedBytes && saved.committedBytes ≤ saved.size &&
    saved.parentId.all (· > 0)

/-- A job that is not doing anything. -/
def Job.idle (id : JobId) (name : JsString) (size : ℕ) (parentId : Option ℕ)
    (state : UploadQueueState) : Job Hash where
  id := id
  createKey := none
  createDeadline := none
  name := name
  size := size
  parentId := parentId
  state := state
  committedBytes := 0
  needsFile := false
  uploadId := none
  file := none
  session := none
  expectedSha256 := none
  fingerprint := none
  budget := ⟨WAIT_BUDGET_MS, none, none⟩
  control := none
  pauseRequested := false
  cancellationPending := false
  cancelling := false
  verifyCommitted := false
  busy := false
  creationUncertain := false
  hashVerifiedFile := none
  runs := []
  cancellations := []
  reselections := []
  cancelRequested := false
  uploaded := none

/-- The job for a file that is added. -/
def newJob (parentId : Option ℕ) (start : Bool) (n : ℕ) (file : LocalFile) : Job Hash :=
  let size := file.data.length
  let valid := WholeSha256.isSafeInteger size && size > 0
  { Job.idle (.fresh n) file.name size parentId
      (if valid then if start then .queued else .selected else .error) with
    createKey := if page.transport then some n else none
    file := some file }

/-- What `startAll` does to a job. -/
def Job.select (job : Job Hash) : Job Hash :=
  if job.state = .selected then { job with state := .queued } else job

def restoredJob (saved : SavedUpload Hash) : Job Hash :=
  { Job.idle saved.id saved.name saved.size saved.parentId
      (if saved.cancellationPending then .error else .needsFile) with
    committedBytes := saved.committedBytes
    needsFile := true
    uploadId := some saved.uploadId
    fingerprint := saved.fingerprint
    expectedSha256 := saved.expectedSha256
    budget := ⟨WAIT_BUDGET_MS, none, saved.notBefore⟩
    pauseRequested := true
    cancellationPending := saved.cancellationPending
    cancelRequested := saved.cancellationPending
    verifyCommitted := true }

namespace State

variable (s : State Hash)

def publish : State Hash :=
  { s with
    snapshot := s.jobs.map Job.item
    storage := if s.storable && !page.transport then s.jobs.filterMap Job.saved else s.storage }

def context : Context Hash := ⟨page, s.disposed, s.now, s.exchanges.length⟩

/-- The answer to a request. -/
def response (k : ℕ) : Option (Response Hash) := (s.exchanges[k]?).bind (·.response)

/-- A request is sent. -/
def send (job : Option JobId) (request : Request Hash) : State Hash :=
  { s with exchanges := s.exchanges ++ [⟨job, request, s.now, none⟩] }

/-- `discover`, up to its request. -/
def discover : State Hash :=
  if page.transport then s
  else
    let s := { s with disposed := false }
    if s.discovery.isSome then s
    else { s.send none .sessions with discovery := some s.exchanges.length }

/-- The job at the position `k` is one that the pump starts. -/
def startable (k : ℕ) : Option (Job Hash × LocalFile) := do
  let job ← s.jobs[k]?
  let file ← job.file
  if s.active < CONCURRENT_FILES && job.state = .queued && !job.busy then some (job, file) else none

/-- The run of a job starts, with its first part. -/
def start (k : ℕ) (job : Job Hash) (file : LocalFile) : State Hash :=
  let job := { job with busy := true, control := some false }
  let c := s.context page
  let (job, phase, request, discovers) : Job Hash × Phase Hash × Option (Request Hash) × Bool :=
    match begin c file job with
    | (job, .await phase request) => (job, phase, request, false)
    | (job, .returned) => (job, .ended, none, false)
    | (job, .thrown e) =>
      let (job, discovers) := job.caught c e
      (job, .ended, none, discovers)
  let job := { job with runs := job.runs ++ [⟨file, s.exchanges.length, phase⟩] }
  let s := { s with
    jobs := s.jobs.set k job
    active := s.active + 1
    exchanges := s.exchanges ++ request.toList.map fun request => ⟨some job.id, request, s.now, none⟩ }
  if discovers then s.discover page else s

def pumpAt (k : ℕ) : State Hash :=
  match s.startable k with
  | some (job, file) => s.start page k job file
  | none => s

def pump : State Hash :=
  if s.disposed then s
  else ((List.range s.jobs.length).foldl (fun s k => s.pumpAt page k) s).publish page

/-- Something happens to the job at the position `k`. -/
def act (k : ℕ) (e : Effect Hash) : State Hash :=
  let s := { s with
    jobs := s.jobs.set k e.job
    active := if e.ended then s.active - 1 else s.active
    exchanges := s.exchanges ++
      e.request.toList.map fun request => ⟨some e.job.id, request, s.now, none⟩ }
  let s := if e.discovers then s.discover page else s
  let s := if e.publishes then s.publish page else s
  if e.pumps then s.pump page else s

def enqueue (files : List LocalFile) (parentId : Option ℕ) (start : Bool) : State Hash :=
  let jobs := files.mapIdx fun n file => newJob page parentId start (s.sequence + n) file
  let s' := { s with jobs := s.jobs ++ jobs, sequence := s.sequence + files.length }
  if s.disposed then s else (s'.publish page).pump page

def startAll : State Hash :=
  let s' := { s with jobs := s.jobs.map Job.select }
  if s.disposed then s else (s'.publish page).pump page

def dispose : State Hash :=
  { s with disposed := true, jobs := s.jobs.map Job.dispose }.publish page

def dismissCompleted : State Hash :=
  if s.jobs.all (·.state = .completed) then { s with jobs := [] }.publish page else s

/-- The page is loaded again: its queue is made from what has been saved. -/
def reload : State Hash :=
  { s with
    jobs := if page.transport then [] else (s.storage.filter validSaved).map restoredJob
    active := 0
    disposed := false
    discovery := none }.publish page

/-- A session that the server lists is imported when no job has it. -/
def importSession (session : Session Hash) : State Hash :=
  if validSession session && !s.jobs.any (·.uploadId = some session.uploadId) then
    { s with jobs := s.jobs ++ [{ restoredJob ⟨.server session.uploadId, session.filename,
      session.totalSize, session.parentId, session.uploadId, session.uploadedSize, none, none, none,
      false⟩ with session := some session }] }
  else s

/-- The answer to the discovery is there. -/
def discovered (sessions : List (Session Hash)) : State Hash :=
  let s := { s with discovery := none }
  if s.disposed then s else (sessions.foldl importSession s).publish page

/-- A request gets its answer. -/
def respond (k : ℕ) (e : Exchange Hash) (response : Response Hash) : State Hash :=
  { s with exchanges := s.exchanges.set k { e with response := some response } }

end State

/-- Time goes on; the page can or cannot save; the user does something; something goes on in a job; the
discovery is answered or fails; the server grants a request, refuses it, answers with limits or a list;
someone else sends a request; a session expires. -/
inductive Move (Hash : Type) where
  | tick (n : ℕ)
  | storable (b : Bool)
  | enqueue (files : List LocalFile) (parentId : Option ℕ) (start : Bool)
  | startAll
  | pause (k : ℕ)
  | resume (k : ℕ)
  | cancel (k : ℕ)
  | reselect (k : ℕ) (file : LocalFile)
  | discover
  | dispose
  | dismissCompleted
  | reload
  | run (k i : ℕ) (input : Input)
  | cancellation (k i : ℕ) (input : Input)
  | reselected (k i : ℕ) (readable : Bool)
  | discovered
  | undiscovered
  | serve (k : ℕ) (refusal : Option Refusal)
  | refuse (k : ℕ) (refusal : Refusal)
  | limits (k : ℕ) (limits : UploadLimits)
  | sessions (k : ℕ) (uploadIds : List ℕ)
  | other (request : Request Hash)
  | expire (uploadId : ℕ)

/-- The answer is lost, or is an error that does not tell whether the request has been served. -/
def ambiguous : Option Refusal → Bool
  | none => true
  | some refusal => refusal.status ≥ 500 && !(refusal.status = 503 && (refusal.busy || refusal.capacity))

def Input.fair : Input → Bool
  | .lost refusal _ => ambiguous refusal
  | _ => true

/-- A request that waits for the server. -/
def State.pending (s : State Hash) (k : ℕ) : Option (Exchange Hash) :=
  (s.exchanges[k]?).filter (·.response.isNone)

def State.next (s : State Hash) : Move Hash → Option (State Hash)
  | .tick n => some { s with now := s.now + n }
  | .storable b => some { s with storable := b }
  | .enqueue files parentId start => some (s.enqueue page files parentId start)
  | .startAll => some (s.startAll page)
  | .pause k => (s.jobs[k]?).map fun job => s.act page k job.pause
  | .resume k => (s.jobs[k]?).map fun job => s.act page k (job.resume (s.context page))
  | .cancel k => (s.jobs[k]?).map fun job => s.act page k (job.cancel (s.context page))
  | .reselect k file => (s.jobs[k]?).map fun job => s.act page k (job.reselect (s.context page) file)
  | .discover => some (s.discover page)
  | .dispose => some (s.dispose page)
  | .dismissCompleted => some (s.dismissCompleted page)
  | .reload => some (s.reload page)
  | .run k i input => do
    let job ← s.jobs[k]?
    let e ← job.run (s.context page) s.response i input
    if input.fair then some (s.act page k e) else none
  | .cancellation k i input => do
    let job ← s.jobs[k]?
    let e ← job.cancellation (s.context page) s.response i input
    some (s.act page k e)
  | .reselected k i readable => do
    let job ← s.jobs[k]?
    let e ← job.reselected (s.context page) i readable
    some (s.act page k e)
  | .discovered => do
    let k ← s.discovery
    match s.response k with
    | some (.sessions sessions) => some (s.discovered page sessions)
    | _ => none
  | .undiscovered => s.discovery.map fun _ => { s with discovery := none }
  | .serve k refusal => do
    let e ← s.pending k
    let (server, response) ← serve page.digest s.server k e.request
    -- A public session may have been made when its directory cannot.
    match refusal, e.request with
    | none, _ => some ({ s with server }.respond k e response)
    | some refusal, .create .. =>
      if page.transport then some ({ s with server }.respond k e (.refused refusal)) else none
    | some _, _ => none
  | .refuse k refusal => (s.pending k).map fun e => s.respond k e (.refused refusal)
  | .limits k limits => do
    let e ← s.pending k
    match e.request with
    | .limits => some (s.respond k e (.limits limits))
    | _ => none
  | .sessions k uploadIds => do
    let e ← s.pending k
    match e.request with
    | .sessions => some (s.respond k e (.sessions (uploadIds.filterMap fun uploadId =>
        ((s.server[uploadId]?).filter (·.status = .live)).map (·.metadata uploadId))))
    | _ => none
  | .other request => some (s.send none request)
  | .expire uploadId => (s.server[uploadId]?).bind fun session =>
    if session.status = .live then
      some { s with server := s.server.set uploadId { session with status := .aborted, chunks := [] } }
    else none

/-- A page that has just been opened for the first time. -/
def State.initial : State Hash where
  exchanges := []
  server := []
  now := 0
  jobs := []
  snapshot := []
  active := 0
  disposed := false
  storage := []
  storable := true
  sequence := 0
  discovery := none

/-- The states of runs in which every step satisfies `ok`. -/
inductive Reached (ok : Move Hash → State Hash → Bool) : State Hash → Prop
  | start : Reached ok .initial
  | step {s s'} (m : Move Hash) : Reached ok s → ok m s = true → s.next page m = some s' → Reached ok s'

end Machine

end Queue

end HomeCloud
