import HomeCloud.Client.QueueSystem

/-!
# What holds of the upload queue

* `World.Later`: what the requests and the server keep.
* `WorldOk`: the answers of the server are true, and stay true.
* `Sized`, `Made`, `Ends`, `Run.Fits`, `Cancellation.Fits`, `JobOk`: what holds of a job.
* `JobOk.mono`: it still holds later.
-/

namespace HomeCloud

namespace Queue

open ChunkSizes

variable {Hash : Type}

/-! ## Requests and sessions -/

def Request.isCreate : Request Hash → Bool
  | .create .. => true
  | _ => false

def Request.isChunk : Request Hash → Bool
  | .chunk .. => true
  | _ => false

namespace World

variable (w : World Hash)

/-- The request `k` has been sent for the job. -/
def Sent (id : JobId) (k : ℕ) (request : Request Hash) : Prop :=
  ∃ e, w.exchanges[k]? = some e ∧ e.job = some id ∧ e.request = request

/-- The request `k` has been answered. -/
def Got (k : ℕ) (response : Response Hash) : Prop :=
  ∃ e, w.exchanges[k]? = some e ∧ e.response = some response

def Refused (k : ℕ) : Prop := ∃ refusal, w.Got k (.refused refusal)

/-- The request `k` of the job is one for a new session. -/
def Creation (id : JobId) (k : ℕ) : Prop := ∃ key body, w.Sent id k (.create key body)

def Completed (uploadId : ℕ) : Prop :=
  ∃ session, w.server[uploadId]? = some session ∧ session.status = .completed

def Aborted (uploadId : ℕ) : Prop :=
  ∃ session, w.server[uploadId]? = some session ∧ session.status = .aborted

/-- The chunk of the session has these bytes, unless the session is aborted. -/
def Holds (uploadId index : ℕ) (bytes : List UInt8) : Prop :=
  ∃ session, w.server[uploadId]? = some session ∧
    (session.status = .aborted ∨ session.chunk index = some bytes)

/-- Since the request `since`, the server has reported the chunk to the job, or accepted it. -/
def Covered (since : ℕ) (id : JobId) (uploadId index : ℕ) : Prop :=
  ∃ k, since ≤ k ∧
    ((∃ session, w.Sent id k (.detail uploadId) ∧ w.Got k (.detail session) ∧ index ∈ session.indexes) ∨
      ∃ bytes, w.Sent id k (.chunk uploadId index bytes) ∧ w.Got k .accepted)

/-- The world after a job has sent a request, or none. -/
def sent (id : JobId) (request : Option (Request Hash)) : World Hash :=
  { w with
    exchanges := w.exchanges ++ request.toList.map fun request => ⟨some id, request, w.now, none⟩ }

end World

/-- What the server keeps of a session. -/
structure ServerSession.Later (session session' : ServerSession Hash) : Prop where
  creator : session'.creator = session.creator
  key : session'.key = session.key
  body : session'.body = session.body
  aborted : session.status = .aborted → session'.status = .aborted
  completed : session.status = .completed → session' = session
  chunk : ∀ index bytes, session.chunk index = some bytes →
    session'.status = .aborted ∨ session'.chunk index = some bytes

theorem ServerSession.Later.refl (session : ServerSession Hash) : session.Later session :=
  ⟨rfl, rfl, rfl, fun h => h, fun _ => rfl, fun _ _ h => .inr h⟩

/-- What later holds of the requests and the sessions. -/
structure World.Later (w w' : World Hash) : Prop where
  exchange : ∀ (k : ℕ) e, w.exchanges[k]? = some e → ∃ e', w'.exchanges[k]? = some e' ∧
    e'.job = e.job ∧ e'.request = e.request ∧ e'.time = e.time ∧
    ∀ response, e.response = some response → e'.response = some response
  session : ∀ (uploadId : ℕ) session, w.server[uploadId]? = some session →
    ∃ session', w'.server[uploadId]? = some session' ∧ session.Later session'
  now : w.now ≤ w'.now

namespace World

variable {w w' : World Hash} {id : JobId} {k u i since : ℕ}

theorem Later.refl (w : World Hash) : w.Later w :=
  ⟨fun _ e h => ⟨e, h, rfl, rfl, rfl, fun _ h => h⟩, fun _ session h => ⟨session, h, .refl session⟩,
    le_rfl⟩

theorem Later.length (h : w.Later w') : w.exchanges.length ≤ w'.exchanges.length := by
  by_contra hlt
  have hget := List.getElem?_eq_getElem (not_le.mp hlt)
  obtain ⟨e', he', -⟩ := h.exchange _ _ hget
  exact absurd (List.getElem?_eq_some_iff.mp he').1 (lt_irrefl _)

/-- More requests are sent. -/
theorem Later.exchanges (w : World Hash) (l : List (Exchange Hash)) :
    w.Later { w with exchanges := w.exchanges ++ l } := by
  refine ⟨fun k e h => ⟨e, ?_, rfl, rfl, rfl, fun _ h => h⟩,
    fun _ session h => ⟨session, h, .refl session⟩, le_rfl⟩
  rw [List.getElem?_append_left (List.getElem?_eq_some_iff.mp h).1, h]

theorem Later.sent (w : World Hash) (id : JobId) (request : Option (Request Hash)) :
    w.Later (w.sent id request) := .exchanges w _

@[simp]
theorem sent_none (w : World Hash) (id : JobId) : w.sent id none = w := by
  rw [World.sent, Option.toList_none, List.map_nil, List.append_nil]

/-- The request is the last one. -/
theorem sent_last (w : World Hash) (id : JobId) (request : Request Hash) :
    (w.sent id (some request)).Sent id w.exchanges.length request :=
  ⟨_, List.getElem?_concat_length, rfl, rfl⟩

/-- A request is one from before, or the last one. -/
theorem getElem?_sent {request : Option (Request Hash)} {e : Exchange Hash}
    (h : (w.sent id request).exchanges[k]? = some e) : w.exchanges[k]? = some e ∨
      k = w.exchanges.length ∧ ∃ q, request = some q ∧ e = ⟨some id, q, w.now, none⟩ := by
  cases request with
  | none =>
    rw [sent_none] at h
    exact .inl h
  | some q =>
    change (w.exchanges ++ [_])[k]? = some e at h
    rw [List.getElem?_append] at h
    split_ifs at h with hlt
    · exact .inl h
    · right
      have hk := List.getElem?_eq_some_iff.mp h
      obtain ⟨hk, he⟩ := hk
      rw [List.length_singleton] at hk
      exact ⟨by omega, q, rfl, by simpa using he.symm⟩

/-- A request for a session is from before when no other is sent. -/
theorem Creation.of_sent {id' : JobId} {request : Option (Request Hash)}
    (h : (w.sent id request).Creation id' k)
    (hno : id' ≠ id ∨ ∀ q, request = some q → q.isCreate = false) : w.Creation id' k := by
  obtain ⟨key, body, e, he, hjob, hrequest⟩ := h
  rcases getElem?_sent he with hbefore | ⟨-, q, hq, rfl⟩
  · exact ⟨key, body, e, hbefore, hjob, hrequest⟩
  · rcases hno with hne | hno
    · exact absurd (Option.some.inj hjob).symm hne
    · have hcreate := hno q hq
      change q = .create key body at hrequest
      rw [hrequest] at hcreate
      cases hcreate

theorem Sent.mono {request : Request Hash} (hl : w.Later w') (h : w.Sent id k request) :
    w'.Sent id k request := by
  obtain ⟨e, he, hjob, hrequest⟩ := h
  obtain ⟨e', he', hjob', hrequest', -⟩ := hl.exchange k e he
  exact ⟨e', he', hjob'.trans hjob, hrequest'.trans hrequest⟩

theorem Got.mono {response : Response Hash} (hl : w.Later w') (h : w.Got k response) :
    w'.Got k response := by
  obtain ⟨e, he, hresponse⟩ := h
  obtain ⟨e', he', -, -, -, hkeeps⟩ := hl.exchange k e he
  exact ⟨e', he', hkeeps _ hresponse⟩

theorem Refused.mono (hl : w.Later w') (h : w.Refused k) : w'.Refused k :=
  h.imp fun _ hgot => hgot.mono hl

theorem Completed.mono (hl : w.Later w') (h : w.Completed u) : w'.Completed u := by
  obtain ⟨session, hs, hstatus⟩ := h
  obtain ⟨session', hs', hlater⟩ := hl.session u session hs
  exact ⟨session', hs', by rw [hlater.completed hstatus, hstatus]⟩

theorem Aborted.mono (hl : w.Later w') (h : w.Aborted u) : w'.Aborted u := by
  obtain ⟨session, hs, hstatus⟩ := h
  obtain ⟨session', hs', hlater⟩ := hl.session u session hs
  exact ⟨session', hs', hlater.aborted hstatus⟩

theorem Holds.mono {bytes : List UInt8} (hl : w.Later w') (h : w.Holds u i bytes) :
    w'.Holds u i bytes := by
  obtain ⟨session, hs, hholds⟩ := h
  obtain ⟨session', hs', hlater⟩ := hl.session u session hs
  exact ⟨session', hs', hholds.elim (fun h => .inl (hlater.aborted h)) (hlater.chunk i bytes)⟩

theorem Covered.mono (hl : w.Later w') (h : w.Covered since id u i) : w'.Covered since id u i := by
  obtain ⟨k, hk, ⟨session, hsent, hgot, hmem⟩ | ⟨bytes, hsent, hgot⟩⟩ := h
  · exact ⟨k, hk, .inl ⟨session, hsent.mono hl, hgot.mono hl, hmem⟩⟩
  · exact ⟨k, hk, .inr ⟨bytes, hsent.mono hl, hgot.mono hl⟩⟩

end World

/-! ## The server -/

/-- What the details of a session tell is true. -/
structure DetailOk (page : Page Hash) (w : World Hash) (detail : Session Hash) : Prop where
  session : ∃ session, w.server[detail.uploadId]? = some session ∧
    session.body.totalSize = detail.totalSize ∧ session.body.chunkSize = detail.chunkSize
  completed : detail.status = .completed → w.Completed detail.uploadId
  chunk : ∀ chunk ∈ detail.chunks.getD [], ∃ bytes, w.Holds detail.uploadId chunk.chunkIndex bytes ∧
    page.digest bytes = chunk.sha256

/-- An answer to the request `k` is true. -/
def Truthful (page : Page Hash) (w : World Hash) (k : ℕ) : Request Hash → Response Hash → Prop
  | _, .refused _ => True
  | .limits, .limits _ => True
  | .sessions, .sessions _ => True
  | .create key body, .created u => ∃ session, w.server[u]? = some session ∧ session.key = key ∧
      session.body = body ∧ (key = none → session.creator = k)
  | .detail u, .detail detail => detail.uploadId = u ∧ DetailOk page w detail
  | .chunk u i bytes, .accepted => w.Holds u i bytes
  | .complete u, .completed => w.Completed u
  | .remove u, .removed => w.Aborted u
  | _, _ => False

/-- What holds of the requests and the server. -/
structure WorldOk (page : Page Hash) (w : World Hash) : Prop where
  truthful : ∀ (k : ℕ) e response, w.exchanges[k]? = some e → e.response = some response →
    Truthful page w k e.request response
  creator : ∀ (u : ℕ) session, w.server[u]? = some session → ∃ e response,
    w.exchanges[session.creator]? = some e ∧ e.request = .create session.key session.body ∧
    e.response = some response ∧ (page.transport = false → response = .created u)
  key : ∀ (u u' : ℕ) session session', w.server[u]? = some session → w.server[u']? = some session' →
    session.key.isSome → session'.key = session.key → u' = u
  index : ∀ (u : ℕ) session i bytes, w.server[u]? = some session → session.chunk i = some bytes →
    i < session.totalChunks
  complete : ∀ u, w.Completed u → ∃ (k : ℕ) (e : Exchange Hash), w.exchanges[k]? = some e ∧
    e.request = .complete u
  nodup : ∀ (u : ℕ) session, w.server[u]? = some session → (session.chunks.map (·.1)).Nodup

section Truthful

variable {page : Page Hash} {w w' : World Hash} {k : ℕ}

theorem DetailOk.mono {detail : Session Hash} (hl : w.Later w') (h : DetailOk page w detail) :
    DetailOk page w' detail := by
  refine ⟨?_, fun hc => (h.completed hc).mono hl, fun chunk hchunk => ?_⟩
  · obtain ⟨session, hs, htotal, hsize⟩ := h.session
    obtain ⟨session', hs', hlater⟩ := hl.session _ session hs
    exact ⟨session', hs', hlater.body ▸ htotal, hlater.body ▸ hsize⟩
  · obtain ⟨bytes, hholds, hdigest⟩ := h.chunk chunk hchunk
    exact ⟨bytes, hholds.mono hl, hdigest⟩

theorem Truthful.mono {request : Request Hash} {response : Response Hash} (hl : w.Later w')
    (h : Truthful page w k request response) : Truthful page w' k request response := by
  unfold Truthful at h ⊢
  split at h
  · trivial
  · trivial
  · trivial
  · obtain ⟨session, hs, hkey, hbody, hcreator⟩ := h
    obtain ⟨session', hs', hlater⟩ := hl.session _ session hs
    exact ⟨session', hs', hlater.key.trans hkey, hlater.body.trans hbody,
      fun hk => hlater.creator.trans (hcreator hk)⟩
  · exact ⟨h.1, h.2.mono hl⟩
  · exact World.Holds.mono hl h
  · exact World.Completed.mono hl h
  · exact World.Aborted.mono hl h
  · exact h.elim

/-- An answer that a job has got is true. -/
theorem WorldOk.got {id : JobId} {request : Request Hash} {response : Response Hash} (h : WorldOk page w)
    (hsent : w.Sent id k request) (hgot : w.Got k response) : Truthful page w k request response := by
  obtain ⟨e, he, -, rfl⟩ := hsent
  obtain ⟨e', he', hresponse⟩ := hgot
  cases he.symm.trans he'
  exact h.truthful k e response he hresponse

/-- More requests are sent. -/
theorem WorldOk.exchanges (h : WorldOk page w) {l : List (Exchange Hash)}
    (hl : ∀ e ∈ l, e.response = none) :
    WorldOk page { w with exchanges := w.exchanges ++ l } := by
  have hlater := World.Later.exchanges w l
  refine ⟨fun k e response he hresponse => ?_, fun u session hs => ?_, h.key, h.index, fun u hu => ?_,
    h.nodup⟩
  · change (w.exchanges ++ l)[k]? = some e at he
    rw [List.getElem?_append] at he
    split_ifs at he with hlt
    · exact (h.truthful k e response he hresponse).mono hlater
    · have hnone := hl e (List.mem_of_getElem? he)
      rw [hresponse] at hnone
      cases hnone
  · obtain ⟨e, response, he, hrequest, hresponse, hu⟩ := h.creator u session hs
    exact ⟨e, response, (List.getElem?_append_left (List.getElem?_eq_some_iff.mp he).1).trans he, hrequest,
      hresponse, hu⟩
  · obtain ⟨k, e, he, hrequest⟩ := h.complete u hu
    exact ⟨k, e, (List.getElem?_append_left (List.getElem?_eq_some_iff.mp he).1).trans he, hrequest⟩

theorem WorldOk.sent (h : WorldOk page w) (id : JobId) (request : Option (Request Hash)) :
    WorldOk page (w.sent id request) := by
  refine h.exchanges fun e he => ?_
  obtain ⟨q, -, rfl⟩ := List.mem_map.mp he
  rfl

end Truthful

/-! ## Jobs -/

/-- The file has the size of the job, and no more bytes are committed, none without a session. -/
structure Sized (size committedBytes : ℕ) (file : Option LocalFile) (uploadId : Option ℕ) : Prop where
  bytes : committedBytes ≤ size
  fresh : uploadId = none → committedBytes = 0
  file : ∀ f, file = some f → f.data.length = size

/-- What the job has of the sessions that it has asked for. Without a transport, a request for one has been
refused, or has made the session of the job, or the job knows that it does not know; with a transport all
of them have the key of the job, and its window. -/
structure Made (page : Page Hash) (w : World Hash) (id : JobId) (createKey createDeadline uploadId : Option ℕ)
    (creationUncertain : Bool) : Prop where
  owner : page.transport = false → ∀ k, w.Creation id k → w.Refused k ∨
    (∃ u, uploadId = some u ∧ w.Got k (.created u)) ∨ uploadId = none ∧ creationUncertain = true
  key : page.transport = true → createKey.isSome
  keys : page.transport = true → ∀ k key body, w.Sent id k (.create key body) → key = createKey
  deadline : ∀ d, createDeadline = some d → d ≤ w.now + CREATE_WINDOW_MS
  window : page.transport = true → ∀ (k : ℕ) e, w.exchanges[k]? = some e → e.job = some id →
    e.request.isCreate = true →
    ∃ d, createDeadline = some d ∧ e.time < d ∧ d ≤ e.time + CREATE_WINDOW_MS
  session : page.transport = true → ∀ u, uploadId = some u →
    ∃ session, w.server[u]? = some session ∧ session.key = createKey

/-- What the state of a job tells about its session, and what the run that has completed it has left. -/
structure Ends (page : Page Hash) (w : World Hash) (state : UploadQueueState) (uploadId : Option ℕ)
    (uploaded : Option LocalFile) : Prop where
  completed : state = .completed → ∃ u, uploadId = some u ∧ w.Completed u
  cancelled : state = .cancelled → ∀ u, uploadId = some u → w.Aborted u
  uploaded : page.digest.Injective → ∀ f, uploaded = some f → ∃ u session, uploadId = some u ∧
    w.server[u]? = some session ∧ session.status = .completed ∧
    ∀ i bytes, session.chunk i = some bytes → bytes = slice f.data session.body.chunkSize i

/-- The job has no session, and without a transport nothing may have made one for it. -/
structure Unmade (page : Page Hash) (w : World Hash) (job : Job Hash) : Prop where
  uploadId : job.uploadId = none
  refused : page.transport = false → ∀ k, w.Creation job.id k → w.Refused k

/-- A run goes on with the chunks of a session, some of which have been committed. -/
structure Counted (w : World Hash) (since : ℕ) (job : Job Hash) (session : Session Hash)
    (indexes : List ℕ) : Prop where
  uploadId : job.uploadId = some session.uploadId
  size : session.totalSize = job.size
  laidOut : LaidOut session.totalSize session.chunkSize session.totalChunks
  server : ∃ stored, w.server[session.uploadId]? = some stored ∧
    stored.body.totalSize = session.totalSize ∧ stored.body.chunkSize = session.chunkSize
  nodup : indexes.Nodup
  range : ∀ i ∈ indexes, i < session.totalChunks
  bytes : job.committedBytes =
    (indexes.map (chunkLength session.totalSize session.chunkSize session.totalChunks)).sum
  covered : ∀ i ∈ indexes, w.Covered since job.id session.uploadId i

/-- The chunks have the bytes of the file. -/
def Slices (page : Page Hash) (w : World Hash) (file : LocalFile) (session : Session Hash)
    (indexes : List ℕ) : Prop :=
  page.digest.Injective → ∀ i ∈ indexes,
    w.Holds session.uploadId i (slice file.data session.chunkSize i)

/-- A run verifies the chunks that the server has reported, and the first `n` of them are those of the
file. -/
structure Verifying (page : Page Hash) (w : World Hash) (run : Run Hash) (job : Job Hash)
    (session : Session Hash) (n : ℕ) : Prop where
  counted : Counted w run.since job session session.indexes
  reported : ∀ chunk ∈ session.chunks.getD [], ∃ bytes,
    w.Holds session.uploadId chunk.chunkIndex bytes ∧ page.digest bytes = chunk.sha256
  slices : Slices page w run.file session (session.indexes.take n)
  verify : job.verifyCommitted = true

/-- What holds before an attempt of the call. -/
def Call.Fits (page : Page Hash) (w : World Hash) (run : Run Hash) (job : Job Hash) : Call Hash → Prop
  | .limits => Unmade page w job
  | .create chunkSize => 0 < chunkSize ∧ Unmade page w job
  | .chunk session accepted index => Counted w run.since job session accepted ∧
      Slices page w run.file session accepted ∧ index < session.totalChunks ∧ index ∉ accepted ∧
      ∀ i < index, i ∈ accepted
  | .complete session accepted => Counted w run.since job session accepted ∧
      Slices page w run.file session accepted ∧ ∀ i < session.totalChunks, i ∈ accepted
  | .replay session => job.uploadId = some session.uploadId ∧ w.Completed session.uploadId

/-- What holds while an attempt of the call waits for its answer. -/
def Call.Waits (page : Page Hash) (w : World Hash) (run : Run Hash) (job : Job Hash) (k : ℕ) :
    Call Hash → Prop
  | .limits => Unmade page w job
  | .create chunkSize => 0 < chunkSize ∧ job.uploadId = none ∧ job.creationUncertain = true ∧
      (page.transport = false → ∀ k', w.Creation job.id k' → k' ≠ k → w.Refused k') ∧
      ∃ key body, w.Sent job.id k (.create key body) ∧ body.totalSize = job.size ∧
        body.chunkSize = chunkSize
  | .chunk session accepted index => (Call.chunk session accepted index).Fits page w run job ∧
      run.since ≤ k ∧
      w.Sent job.id k (.chunk session.uploadId index (slice run.file.data session.chunkSize index))
  | .complete session accepted => (Call.complete session accepted).Fits page w run job ∧
      w.Sent job.id k (.complete session.uploadId)
  | .replay session => (Call.replay session).Fits page w run job

/-- What holds while a run awaits something. -/
def Phase.Fits (page : Page Hash) (w : World Hash) (run : Run Hash) (job : Job Hash) :
    Phase Hash → Prop
  | .fingerprint => Unmade page w job
  | .hashing (.create chunkSize) _ => 0 < chunkSize ∧ Unmade page w job
  | .hashing (.verify session) _ => Verifying page w run job session 0
  | .reconciling k => run.since ≤ k ∧ job.verifyCommitted = true ∧
      ∃ u, job.uploadId = some u ∧ w.Sent job.id k (.detail u)
  | .verifying session n => n < session.indexes.length ∧ Verifying page w run job session n
  | .calling call (.backoff ..) => call.Fits page w run job
  | .calling call (.sent _ k) => call.Waits page w run job k
  | .ended => True

structure Run.Fits (page : Page Hash) (w : World Hash) (job : Job Hash) (run : Run Hash) : Prop where
  length : run.file.data.length = job.size
  positive : 0 < job.size
  since : run.since ≤ w.exchanges.length
  phase : run.phase.Fits page w run job

/-- What holds while a cancellation awaits something. -/
def Cancellation.Fits (w : World Hash) (job : Job Hash) (cancellation : Cancellation Hash) : Prop :=
  match cancellation.phase with
  | .deleting (.sent _ k) _ => ∃ u, job.uploadId = some u ∧ w.Sent job.id k (.remove u)
  | .deleting (.backoff ..) _ => job.uploadId.isSome
  | .checking k _ => ∃ u, job.uploadId = some u ∧ w.Sent job.id k (.detail u)
  | .replaying session _ _ => job.uploadId = some session.uploadId ∧ w.Completed session.uploadId

/-- What the marks of a job tell. -/
structure Flags (page : Page Hash) (job : Job Hash) : Prop where
  idle : job.state = .selected ∨ job.state = .queued → 0 < job.size ∧ job.busy = false ∧
    job.pauseRequested = false ∧ job.cancellationPending = false ∧
    (job.uploadId.isSome → job.verifyCommitted = true) ∧
    (page.transport = false → job.uploadId = none → job.creationUncertain = false)
  requested : job.cancelRequested = true → job.cancellationPending = true ∨ job.state.terminal = true
  control : job.busy = true → job.control.isSome
  signalled : job.busy = true → job.cancellationPending = true → job.control = some true
  cancelling : job.cancelling = true → job.busy = false ∧ job.cancellationPending = true
  terminal : job.state.terminal = true → job.busy = false ∧ job.cancelling = false
  runs : job.runs.length = if job.busy then 1 else 0
  cancellations : job.cancellations.length = if job.cancelling then 1 else 0

structure JobOk (page : Page Hash) (w : World Hash) (job : Job Hash) : Prop where
  sized : Sized job.size job.committedBytes job.file job.uploadId
  made : Made page w job.id job.createKey job.createDeadline job.uploadId job.creationUncertain
  ends : Ends page w job.state job.uploadId job.uploaded
  flags : Flags page job
  run : ∀ run ∈ job.runs, run.Fits page w job
  cancellation : ∀ cancellation ∈ job.cancellations, cancellation.Fits w job
  reselection : ∀ file ∈ job.reselections, file.data.length = job.size
  id : ∀ u, job.id = .server u → job.uploadId = some u

/-! ## Later -/

section Later

variable {page : Page Hash} {w w' : World Hash} {job : Job Hash} {run : Run Hash}

theorem Made.mono {id : JobId} {createKey createDeadline uploadId : Option ℕ} {creationUncertain : Bool}
    (hl : w.Later w') (hnew : ∀ k, w'.Creation id k → w.Creation id k)
    (h : Made page w id createKey createDeadline uploadId creationUncertain) :
    Made page w' id createKey createDeadline uploadId creationUncertain := by
  refine ⟨fun ho k hk => ?_, h.key, fun ht k key body hsent => ?_, fun d hd => ?_,
    fun ht k e he hjob hcreate => ?_, fun ht u hu => ?_⟩
  · rcases h.owner ho k (hnew k hk) with hr | ⟨u, hu, hgot⟩ | hnone
    · exact .inl (hr.mono hl)
    · exact .inr (.inl ⟨u, hu, hgot.mono hl⟩)
    · exact .inr (.inr hnone)
  · obtain ⟨key', body', hold⟩ := hnew k ⟨key, body, hsent⟩
    obtain ⟨e, he, -, hrequest⟩ := hold.mono hl
    obtain ⟨e', he', -, hrequest'⟩ := hsent
    cases he.symm.trans he'
    cases hrequest.symm.trans hrequest'
    exact h.keys ht k _ _ hold
  · exact (h.deadline d hd).trans (Nat.add_le_add_right hl.now _)
  · have hnewk : w'.Creation id k := by
      cases hrequest : e.request with
      | create key body => exact ⟨key, body, e, he, hjob, hrequest⟩
      | _ => rw [hrequest] at hcreate; cases hcreate
    obtain ⟨key, body, e₀, he₀, hjob₀, hrequest₀⟩ := hnew k hnewk
    obtain ⟨e', he', -, -, htime, -⟩ := hl.exchange k e₀ he₀
    cases he.symm.trans he'
    rw [htime]
    exact h.window ht k e₀ he₀ hjob₀ (by rw [hrequest₀]; rfl)
  · obtain ⟨session, hs, hkey⟩ := h.session ht u hu
    obtain ⟨session', hs', hlater⟩ := hl.session u session hs
    exact ⟨session', hs', hlater.key.trans hkey⟩

theorem Ends.mono {state : UploadQueueState} {uploadId : Option ℕ} {uploaded : Option LocalFile}
    (hl : w.Later w') (h : Ends page w state uploadId uploaded) :
    Ends page w' state uploadId uploaded := by
  refine ⟨fun hstate => ?_, fun hstate u hu => (h.cancelled hstate u hu).mono hl, fun hinj f hf => ?_⟩
  · obtain ⟨u, hu, hcompleted⟩ := h.completed hstate
    exact ⟨u, hu, hcompleted.mono hl⟩
  · obtain ⟨u, session, hu, hs, hstatus, hchunks⟩ := h.uploaded hinj f hf
    obtain ⟨session', hs', hlater⟩ := hl.session u session hs
    rw [hlater.completed hstatus] at hs'
    exact ⟨u, session, hu, hs', hstatus, hchunks⟩

/-- The state of a job changes, but it does not end. -/
theorem Ends.go {state state' : UploadQueueState} {uploadId : Option ℕ} {uploaded : Option LocalFile}
    (h : Ends page w state uploadId uploaded) (hstate : state'.terminal = false) :
    Ends page w state' uploadId uploaded := by
  refine ⟨fun hc => ?_, fun hc => ?_, h.uploaded⟩
  · rw [hc] at hstate
    cases hstate
  · rw [hc] at hstate
    cases hstate

theorem Unmade.mono (hl : w.Later w') (hnew : ∀ k, w'.Creation job.id k → w.Creation job.id k)
    (h : Unmade page w job) : Unmade page w' job :=
  ⟨h.uploadId, fun ho k hk => (h.refused ho k (hnew k hk)).mono hl⟩

theorem Counted.mono {since : ℕ} {session : Session Hash} {indexes : List ℕ} (hl : w.Later w')
    (h : Counted w since job session indexes) : Counted w' since job session indexes := by
  refine ⟨h.uploadId, h.size, h.laidOut, ?_, h.nodup, h.range, h.bytes,
    fun i hi => (h.covered i hi).mono hl⟩
  obtain ⟨stored, hs, htotal, hsize⟩ := h.server
  obtain ⟨stored', hs', hlater⟩ := hl.session _ stored hs
  exact ⟨stored', hs', hlater.body ▸ htotal, hlater.body ▸ hsize⟩

theorem Slices.mono {file : LocalFile} {session : Session Hash} {indexes : List ℕ} (hl : w.Later w')
    (h : Slices page w file session indexes) : Slices page w' file session indexes :=
  fun hinj i hi => (h hinj i hi).mono hl

theorem Verifying.mono {session : Session Hash} {n : ℕ} (hl : w.Later w')
    (h : Verifying page w run job session n) : Verifying page w' run job session n := by
  refine ⟨h.counted.mono hl, fun chunk hchunk => ?_, h.slices.mono hl, h.verify⟩
  obtain ⟨bytes, hholds, hdigest⟩ := h.reported chunk hchunk
  exact ⟨bytes, hholds.mono hl, hdigest⟩

theorem Call.Fits.mono {call : Call Hash} (hl : w.Later w')
    (hnew : ∀ k, w'.Creation job.id k → w.Creation job.id k) (h : call.Fits page w run job) :
    call.Fits page w' run job := by
  cases call with
  | limits => exact Unmade.mono hl hnew h
  | create => exact ⟨h.1, h.2.mono hl hnew⟩
  | chunk => exact ⟨h.1.mono hl, h.2.1.mono hl, h.2.2⟩
  | complete => exact ⟨h.1.mono hl, h.2.1.mono hl, h.2.2⟩
  | replay => exact ⟨h.1, h.2.mono hl⟩

theorem Call.Waits.mono {call : Call Hash} {k : ℕ} (hl : w.Later w')
    (hnew : ∀ k, w'.Creation job.id k → w.Creation job.id k) (h : call.Waits page w run job k) :
    call.Waits page w' run job k := by
  cases call with
  | limits => exact Unmade.mono hl hnew h
  | create =>
    obtain ⟨hpos, hnone, huncertain, hothers, key, body, hsent, hbody⟩ := h
    exact ⟨hpos, hnone, huncertain, fun ho k' hk' hne => (hothers ho k' (hnew k' hk') hne).mono hl, key, body,
      hsent.mono hl, hbody⟩
  | chunk => exact ⟨Call.Fits.mono hl hnew h.1, h.2.1, h.2.2.mono hl⟩
  | complete => exact ⟨Call.Fits.mono hl hnew h.1, h.2.mono hl⟩
  | replay session =>
    have hfits : (Call.replay session).Fits page w run job := h
    exact hfits.mono hl hnew

theorem Run.Fits.mono (hl : w.Later w') (hnew : ∀ k, w'.Creation job.id k → w.Creation job.id k)
    (h : run.Fits page w job) : run.Fits page w' job := by
  refine ⟨h.length, h.positive, h.since.trans hl.length, ?_⟩
  have hphase := h.phase
  unfold Phase.Fits at hphase ⊢
  split at hphase
  · exact hphase.mono hl hnew
  · exact ⟨hphase.1, hphase.2.mono hl hnew⟩
  · exact hphase.mono hl
  · obtain ⟨hsince, hverify, u, hu, hsent⟩ := hphase
    exact ⟨hsince, hverify, u, hu, hsent.mono hl⟩
  · exact ⟨hphase.1, hphase.2.mono hl⟩
  · exact hphase.mono hl hnew
  · exact hphase.mono hl hnew
  · trivial

theorem Cancellation.Fits.mono {cancellation : Cancellation Hash} (hl : w.Later w')
    (h : cancellation.Fits w job) : cancellation.Fits w' job := by
  unfold Cancellation.Fits at h ⊢
  split at h
  · obtain ⟨u, hu, hsent⟩ := h
    exact ⟨u, hu, hsent.mono hl⟩
  · exact h
  · obtain ⟨u, hu, hsent⟩ := h
    exact ⟨u, hu, hsent.mono hl⟩
  · exact ⟨h.1, h.2.mono hl⟩

/-- **What holds of a job still holds later**, unless a session is asked for. -/
theorem JobOk.mono (hl : w.Later w') (hnew : ∀ k, w'.Creation job.id k → w.Creation job.id k)
    (h : JobOk page w job) : JobOk page w' job :=
  ⟨h.sized, h.made.mono hl hnew, h.ends.mono hl, h.flags, fun run hrun => (h.run run hrun).mono hl hnew,
    fun x hx => (h.cancellation x hx).mono hl, h.reselection, h.id⟩

end Later

end Queue

end HomeCloud
