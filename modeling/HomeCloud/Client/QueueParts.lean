import HomeCloud.Client.QueueInvariant

/-!
# The parts of a run keep what holds

* `Ready`: what a part of a run starts from; `Good`: what it leaves.
* `good_attempt`, `good_begins`, `good_failed`: requests with their retries.
* `good_loop`, …, `good_answered`: the other parts; **`good_next`**: a run that gets on.
-/

namespace HomeCloud

namespace Queue

open ChunkSizes

variable {Hash : Type} {page : Page Hash} {w : World Hash} {run : Run Hash} {job job' : Job Hash}

/-! ## What a part starts from, and what it leaves -/

/-- A job in a run that is not over. -/
def UploadQueueState.running (state : UploadQueueState) : Bool :=
  !(state = .selected || state = .queued || state.terminal)

/-- The part of a job that runs leave as it is. -/
def Job.frame (job : Job Hash) : Job Hash :=
  { job with
    createDeadline := none
    state := .error
    committedBytes := 0
    needsFile := false
    uploadId := none
    file := none
    session := none
    expectedSha256 := none
    fingerprint := none
    budget := ⟨0, none, none⟩
    cancellationPending := false
    verifyCommitted := false
    creationUncertain := false
    hashVerifiedFile := none
    uploaded := none }

def Outcome.request : Outcome Hash → Option (Request Hash)
  | .await _ request => request
  | _ => none

/-- A job that is cancelled sends no chunk and asks for no session; and a completion is asked for again, or
all chunks are covered. -/
def Request.Allowed (w : World Hash) (since : ℕ) (job : Job Hash) (request : Request Hash) : Prop :=
  ((request.isCreate || request.isChunk) = true → job.cancelRequested = false) ∧
  ∀ u, request = .complete u →
    (∃ (k : ℕ) (e : Exchange Hash), w.exchanges[k]? = some e ∧ e.request = .complete u) ∨
    ∃ session, w.server[u]? = some session ∧ ∀ i < session.totalChunks, w.Covered since job.id u i

/-- What a part of a run starts from. -/
structure Ready (page : Page Hash) (w : World Hash) (run : Run Hash) (job : Job Hash) : Prop where
  length : run.file.data.length = job.size
  positive : 0 < job.size
  since : run.since ≤ w.exchanges.length
  sized : Sized job.size job.committedBytes job.file job.uploadId
  made : Made page w job.id job.createKey job.createDeadline job.uploadId job.creationUncertain
  ends : Ends page w job.state job.uploadId job.uploaded
  state : job.state.running = true
  cancelled : job.cancelRequested = true → job.cancellationPending = true ∧ job.control = some true

/-- What a part of a run leaves of the job, and what it awaits. -/
structure Good (page : Page Hash) (w : World Hash) (run : Run Hash) (job : Job Hash)
    (x : Job Hash × Outcome Hash) : Prop where
  frame : x.1.frame = job.frame
  pending : x.1.cancellationPending = job.cancellationPending ∨
    x.1.state = .completed ∧ x.1.cancellationPending = false
  kept : ∀ u, job.uploadId = some u → x.1.uploadId = some u
  sized : Sized x.1.size x.1.committedBytes x.1.file x.1.uploadId
  made : Made page (w.sent x.1.id x.2.request) x.1.id x.1.createKey x.1.createDeadline x.1.uploadId
    x.1.creationUncertain
  ends : Ends page w x.1.state x.1.uploadId x.1.uploaded
  state : x.1.state.running = true ∨ x.1.state = .completed
  outcome : match x.2 with
    | .await phase request => x.1.state.running = true ∧
        phase.Fits page (w.sent x.1.id request) run x.1 ∧
        ∀ q, request = some q → q.Allowed w run.since x.1 ∧ (q.isCreate = true → Unmade page w job)
    | .returned => True
    | .thrown e => x.1.state.running = true ∧ (e.definite = true →
        Made page w x.1.id x.1.createKey x.1.createDeadline x.1.uploadId false)

/-- What is good for a job is good for one that differs in nothing that matters. -/
theorem Good.of {x : Job Hash × Outcome Hash} (h : Good page w run job' x)
    (hframe : job'.frame = job.frame) (hpending : job'.cancellationPending = job.cancellationPending)
    (hkept : ∀ u, job.uploadId = some u → job'.uploadId = some u) : Good page w run job x := by
  have hid : job'.id = job.id := congrArg (fun j => j.id) hframe
  refine ⟨h.frame.trans hframe, hpending ▸ h.pending, fun u hu => h.kept u (hkept u hu), h.sized, h.made,
    h.ends, h.state, ?_⟩
  have houtcome := h.outcome
  generalize x.2 = outcome at houtcome
  cases outcome with
  | await phase request =>
    refine ⟨houtcome.1, houtcome.2.1, fun q hq => ⟨(houtcome.2.2 q hq).1, fun hcreate => ?_⟩⟩
    obtain ⟨hnone, hrefused⟩ := (houtcome.2.2 q hq).2 hcreate
    refine ⟨Option.eq_none_iff_forall_ne_some.mpr fun u hu => ?_, fun ho k hk => hrefused ho k ?_⟩
    · have hsome := hkept u hu
      rw [hnone] at hsome
      cases hsome
    · rw [hid]
      exact hk
  | returned => trivial
  | thrown e => exact houtcome

namespace Ready

theorem returned (h : Ready page w run job) : Good page w run job (job, .returned) := by
  refine ⟨rfl, .inl rfl, fun _ hu => hu, h.sized, ?_, h.ends, .inl h.state, trivial⟩
  change Made page (w.sent job.id none) _ _ _ _ _
  rw [World.sent_none]
  exact h.made

/-- An error that tells that a session has not been made is thrown only when it has not. -/
theorem thrown (h : Ready page w run job) (e : Err) (he : e.definite = true →
    Made page w job.id job.createKey job.createDeadline job.uploadId false) :
    Good page w run job (job, .thrown e) :=
  ⟨h.returned.frame, h.returned.pending, h.returned.kept, h.sized, h.returned.made, h.ends, .inl h.state,
    h.state, he⟩

/-- Nothing is sent. -/
theorem await (h : Ready page w run job) {phase : Phase Hash} (hphase : phase.Fits page w run job) :
    Good page w run job (job, .await phase none) := by
  refine ⟨rfl, .inl rfl, fun _ hu => hu, h.sized, ?_, h.ends, .inl h.state, h.state, ?_, nofun⟩
  · change Made page (w.sent job.id none) _ _ _ _ _
    rw [World.sent_none]
    exact h.made
  · change phase.Fits page (w.sent job.id none) run job
    rw [World.sent_none]
    exact hphase

/-- A call waits until a time. -/
theorem backoff (h : Ready page w run job) {call : Call Hash} (hfits : call.Fits page w run job)
    (n time : ℕ) : Good page w run job (job, .await (.calling call (.backoff n time)) none) :=
  h.await hfits

/-- A request is sent that is not one for a session. -/
theorem sends (h : Ready page w run job) {phase : Phase Hash} {request : Request Hash}
    (hcreate : request.isCreate = false) (hallowed : request.Allowed w run.since job)
    (hphase : phase.Fits page (w.sent job.id (some request)) run job) :
    Good page w run job (job, .await phase (some request)) := by
  refine ⟨rfl, .inl rfl, fun _ hu => hu, h.sized, ?_, h.ends, .inl h.state, h.state, hphase,
    fun q hq => ?_⟩
  · refine h.made.mono (.sent w job.id _) fun k hk => hk.of_sent (.inr fun q hq => ?_)
    cases hq
    exact hcreate
  · cases hq
    refine ⟨hallowed, fun hc => ?_⟩
    rw [hcreate] at hc
    cases hc

/-- The state of the job changes. -/
theorem go (h : Ready page w run job) (state : UploadQueueState) (hstate : state.running = true) :
    Ready page w run { job with state } := by
  refine { h with ends := h.ends.go ?_, state := hstate }
  cases state <;> first | rfl | cases hstate

theorem stop (h : Ready page w run job) : Good page w run job (job.stop, .returned) := by
  refine (h.go job.stop.state ?_).returned.of rfl rfl fun _ hu => hu
  unfold Job.stop
  split_ifs <;> rfl

/-- The deadline for the creation is set. -/
theorem deadline (h : Ready page w run job) {createDeadline : Option ℕ} (budget : RetryBudget)
    (hdeadline : ∀ d, createDeadline = some d → d ≤ w.now + CREATE_WINDOW_MS)
    (hold : ∀ d, job.createDeadline = some d → createDeadline = some d) :
    Ready page w run { job with createDeadline, budget } := by
  refine { h with made := { h.made with deadline := hdeadline, window := ?_ } }
  intro ht k e he hjob hcreate
  obtain ⟨d, hd, hlt, hle⟩ := h.made.window ht k e he hjob hcreate
  exact ⟨d, hold d hd, hlt, hle⟩

/-- Only the wait that the server has asked for changes. -/
theorem budget (h : Ready page w run job) (budget : RetryBudget) :
    Ready page w run { job with budget } := { h with }

theorem retrying (h : Ready page w run job) (call : Call Hash) :
    Ready page w run (call.retrying job) := by
  cases call with
  | create => exact h.go .retrying rfl
  | chunk => exact h.go .retrying rfl
  | complete => exact h.go .completing rfl
  | _ => exact h

/-- A job that is cancelled by the user is aborted. -/
theorem not_cancelled (h : Ready page w run job) (hc : job.aborted = false) :
    job.cancelRequested = false := by
  refine eq_false_of_ne_true fun hrequested => ?_
  have hcontrol := (h.cancelled hrequested).2
  rw [Job.aborted, hcontrol] at hc
  cases hc

end Ready

/-- Nothing is uncertain when there is a session. -/
theorem Made.of_uploadId {id : JobId} {createKey createDeadline uploadId : Option ℕ}
    {creationUncertain : Bool} {u : ℕ}
    (h : Made page w id createKey createDeadline uploadId creationUncertain) (hu : uploadId = some u) :
    Made page w id createKey createDeadline uploadId false := by
  refine { h with owner := fun ho k hk => ?_ }
  rcases h.owner ho k hk with hrefused | hgot | ⟨hnone, -⟩
  · exact .inl hrefused
  · exact .inr (.inl hgot)
  · exact absurd (hnone.symm.trans hu) nofun

/-- A wait for a retry leaves the session, and what fits. -/
theorem Call.Fits.retrying {call : Call Hash} (h : call.Fits page w run job) :
    call.Fits page w run (call.retrying job) := by
  cases call with
  | limits => exact h
  | create => exact ⟨h.1, h.2.uploadId, h.2.refused⟩
  | chunk => exact ⟨{ h.1 with }, h.2⟩
  | complete => exact ⟨{ h.1 with }, h.2⟩
  | replay => exact h

theorem frame_retrying (call : Call Hash) : (call.retrying job).frame = job.frame := by
  cases call <;> rfl

theorem pending_retrying (call : Call Hash) :
    (call.retrying job).cancellationPending = job.cancellationPending := by
  cases call <;> rfl

theorem uploadId_retrying (call : Call Hash) : (call.retrying job).uploadId = job.uploadId := by
  cases call <;> rfl

/-- Nothing is uncertain before an attempt. -/
theorem Call.Fits.made {call : Call Hash} (h : call.Fits page w run job)
    (hmade : Made page w job.id job.createKey job.createDeadline job.uploadId job.creationUncertain) :
    Made page w job.id job.createKey job.createDeadline job.uploadId false := by
  cases call with
  | limits => exact { hmade with owner := fun ho k hk => .inl (h.refused ho k hk) }
  | create => exact { hmade with owner := fun ho k hk => .inl (h.2.refused ho k hk) }
  | chunk => exact hmade.of_uploadId h.1.uploadId
  | complete => exact hmade.of_uploadId h.1.uploadId
  | replay => exact hmade.of_uploadId h.1

/-! ## Requests with their retries -/

/-- What a part of a run sees of the queue. -/
def World.context (w : World Hash) (page : Page Hash) (disposed : Bool) : Context Hash :=
  ⟨page, disposed, w.now, w.exchanges.length⟩

/-- A session is asked for, by a job that has none. -/
theorem good_create (h : Ready page w run job) (hunmade : Unmade page w job)
    (hrequested : job.cancelRequested = false) {n chunkSize : ℕ} (hpos : 0 < chunkSize)
    {createDeadline : Option ℕ}
    (hdeadline : ∀ d, createDeadline = some d → d ≤ w.now + CREATE_WINDOW_MS)
    (hwindow : page.transport = true → ∃ d, createDeadline = some d ∧ w.now < d)
    (hold : ∀ d, job.createDeadline = some d → createDeadline = some d) :
    Good page w run job ({ job with createDeadline, creationUncertain := true },
      .await (.calling (.create chunkSize) (.sent n w.exchanges.length))
        (some (job.creation run.file chunkSize))) := by
  have hlater := World.Later.sent w job.id (some (job.creation run.file chunkSize))
  -- A request for a session is one from before, or the one that is sent.
  have hcreation : ∀ k key body, (w.sent job.id (some (job.creation run.file chunkSize))).Sent job.id k
      (.create key body) → w.Sent job.id k (.create key body) ∨
        k = w.exchanges.length ∧ key = job.createKey := by
    rintro k key body ⟨e, he, hjob, hrequest⟩
    rcases World.getElem?_sent he with hbefore | ⟨hk, q, hq, rfl⟩
    · exact .inl ⟨e, hbefore, hjob, hrequest⟩
    · cases hq
      cases hrequest
      exact .inr ⟨hk, rfl⟩
  refine ⟨rfl, .inl rfl, fun _ hu => hu, h.sized, ?_, h.ends, .inl h.state, h.state, ?_, fun q hq => ?_⟩
  · refine ⟨fun _ _ _ => .inr (.inr ⟨hunmade.uploadId, rfl⟩), h.made.key, fun ht k key body hsent => ?_,
      hdeadline, fun ht k e he hjob hcreate => ?_, fun ht u hu => ?_⟩
    · rcases hcreation k key body hsent with hbefore | ⟨-, hkey⟩
      · exact h.made.keys ht k key body hbefore
      · exact hkey
    · rcases World.getElem?_sent he with hbefore | ⟨-, q, hq, rfl⟩
      · obtain ⟨d, hd, hlt, hle⟩ := h.made.window ht k e hbefore hjob hcreate
        exact ⟨d, hold d hd, hlt, hle⟩
      · obtain ⟨d, hd, hlt⟩ := hwindow ht
        exact ⟨d, hd, hlt, hdeadline d hd⟩
    · exact absurd (hunmade.uploadId.symm.trans hu) (Option.some_ne_none u).symm
  · refine ⟨hpos, hunmade.uploadId, rfl, fun ho k' hk' hne => ?_, job.createKey, _,
      World.sent_last w job.id _, h.length, rfl⟩
    obtain ⟨key, body, hsent⟩ := hk'
    rcases hcreation k' key body hsent with hbefore | ⟨hlast, -⟩
    · exact (hunmade.refused ho k' ⟨key, body, hbefore⟩).mono hlater
    · exact absurd hlast hne
  · cases hq
    exact ⟨⟨fun _ => hrequested, fun u hu => by cases hu⟩, fun _ => hunmade⟩

/-- Every chunk of the session is covered. -/
theorem Counted.all_covered {since : ℕ} {session : Session Hash} {indexes : List ℕ}
    (h : Counted w since job session indexes) (hall : ∀ i < session.totalChunks, i ∈ indexes) :
    ∃ stored, w.server[session.uploadId]? = some stored ∧ ∀ i < stored.totalChunks,
      w.Covered since job.id session.uploadId i := by
  obtain ⟨stored, hs, htotal, hsize⟩ := h.server
  refine ⟨stored, hs, fun i hi => h.covered i (hall i ?_)⟩
  rw [h.laidOut.chunks, ← htotal, ← hsize]
  exact hi

/-- **An attempt.** -/
theorem good_attempt {disposed : Bool} (hw : WorldOk page w) (h : Ready page w run job) {call : Call Hash}
    (hfits : call.Fits page w run job) (n : ℕ) :
    Good page w run job (attempt (w.context page disposed) run.file call n job) := by
  unfold attempt
  dsimp only
  by_cases haborted : (call.signalled && job.aborted) = true
  · rw [if_pos haborted]
    exact h.thrown .abort nofun
  rw [if_neg haborted]
  have hrequested : call.signalled = true → job.cancelRequested = false := fun hs =>
    h.not_cancelled (eq_false_of_ne_true fun ha => haborted (by rw [hs, ha]; rfl))
  have hlater := fun request => World.Later.sent w job.id (some request)
  cases call with
  | limits =>
    refine h.sends rfl ⟨fun _ => hrequested rfl, fun u hu => by cases hu⟩
      (Unmade.mono (hlater _) (fun k hk => hk.of_sent (.inr fun q hq => ?_)) hfits)
    cases hq
    rfl
  | create chunkSize =>
    have hget : ∀ d, some (job.createDeadline.getD (w.now + CREATE_WINDOW_MS)) = some d →
        d ≤ w.now + CREATE_WINDOW_MS := by
      rintro d hd
      cases hd
      cases hold : job.createDeadline with
      | none => exact le_rfl
      | some d => exact h.made.deadline d hold
    have hold : ∀ d, job.createDeadline = some d →
        some (job.createDeadline.getD (w.now + CREATE_WINDOW_MS)) = some d := by
      intro d hd
      rw [hd]
      rfl
    dsimp only
    split_ifs with ht hlate
    · exact ((h.deadline _ hget hold).thrown .other nofun).of rfl rfl fun _ hu => hu
    · exact good_create h hfits.2 (hrequested rfl) hfits.1 hget (fun _ => ⟨_, rfl, not_le.mp hlate⟩) hold
    · exact good_create h hfits.2 (hrequested rfl) hfits.1 h.made.deadline (fun ht' => absurd ht' ht)
        fun _ hd => hd
  | chunk session accepted index =>
    dsimp only
    split_ifs with hstopped
    · have hstop := h.stop
      exact ⟨hstop.frame, hstop.pending, hstop.kept, hstop.sized, hstop.made, hstop.ends, hstop.state,
        by unfold Job.stop; dsimp only; split_ifs <;> rfl, nofun⟩
    · refine ((h.go .uploading rfl).sends rfl ⟨fun _ => hrequested rfl, fun u hu => by cases hu⟩
        ?_).of rfl rfl fun _ hu => hu
      exact ⟨⟨{ hfits.1.mono (hlater _) with }, hfits.2.1.mono (hlater _), hfits.2.2⟩, h.since,
        w.sent_last job.id _⟩
  | complete session accepted =>
    refine h.sends rfl ⟨(fun hc => by cases hc), fun u hu => ?_⟩ ?_
    · cases hu
      exact .inr (hfits.1.all_covered hfits.2.2)
    · exact ⟨⟨hfits.1.mono (hlater _), hfits.2.1.mono (hlater _), hfits.2.2⟩, w.sent_last job.id _⟩
  | replay session =>
    refine h.sends rfl ⟨(fun hc => by cases hc), fun u hu => ?_⟩ ?_
    · cases hu
      exact .inl (hw.complete _ hfits.2)
    · exact ⟨hfits.1, hfits.2.mono (hlater _)⟩

section Retries

variable {disposed : Bool} {call : Call Hash} {k : ℕ} {e : ApiError}

theorem good_begins (hw : WorldOk page w) (h : Ready page w run job) (hfits : call.Fits page w run job) :
    Good page w run job (begins (w.context page disposed) run.file call job) := by
  unfold begins
  cases job.budget.first (w.context page disposed).now with
  | error e => exact h.thrown e fun _ => hfits.made h.made
  | ok time =>
    cases time with
    | none => exact good_attempt hw h hfits 1
    | some time =>
      have hkept : ∀ u, job.uploadId = some u → (call.retrying job).uploadId = some u :=
        fun u hu => (uploadId_retrying call).trans hu
      dsimp only
      split_ifs
      · exact ((h.retrying call).thrown .abort nofun).of (frame_retrying call) (pending_retrying call) hkept
      · exact ((h.retrying call).backoff hfits.retrying _ _).of (frame_retrying call) (pending_retrying call)
          hkept

theorem good_retried (h : Ready page w run job) (hfits : call.Fits page w run job) (n jitter : ℕ) :
    Good page w run job (retried (w.context page disposed) call n e jitter job) := by
  unfold retried
  split_ifs
  · rcases job.budget.failed (w.context page disposed).now n (call.signalled && job.aborted) e jitter with
      ⟨budget, e' | time⟩
    · exact ((h.budget budget).thrown e' fun _ => hfits.made h.made).of rfl rfl fun _ hu => hu
    · have hfits' : call.Fits page w run { job with budget } := by
        cases call with
        | limits => exact ⟨hfits.uploadId, hfits.refused⟩
        | create => exact ⟨hfits.1, hfits.2.uploadId, hfits.2.refused⟩
        | chunk => exact ⟨{ hfits.1 with }, hfits.2⟩
        | complete => exact ⟨{ hfits.1 with }, hfits.2⟩
        | replay => exact hfits
      exact (((h.budget budget).retrying call).backoff hfits'.retrying _ _).of (frame_retrying call)
        (pending_retrying call) fun u hu => (uploadId_retrying call).trans hu
  · exact h.thrown _ fun _ => hfits.made h.made

/-- An attempt has failed; one to make a session has been refused when the error tells so. -/
theorem good_failed (h : Ready page w run job) (hwaits : call.Waits page w run job k)
    (hrefused : ∀ chunkSize, call = .create chunkSize → definite e = true → w.Refused k)
    (n jitter : ℕ) :
    Good page w run job (failed (w.context page disposed) call n e jitter job) := by
  cases call with
  | limits =>
    have hfits : Call.limits.Fits page w run job := hwaits
    exact good_retried h hfits n jitter
  | chunk => exact good_retried h hwaits.1 n jitter
  | complete => exact good_retried h hwaits.1 n jitter
  | replay session =>
    have hfits : (Call.replay session).Fits page w run job := hwaits
    exact good_retried h hfits n jitter
  | create chunkSize =>
    obtain ⟨hpos, hnone, huncertain, hothers, -⟩ := hwaits
    have hall : definite e = true → page.transport = false → ∀ k', w.Creation job.id k' →
        w.Refused k' := by
      intro hdefinite ho k' hk'
      by_cases hk : k' = k
      · exact hk ▸ hrefused chunkSize rfl hdefinite
      · exact hothers ho k' hk' hk
    have hmade : Made page w job.id job.createKey job.createDeadline job.uploadId
        (job.creationUncertain && !definite e) := by
      refine { h.made with owner := fun ho k' hk' => ?_ }
      cases hdefinite : definite e with
      | true => exact .inl (hall hdefinite ho k' hk')
      | false => exact .inr (.inr ⟨hnone, by rw [huncertain]; rfl⟩)
    have hready : Ready page w run
        { job with creationUncertain := job.creationUncertain && !definite e } := { h with made := hmade }
    unfold failed
    dsimp only
    split_ifs with hbusy
    · have hdefinite : definite e = true := by
        rw [Bool.or_eq_true, decide_eq_true_eq] at hbusy
        rcases hbusy with hbusy | hkind
        · rw [definite, hbusy]
          rfl
        · rw [definite, hkind]
          simp
      have hfits : (Call.create chunkSize).Fits page w run
          { job with creationUncertain := job.creationUncertain && !definite e } :=
        ⟨hpos, hnone, hall hdefinite⟩
      exact (good_retried hready hfits n jitter).of rfl rfl fun _ hu => hu
    · refine ((hready.budget _).thrown _ fun hdefinite => ?_).of rfl rfl fun _ hu => hu
      exact { hmade with owner := fun ho k' hk' => .inl (hall hdefinite ho k' hk') }

end Retries

/-! ## Chunks -/

section Chunks

variable {disposed : Bool} {session : Session Hash} {indexes : List ℕ}

/-- No more bytes are committed than the file has. -/
theorem Counted.bytes_le {since : ℕ} (h : Counted w since job session indexes) :
    job.committedBytes ≤ job.size := by
  have hle : indexes.toFinset.sum (chunkLength session.totalSize session.chunkSize session.totalChunks) ≤
      ∑ i ∈ Finset.range session.totalChunks,
        chunkLength session.totalSize session.chunkSize session.totalChunks i := by
    refine Finset.sum_le_sum_of_subset fun i hi => ?_
    exact Finset.mem_range.mpr (h.range i (List.mem_toFinset.mp hi))
  rw [List.sum_toFinset _ h.nodup, sum_chunkLength h.laidOut] at hle
  rw [h.bytes, ← h.size]
  exact hle

/-- **The loop over the chunks.** -/
theorem good_loop (hw : WorldOk page w) (h : Ready page w run job)
    (hcounted : Counted w run.since job session indexes) (hslices : Slices page w run.file session indexes)
    {index : ℕ} (hbefore : ∀ i < index, i ∈ indexes) :
    Good page w run job (loop (w.context page disposed) run.file session indexes index job) := by
  unfold loop
  split_ifs with hstopped
  · exact h.stop
  cases hnext : (List.range' index (session.totalChunks - index)).find? (· ∉ indexes) with
  | some i =>
    obtain ⟨hi, hrange, hskipped⟩ := List.find?_range'_eq_some.mp hnext
    rw [decide_eq_true_eq] at hi
    have hlt := List.mem_range'_1.mp hrange
    have hfits : (Call.chunk session indexes i).Fits page w run { job with state := .uploading } := by
      refine ⟨{ hcounted with }, hslices, by omega, hi, fun j hj => ?_⟩
      by_cases hjindex : j < index
      · exact hbefore j hjindex
      · have hin := hskipped j (by omega) hj
        simpa using hin
    exact (good_begins hw (h.go .uploading rfl) hfits).of rfl rfl fun _ hu => hu
  | none =>
    have hall := List.find?_range'_eq_none.mp hnext
    have hfits : (Call.complete session indexes).Fits page w run { job with state := .completing } := by
      refine ⟨{ hcounted with }, hslices, fun j hj => ?_⟩
      by_cases hjindex : j < index
      · exact hbefore j hjindex
      · have hin := hall j (by omega) (by omega)
        simpa using hin
    exact (good_begins hw (h.go .completing rfl) hfits).of rfl rfl fun _ hu => hu

/-- **The loop that verifies the chunks of the server.** -/
theorem good_verify (hw : WorldOk page w) (h : Ready page w run job) {n : ℕ}
    (hverifying : Verifying page w run job session n) :
    Good page w run job (verify (w.context page disposed) run.file session n job) := by
  unfold verify
  split_ifs with hn hstopped
  · exact h.stop
  · exact h.await ⟨hn, hverifying⟩
  · have hready : Ready page w run { job with verifyCommitted := false } := { h with }
    have hslices := hverifying.slices
    rw [List.take_of_length_le (not_lt.mp hn)] at hslices
    exact (good_loop hw hready { hverifying.counted with } hslices fun i hi => absurd hi (by omega)).of rfl
      rfl fun _ hu => hu

theorem good_checked (hw : WorldOk page w) (h : Ready page w run job)
    (hverifying : Verifying page w run job session 0) :
    Good page w run job (checked (w.context page disposed) run.file session job) := by
  rw [checked, if_pos hverifying.verify]
  exact good_verify hw h hverifying

/-- **The hash of the whole file is asked for.** -/
theorem good_hashWholeFile (h : Ready page w run job) {use : HashUse Hash}
    (hfits : ∀ whole, (Phase.hashing use whole).Fits page w run { job with state := .hashing }) :
    Good page w run job (hashWholeFile use job) := by
  unfold hashWholeFile
  dsimp only
  split
  · exact ((h.go .hashing rfl).thrown .other nofun).of rfl rfl fun _ hu => hu
  · rename_i whole _
    exact ((h.go .hashing rfl).await (hfits whole)).of rfl rfl fun _ hu => hu

variable [DecidableEq Hash]

/-- **The hash of a chunk is there.** -/
theorem good_verified (hw : WorldOk page w) (h : Ready page w run job) {n : ℕ}
    (hverifying : Verifying page w run job session n) :
    Good page w run job (verified (w.context page disposed) run.file session n job) := by
  unfold verified
  cases hchunk : (session.chunks.getD [])[n]? with
  | none => exact h.thrown .other nofun
  | some chunk =>
    dsimp only
    split_ifs with hsubtle hdigest
    · exact h.thrown .other nofun
    · have hready : Ready page w run { job with file := none, needsFile := true } :=
        { h with sized := { h.sized with file := nofun } }
      exact (hready.thrown .other nofun).of rfl rfl fun _ hu => hu
    · refine good_verify hw h { hverifying with slices := fun hinj i hi => ?_ }
      have hindex : session.indexes[n]? = some chunk.chunkIndex := by
        rw [Session.indexes, List.getElem?_map, hchunk]
        rfl
      rw [List.take_add_one, hindex, List.mem_append] at hi
      rcases hi with hi | hi
      · exact hverifying.slices hinj i hi
      · rw [Option.toList_some, List.mem_singleton] at hi
        subst hi
        -- The server holds bytes with the digest of the slice.
        obtain ⟨bytes, hholds, hsha⟩ := hverifying.reported chunk (List.mem_of_getElem? hchunk)
        have hbytes : bytes = slice run.file.data session.chunkSize chunk.chunkIndex :=
          hinj (hsha.trans (not_not.mp hdigest).symm)
        exact hbytes ▸ hholds

/-- **The hash of the whole file is there.** -/
theorem good_hashed (hw : WorldOk page w) (h : Ready page w run job) {use : HashUse Hash}
    {whole : LocalFile} (hfits : (Phase.hashing use whole).Fits page w run job) :
    Good page w run job (hashed (w.context page disposed) run.file use whole job) := by
  unfold hashed
  dsimp only
  split_ifs with hother hstopped
  · have hready : Ready page w run { job with file := none, needsFile := true } :=
      { h with sized := { h.sized with file := nofun } }
    exact (hready.thrown .other nofun).of rfl rfl fun _ hu => hu
  · have hready : Ready page w run { job with
        expectedSha256 := some (page.digest whole.data), hashVerifiedFile := some whole } := { h with }
    exact hready.stop.of rfl rfl fun _ hu => hu
  · have hready : Ready page w run { job with
        expectedSha256 := some (page.digest whole.data), hashVerifiedFile := some whole } := { h with }
    cases use with
    | create chunkSize =>
      have hcall : (Call.create chunkSize).Fits page w run { job with
          expectedSha256 := some (page.digest whole.data), hashVerifiedFile := some whole } :=
        ⟨hfits.1, hfits.2.uploadId, hfits.2.refused⟩
      exact (good_begins hw hready hcall).of rfl rfl fun _ hu => hu
    | verify session =>
      have hverifying : Verifying page w run job session 0 := hfits
      exact (good_checked hw hready
        { hverifying with counted := { hverifying.counted with } }).of rfl rfl fun _ hu => hu

end Chunks

/-! ## Sessions -/

section Sessions

variable {session : Session Hash} {u k : ℕ}

/-- The size that the client accepts for a chunk is that of the chunk. -/
theorem chunkFits_size {chunk : SessionChunk Hash}
    (hl : LaidOut session.totalSize session.chunkSize session.totalChunks)
    (h : chunkFits session chunk = true) : chunk.chunkIndex < session.totalChunks ∧
      chunk.byteSize =
        chunkLength session.totalSize session.chunkSize session.totalChunks chunk.chunkIndex := by
  simp only [chunkFits, reconcileAccepts, Bool.and_eq_true, Bool.not_eq_true', Bool.or_eq_false_iff,
    decide_eq_false_iff_not, not_lt, not_le, not_not] at h
  obtain ⟨-, ⟨-, hlt⟩, hsize⟩ := h
  have hi : chunk.chunkIndex < session.totalChunks := by omega
  have hs := start_lt hl hi
  refine ⟨hi, ?_⟩
  rw [chunkLength_eq_min hl hi]
  have hcast : ((chunk.chunkIndex * session.chunkSize : ℕ) : ℤ) =
      (chunk.chunkIndex : ℤ) * session.chunkSize := Nat.cast_mul _ _
  omega

theorem validSession_laidOut (h : validSession session = true) :
    LaidOut session.totalSize session.chunkSize session.totalChunks ∧
      session.uploadedSize ≤ session.totalSize := by
  simp only [validSession, Bool.and_eq_true, decide_eq_true_eq] at h
  obtain ⟨⟨⟨⟨⟨⟨-, htotal⟩, -⟩, hsize⟩, hchunks⟩, -⟩, hle⟩ := h
  exact ⟨⟨htotal, hsize, hchunks⟩, hle⟩

/-- What the checks of `reconcile` tell about a session that is not completed. -/
theorem reconcile_committed {bytes : ℕ} (h : job.reconcile session = some (.committed bytes)) :
    session.totalSize = job.size ∧
    LaidOut session.totalSize session.chunkSize session.totalChunks ∧ session.indexes.Nodup ∧
    (∀ i ∈ session.indexes, i < session.totalChunks) ∧ bytes = (session.indexes.map
      (chunkLength session.totalSize session.chunkSize session.totalChunks)).sum := by
  unfold Job.reconcile at h
  split_ifs at h with hinvalid hcompleted
  · cases h
  simp only [Bool.or_eq_true, Bool.not_eq_true', decide_eq_true_eq, not_or] at hinvalid
  obtain ⟨⟨⟨hvalid, -⟩, htotal⟩, -⟩ := hinvalid
  obtain ⟨hl, -⟩ := validSession_laidOut (eq_true_of_ne_false hvalid)
  cases hchunks : session.chunks with
  | none =>
    rw [hchunks] at h
    cases h
  | some chunks =>
    rw [hchunks] at h
    dsimp only at h
    split_ifs at h with hall
    cases h
    simp only [Bool.and_eq_true, List.all_eq_true, decide_eq_true_eq] at hall
    obtain ⟨⟨hfits, hnodup⟩, -⟩ := hall
    have hindexes : session.indexes = chunks.map (·.chunkIndex) := by
      rw [Session.indexes, hchunks]
      rfl
    refine ⟨not_not.mp htotal, hl, hnodup, fun i hi => ?_, ?_⟩
    · rw [hindexes] at hi
      obtain ⟨chunk, hchunk, rfl⟩ := List.mem_map.mp hi
      exact (chunkFits_size hl (hfits chunk hchunk)).1
    · rw [hindexes, List.map_map]
      refine congrArg List.sum (List.map_congr_left fun chunk hchunk => ?_)
      exact (chunkFits_size hl (hfits chunk hchunk)).2

theorem reconcile_completed (h : job.reconcile session = some .completed) :
    session.status = .completed := by
  unfold Job.reconcile at h
  split_ifs at h with hinvalid hcompleted
  · rw [Bool.and_eq_true, decide_eq_true_eq] at hcompleted
    exact hcompleted.1
  · split at h
    · cases h
    · dsimp only at h
      split_ifs at h
      cases h

variable {disposed : Bool}

/-- The details of the session are asked for. -/
theorem good_detail (h : Ready page w run job) (hupload : job.uploadId = some u)
    (hverify : job.verifyCommitted = true) :
    Good page w run job (job, .await (.reconciling w.exchanges.length) (some (.detail u))) := by
  refine h.sends rfl ⟨(fun hc => by cases hc), fun u hu => by cases hu⟩ ?_
  exact ⟨h.since, hverify, u, hupload, w.sent_last job.id _⟩

/-- **A run goes on with its session**, which is verified, or new. -/
theorem good_continued (hw : WorldOk page w) (h : Ready page w run job) (hupload : job.uploadId = some u)
    (hsession : job.verifyCommitted = true ∨ ∃ session, job.session = some session ∧
      session.chunks.isNone = false ∧ Counted w run.since job session session.indexes ∧
      Slices page w run.file session session.indexes) :
    Good page w run job (continued (w.context page disposed) run.file job u) := by
  unfold continued
  split_ifs with hstopped
  · exact h.stop
  cases hcurrent : job.session with
  | none =>
    rcases hsession with hverify | ⟨session, hsome, -⟩
    · exact good_detail h hupload hverify
    · rw [hcurrent] at hsome
      cases hsome
  | some session =>
    dsimp only
    by_cases hverify : job.verifyCommitted = true
    · rw [if_pos (by rw [hverify]; rfl)]
      exact good_detail h hupload hverify
    · obtain ⟨session', hsome, hchunks, hcounted, hslices⟩ := hsession.resolve_left hverify
      rw [hcurrent] at hsome
      cases hsome
      rw [if_neg (by rw [eq_false_of_ne_true hverify, hchunks]; exact Bool.false_ne_true)]
      exact good_loop hw h hcounted hslices fun i hi => absurd hi (Nat.not_lt_zero i)

/-- **The session is created**, and the job has it from then on. -/
theorem good_created (hw : WorldOk page w) (h : Ready page w run job) {chunkSize : ℕ}
    (hwaits : (Call.create chunkSize).Waits page w run job k) (hgot : w.Got k (.created u)) :
    Good page w run job (created (w.context page disposed) run.file chunkSize u job) ∧
      (created (w.context page disposed) run.file chunkSize u job).1.uploadId = some u := by
  obtain ⟨hpos, hnone, -, hothers, key, body, hsent, htotal, hsize⟩ := hwaits
  obtain ⟨stored, hstored, hkey, hbody, -⟩ := hw.got hsent hgot
  have hmade : Made page w job.id job.createKey job.createDeadline (some u) false := by
    refine { h.made with owner := fun ho k' hk' => ?_, session := fun ht u' hu' => ?_ }
    · by_cases hk : k' = k
      · exact .inr (.inl ⟨u, rfl, hk ▸ hgot⟩)
      · exact .inl (hothers ho k' hk' hk)
    · cases hu'
      exact ⟨stored, hstored, hkey.trans (h.made.keys ht k key body hsent)⟩
  unfold created
  dsimp only
  have hready : Ready page w run { job with
      creationUncertain := false
      uploadId := some u
      session := some ⟨u, run.file.name, run.file.data.length, chunkSize,
        ceilDiv run.file.data.length chunkSize, 0, job.parentId, .pending, some [], none⟩ } := by
    refine { h with sized := ⟨h.sized.bytes, nofun, h.sized.file⟩, made := hmade, ends := ?_ }
    refine ⟨fun hs => ?_, fun hs => ?_, fun hinj f hf => ?_⟩
    · have hrunning := h.state
      rw [hs] at hrunning
      cases hrunning
    · have hrunning := h.state
      rw [hs] at hrunning
      cases hrunning
    · obtain ⟨u', -, hu', -⟩ := h.ends.uploaded hinj f hf
      rw [hnone] at hu'
      cases hu'
  have hgood : Good page w run _ (continued (w.context page disposed) run.file _ u) := good_continued hw hready rfl
    (.inr ⟨_, rfl, rfl, ?_, fun _ i hi => ?_⟩)
  · refine ⟨hgood.of rfl rfl fun u' hu' => ?_, hgood.kept u rfl⟩
    rw [hnone] at hu'
    cases hu'
  · exact
      { uploadId := rfl
        size := h.length
        laidOut := ⟨h.length ▸ h.positive, hpos, rfl⟩
        server := ⟨stored, hstored, by rw [hbody, htotal, h.length], by rw [hbody, hsize]⟩
        nodup := List.nodup_nil
        range := fun i hi => absurd hi (List.not_mem_nil)
        bytes := h.sized.fresh hnone
        covered := fun i hi => absurd hi (List.not_mem_nil) }
  · exact absurd hi (List.not_mem_nil)

/-- **The details of the session are there.** -/
theorem good_reconciled (hw : WorldOk page w) (h : Ready page w run job)
    (hupload : job.uploadId = some session.uploadId) (hdetail : DetailOk page w session)
    (hsince : run.since ≤ k) (hsent : w.Sent job.id k (.detail session.uploadId))
    (hgot : w.Got k (.detail session)) (hverify : job.verifyCommitted = true) :
    Good page w run job (reconciled (w.context page disposed) run.file session job) := by
  unfold reconciled
  cases hrec : job.reconcile session with
  | none => exact h.thrown .other nofun
  | some rec =>
    cases rec with
    | completed =>
      have hfits : (Call.replay session).Fits page w run { job with state := .completing } :=
        ⟨hupload, hdetail.completed (reconcile_completed hrec)⟩
      exact (good_begins hw (h.go .completing rfl) hfits).of rfl rfl fun _ hu => hu
    | committed bytes =>
      obtain ⟨hsize, hl, hnodup, hrange, hbytes⟩ := reconcile_committed hrec
      have hcounted : Counted w run.since { job with session := some session, committedBytes := bytes }
          session session.indexes :=
        { uploadId := hupload
          size := hsize
          laidOut := hl
          server := hdetail.session
          nodup := hnodup
          range := hrange
          bytes := hbytes
          covered := fun i hi => ⟨k, hsince, .inl ⟨session, hsent, hgot, hi⟩⟩ }
      have hready : Ready page w run { job with session := some session, committedBytes := bytes } :=
        { h with
          sized := ⟨hcounted.bytes_le, (fun hnone => absurd (hnone.symm.trans hupload) nofun),
            h.sized.file⟩ }
      have hverifying : Verifying page w run
          { job with session := some session, committedBytes := bytes } session 0 :=
        ⟨hcounted, hdetail.chunk, fun _ i hi => absurd hi (List.not_mem_nil), hverify⟩
      dsimp only
      split_ifs
      · exact hready.returned.of rfl rfl fun _ hu => hu
      · exact hready.stop.of rfl rfl fun _ hu => hu
      · refine (good_hashWholeFile hready fun whole => ?_).of rfl rfl fun _ hu => hu
        have hhashing : Verifying page w run { job with
            session := some session, committedBytes := bytes, state := .hashing } session 0 :=
          { hverifying with counted := { hcounted with } }
        exact hhashing
      · exact (good_checked hw hready hverifying).of rfl rfl fun _ hu => hu

end Sessions

/-! ## Answers -/

section Answers

variable {disposed : Bool} {session : Session Hash} {k : ℕ}

/-- **The limits are there.** -/
theorem good_limited (hw : WorldOk page w) (h : Ready page w run job) (hunmade : Unmade page w job)
    (limits : UploadLimits) :
    Good page w run job (limited (w.context page disposed) run.file limits job) := by
  unfold limited
  dsimp only
  split_ifs with hstopped hsize hlimits hchunks hwhole
  · exact h.stop
  · exact h.thrown .other nofun
  · exact h.thrown .other nofun
  · exact h.thrown .other nofun
  all_goals
    have hpos : 0 < min limits.maxChunkBytes
        (max UPLOAD_CHUNK_SIZE (ceilDiv run.file.data.length limits.maxChunks)) := by
      simp only [Bool.or_eq_true, decide_eq_true_eq, not_or] at hlimits
      have hmax : 0 < limits.maxChunkBytes := Nat.pos_of_ne_zero hlimits.1.1.2
      exact lt_min hmax (lt_of_lt_of_le (by decide) (le_max_left _ _))
  · exact good_hashWholeFile h fun whole => ⟨hpos, hunmade.uploadId, hunmade.refused⟩
  · exact good_begins hw h ⟨hpos, hunmade⟩

/-- **The samples of the file are there.** -/
theorem good_fingerprinted (hw : WorldOk page w) (h : Ready page w run job)
    (hunmade : Unmade page w job) :
    Good page w run job (fingerprinted (w.context page disposed) run.file job) := by
  have hready : Ready page w run { job with fingerprint := sampleFingerprint page run.file } :=
    { h with }
  have hfits : Call.limits.Fits page w run
      { job with fingerprint := sampleFingerprint page run.file } :=
    ⟨hunmade.uploadId, hunmade.refused⟩
  unfold fingerprinted
  dsimp only
  split_ifs
  · exact hready.stop.of rfl rfl fun _ hu => hu
  · exact (good_begins hw hready hfits).of rfl rfl fun _ hu => hu

/-- **A chunk is accepted.** -/
theorem good_accepted (hw : WorldOk page w) (h : Ready page w run job) {indexes : List ℕ} {index : ℕ}
    (hwaits : (Call.chunk session indexes index).Waits page w run job k) (hgot : w.Got k .accepted) :
    Good page w run job
      (accepted (w.context page disposed) run.file session indexes index job) := by
  obtain ⟨⟨hcounted, hslices, hlt, hnew, hbefore⟩, hsince, hsent⟩ := hwaits
  have hholds : w.Holds session.uploadId index (slice run.file.data session.chunkSize index) :=
    hw.got hsent hgot
  have hlength : (slice run.file.data session.chunkSize index).length =
      chunkLength session.totalSize session.chunkSize session.totalChunks index := by
    have hl := hcounted.laidOut
    rw [hcounted.size, ← h.length] at hl ⊢
    exact length_slice hl hlt
  have hcounted' : Counted w run.since { job with
      committedBytes := job.committedBytes + (slice run.file.data session.chunkSize index).length }
      session (indexes ++ [index]) :=
    { hcounted with
      nodup := hcounted.nodup.append (List.nodup_singleton index) (by simpa using hnew)
      range := fun i hi => by
        rcases List.mem_append.mp hi with hi | hi
        · exact hcounted.range i hi
        · rw [List.mem_singleton.mp hi]
          exact hlt
      bytes := by
        rw [List.map_append, List.sum_append, List.map_singleton, List.sum_singleton, ← hcounted.bytes,
          hlength]
      covered := fun i hi => by
        rcases List.mem_append.mp hi with hi | hi
        · exact hcounted.covered i hi
        · rw [List.mem_singleton.mp hi]
          exact ⟨k, hsince, .inr ⟨_, hsent, hgot⟩⟩ }
  have hready : Ready page w run { job with
      committedBytes := job.committedBytes + (slice run.file.data session.chunkSize index).length } :=
    { h with sized := ⟨hcounted'.bytes_le,
        (fun hnone => absurd (hnone.symm.trans hcounted.uploadId) nofun), h.sized.file⟩ }
  have hslices' : Slices page w run.file session (indexes ++ [index]) := fun hinj i hi => by
    rcases List.mem_append.mp hi with hi | hi
    · exact hslices hinj i hi
    · rw [List.mem_singleton.mp hi]
      exact hholds
  refine (good_loop hw hready hcounted' hslices' fun i hi => ?_).of rfl rfl fun _ hu => hu
  rcases Nat.lt_succ_iff_lt_or_eq.mp hi with hi | rfl
  · exact List.mem_append_left _ (hbefore i hi)
  · exact List.mem_append_right _ (List.mem_singleton_self i)

/-- **The upload is completed by the run**: the chunks of the session are those of the file. -/
theorem good_completed (hw : WorldOk page w) (h : Ready page w run job) {indexes : List ℕ}
    (hwaits : (Call.complete session indexes).Waits page w run job k) (hgot : w.Got k .completed) :
    Good page w run job (completed run.file job) := by
  obtain ⟨⟨hcounted, hslices, hall⟩, hsent⟩ := hwaits
  obtain ⟨stored, hstored, hstatus⟩ := hw.got hsent hgot
  have hchunks : page.digest.Injective → ∀ i bytes, stored.chunk i = some bytes →
      bytes = slice run.file.data stored.body.chunkSize i := by
    intro hinj i bytes hchunk
    obtain ⟨stored', hs, htotal, hsize⟩ := hcounted.server
    cases hstored.symm.trans hs
    have hi : i < session.totalChunks := by
      have hlt := hw.index _ stored i bytes hstored hchunk
      rw [ServerSession.totalChunks, htotal, hsize] at hlt
      rwa [hcounted.laidOut.chunks]
    obtain ⟨stored', hs', haborted | hholds⟩ := hslices hinj i (hall i hi)
    · cases hstored.symm.trans hs'
      rw [hstatus] at haborted
      cases haborted
    · cases hstored.symm.trans hs'
      rw [hsize]
      exact Option.some.inj (hchunk.symm.trans hholds)
  have hnone : job.uploadId ≠ none := fun hnone => absurd (hnone.symm.trans hcounted.uploadId) nofun
  refine ⟨rfl, .inr ⟨rfl, rfl⟩, fun _ hu => hu, ⟨h.length.le, fun hn => absurd hn hnone, nofun⟩, ?_, ?_,
    .inr rfl, trivial⟩
  · change Made page (w.sent job.id none) _ _ _ _ _
    rw [World.sent_none]
    exact h.made
  · refine ⟨fun _ => ⟨_, hcounted.uploadId, stored, hstored, hstatus⟩, nofun, fun hinj f hf => ?_⟩
    cases hf
    exact ⟨_, stored, hcounted.uploadId, hstored, hstatus, hchunks hinj⟩

/-- **The upload has been completed before.** -/
theorem good_replayed (h : Ready page w run job) (hupload : job.uploadId = some session.uploadId)
    (hcompleted : w.Completed session.uploadId) :
    Good page w run job (job.replayed, .returned) := by
  have hnone : job.uploadId ≠ none := fun hnone => absurd (hnone.symm.trans hupload) nofun
  refine ⟨rfl, .inr ⟨rfl, rfl⟩, fun _ hu => hu, ⟨le_rfl, fun hn => absurd hn hnone, nofun⟩, ?_,
    ⟨fun _ => ⟨_, hupload, hcompleted⟩, nofun, h.ends.uploaded⟩, .inr rfl, trivial⟩
  change Made page (w.sent job.id none) _ _ _ _ _
  rw [World.sent_none]
  exact h.made

/-- **An attempt is answered.** -/
theorem good_answered (hw : WorldOk page w) (h : Ready page w run job) {call : Call Hash}
    (hwaits : call.Waits page w run job k) {response : Response Hash} (hgot : w.Got k response)
    (n jitter : ℕ) :
    Good page w run job (answered (w.context page disposed) run.file call n response jitter job) := by
  by_cases hrefused : ∃ refusal, response = .refused refusal
  · obtain ⟨refusal, rfl⟩ := hrefused
    exact good_failed h hwaits (fun _ _ _ => ⟨refusal, hgot⟩) n jitter
  have hready := h.budget { job.budget with notBefore := none }
  have hother : Good page w run job
      ({ job with budget := { job.budget with notBefore := none } }, .thrown .other) :=
    (hready.thrown .other nofun).of rfl rfl fun _ hu => hu
  cases call with
  | limits =>
    cases response with
    | refused refusal => exact absurd ⟨refusal, rfl⟩ hrefused
    | limits limits =>
      have hunmade : Unmade page w job := hwaits
      exact (good_limited hw hready ⟨hunmade.uploadId, hunmade.refused⟩ limits).of rfl rfl fun _ hu => hu
    | _ => exact hother
  | create chunkSize =>
    cases response with
    | refused refusal => exact absurd ⟨refusal, rfl⟩ hrefused
    | created u => exact (good_created hw hready hwaits hgot).1.of rfl rfl fun _ hu => hu
    | _ => exact hother
  | chunk session indexes index =>
    cases response with
    | refused refusal => exact absurd ⟨refusal, rfl⟩ hrefused
    | accepted =>
      refine (good_accepted hw hready ⟨⟨{ hwaits.1.1 with }, hwaits.1.2⟩, hwaits.2⟩ hgot).of rfl rfl
        fun _ hu => hu
    | _ => exact hother
  | complete session indexes =>
    cases response with
    | refused refusal => exact absurd ⟨refusal, rfl⟩ hrefused
    | completed =>
      refine (good_completed hw hready ⟨⟨{ hwaits.1.1 with }, hwaits.1.2⟩, hwaits.2⟩ hgot).of rfl rfl
        fun _ hu => hu
    | _ => exact hother
  | replay session =>
    cases response with
    | refused refusal => exact absurd ⟨refusal, rfl⟩ hrefused
    | completed => exact (good_replayed hready hwaits.1 hwaits.2).of rfl rfl fun _ hu => hu
    | _ => exact hother

/-- An ambiguous error does not tell that a request has been refused. -/
theorem not_definite {refusal : Option Refusal} (h : ambiguous refusal = true) :
    definite (normalizeApiError refusal) = false := by
  cases refusal with
  | none => rfl
  | some r =>
    simp only [ambiguous, Bool.and_eq_true, decide_eq_true_eq, Bool.not_eq_true',
      Bool.and_eq_false_iff, decide_eq_false_iff_not, Bool.or_eq_false_iff] at h
    obtain ⟨hstatus, hbusy⟩ := h
    simp only [normalizeApiError, definite, isUploadBusyError, isUploadCapacityError]
    have h400 : r.status ≠ 400 := by omega
    have h422 : r.status ≠ 422 := by omega
    have h401 : r.status ≠ 401 := by omega
    have h403 : r.status ≠ 403 := by omega
    have h429 : r.status ≠ 429 := by omega
    rcases hbusy with h503 | ⟨hb, hc⟩
    · simp [h400, h422, h401, h403, h429, h503, hstatus]
    · simp [h400, h422, h401, h403, h429, hb, hc, hstatus]

variable [DecidableEq Hash]

/-- **What a run leaves when it gets on.** -/
theorem good_next (hw : WorldOk page w) (h : Ready page w run job)
    (hfits : run.phase.Fits page w run job) {response : ℕ → Option (Response Hash)}
    (hresponse : ∀ k r, response k = some r → w.Got k r) {input : Input} (hfair : input.fair = true)
    {x : Job Hash × Outcome Hash}
    (hnext : run.next (w.context page disposed) response input job = some x) :
    Good page w run job x := by
  unfold Run.next at hnext
  dsimp only at hnext
  generalize run.phase = phase at hfits hnext
  cases phase with
  | fingerprint =>
    cases input with
    | computed =>
      cases hnext
      exact good_fingerprinted hw h hfits
    | unreadable =>
      cases hnext
      exact h.thrown .other nofun
    | _ => cases hnext
  | hashing use whole =>
    cases input with
    | computed =>
      cases hnext
      exact good_hashed hw h hfits
    | unreadable =>
      cases hnext
      exact h.thrown .other nofun
    | interrupted =>
      dsimp only at hnext
      split_ifs at hnext
      cases hnext
      exact h.thrown .abort nofun
    | _ => cases hnext
  | reconciling k =>
    obtain ⟨hsince, hverify, u, hupload, hsent⟩ := hfits
    cases input with
    | answer jitter =>
      obtain ⟨r, hr, rfl⟩ := Option.map_eq_some_iff.mp hnext
      have hgot := hresponse k r hr
      cases r with
      | detail session =>
        obtain ⟨rfl, hdetail⟩ := hw.got hsent hgot
        exact good_reconciled hw h hupload hdetail hsince hsent hgot hverify
      | _ => exact h.thrown _ fun _ => h.made.of_uploadId hupload
    | lost refusal jitter =>
      cases hnext
      exact h.thrown _ fun _ => h.made.of_uploadId hupload
    | _ => cases hnext
  | verifying session n =>
    cases input with
    | computed =>
      cases hnext
      exact good_verified hw h hfits.2
    | unreadable =>
      cases hnext
      exact h.thrown .other nofun
    | _ => cases hnext
  | calling call wait =>
    cases wait with
    | backoff n time =>
      cases input with
      | elapsed =>
        dsimp only at hnext
        split_ifs at hnext
        cases hnext
        exact good_attempt hw h hfits n
      | interrupted =>
        dsimp only at hnext
        split_ifs at hnext
        cases hnext
        exact h.thrown .abort nofun
      | _ => cases hnext
    | sent n k =>
      cases input with
      | answer jitter =>
        obtain ⟨r, hr, rfl⟩ := Option.map_eq_some_iff.mp hnext
        exact good_answered hw h hfits (hresponse k r hr) n jitter
      | lost refusal jitter =>
        cases hnext
        refine good_failed h hfits (fun chunkSize _ hdefinite => ?_) n jitter
        rw [not_definite hfair] at hdefinite
        cases hdefinite
      | _ => cases hnext
  | ended =>
    cases input with
    | computed =>
      cases hnext
      exact h.returned
    | _ => cases hnext

end Answers

end Queue

end HomeCloud
