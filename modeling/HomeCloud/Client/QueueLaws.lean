import HomeCloud.Client.QueueSteps

/-!
# The laws of the upload queue

* `State.after`, `exists_reached`: runs that are computed.
* **`scheduling`**: two runs at most, the progress, and the first request to complete a session.
* **`same_file`**: what is completed by a run has the bytes of its file.
* **`created_once`**: the requests for a session.
-/

namespace HomeCloud

namespace Queue

open ChunkSizes

variable {Hash : Type} {page : Page Hash} {s s' : State Hash} {job : Job Hash}

/-! ## Runs that are computed -/

/-- A page whose digests are the bytes themselves, with a transport or without. -/
def plainPage (transport : Bool) : Page (List UInt8) := ⟨transport, true, id⟩

/-- The state after the moves, when `ok` is true on the way. -/
def State.after (page : Page (List UInt8)) (ok : Move (List UInt8) → State (List UInt8) → Bool) :
    State (List UInt8) → List (Move (List UInt8)) → Option (State (List UInt8))
  | s, [] => some s
  | s, m :: moves => if ok m s then (s.next page m).bind (State.after page ok · moves) else none

theorem Reached.after {page : Page (List UInt8)} {ok : Move (List UInt8) → State (List UInt8) → Bool}
    {moves : List (Move (List UInt8))} {s s' : State (List UInt8)} (h : Reached page ok s)
    (hmoves : s.after page ok moves = some s') : Reached page ok s' := by
  induction moves generalizing s with
  | nil =>
    cases hmoves
    exact h
  | cons m moves ih =>
    rw [State.after] at hmoves
    split_ifs at hmoves with hok
    obtain ⟨t, ht, hrest⟩ := Option.bind_eq_some_iff.mp hmoves
    exact ih (h.step m hok ht) hrest

theorem exists_reached (page : Page (List UInt8)) (ok : Move (List UInt8) → State (List UInt8) → Bool)
    (moves : List (Move (List UInt8))) (p : State (List UInt8) → Bool)
    (h : (State.initial.after page ok moves).any p = true) : ∃ s, Reached page ok s ∧ p s = true := by
  obtain ⟨s, hs, hp⟩ := (Option.any_eq_true ..).mp h
  exact ⟨s, Reached.start.after hs, hp⟩

/-- A file is added, and its run asks for a session, which is made. -/
def creationRun : List (Move (List UInt8)) :=
  [.enqueue [⟨0, [], [1, 2, 3]⟩] none true, .run 0 0 .computed, .limits 0 ⟨false, false, 10, 100, 1000⟩,
    .run 0 0 (.answer 0), .serve 1 none]

/-- The chunk is sent and accepted, and the session completed. -/
def uploadedRun : List (Move (List UInt8)) :=
  creationRun ++ [.run 0 0 (.answer 0), .serve 2 none, .run 0 0 (.answer 0), .serve 3 none,
    .run 0 0 (.answer 0)]

theorem plainPage_injective (transport : Bool) : (plainPage transport).digest.Injective :=
  Function.injective_id

/-! ## The laws -/

section Laws

variable [DecidableEq Hash]

omit [DecidableEq Hash] in
/-- A job that is not completed is told to be at 99 percent at most. -/
theorem percent_iff (job : Job Hash) : job.item.percent = 100 ↔ job.state = .completed := by
  unfold Job.item
  dsimp only
  split_ifs with hstate
  · exact ⟨fun _ => hstate, fun _ => rfl⟩
  · exact ⟨fun hp => by omega, fun hc => (hstate hc).elim⟩

/-- The job has a run. -/
def Job.isRunning (job : Job Hash) : Bool := !job.runs.isEmpty

omit [DecidableEq Hash] in
/-- The runs are counted by the jobs that have one. -/
theorem sum_runs (jobs : List (Job Hash)) (h : ∀ job ∈ jobs, job.runs.length ≤ 1) :
    (jobs.map (·.runs.length)).sum = jobs.countP Job.isRunning := by
  induction jobs with
  | nil => rfl
  | cons job jobs ih =>
    have hjob := h job List.mem_cons_self
    rw [List.map_cons, List.sum_cons, List.countP_cons, ih fun j hj => h j (List.mem_cons_of_mem _ hj)]
    unfold Job.isRunning
    cases hruns : job.runs with
    | nil => simp
    | cons run runs =>
      rw [hruns, List.length_cons] at hjob
      simp only [List.length_cons, List.isEmpty_cons, Bool.not_false, if_true]
      omega

/-- **The scheduling and the progress**: two jobs run at most, and none twice; the listeners are told the
states and the percentages of the jobs, 100 of the completed ones only; and a request to complete a session
is not the first one, or comes in a run that has had all its chunks reported or accepted. -/
theorem scheduling (ok : Move Hash → State Hash → Bool) (s : State Hash) (hs : Reached page ok s) :
    s.active = s.jobs.countP Job.isRunning ∧ s.active ≤ 2 ∧
    (∀ job ∈ s.jobs, job.runs.length ≤ 1 ∧ job.committedBytes ≤ job.size ∧
      ∀ file, job.file = some file → file.data.length = job.size) ∧
    s.snapshot.map (fun item => (item.id, item.state, item.percent)) =
      s.jobs.map (fun job => (job.id, job.state, job.item.percent)) ∧
    (∀ item ∈ s.snapshot, item.percent = 100 ↔ item.state = .completed) ∧
    ∀ m s', s.next page m = some s' → ∀ (k : ℕ) e id u, s.exchanges.length ≤ k →
      s'.exchanges[k]? = some e → e.job = some id → e.request = .complete u →
      (∃ (k' : ℕ) (e' : Exchange Hash), s.exchanges[k']? = some e' ∧ e'.request = .complete u) ∨
      ∃ job ∈ s.jobs, job.id = id ∧ ∃ run ∈ job.runs, ∃ session, s.server[u]? = some session ∧
        ∀ i < session.totalChunks, s.toWorld.Covered run.since id u i := by
  have hinv := hs.inv
  have hone : ∀ job ∈ s.jobs, job.runs.length ≤ 1 := by
    intro job hjob
    rw [(hinv.jobs job hjob).flags.runs]
    split_ifs <;> omega
  refine ⟨hinv.active.trans (sum_runs s.jobs hone), hinv.limit, fun job hjob => ?_, hs.told,
    fun item hitem => ?_, fun m s' hnext k e id u hk he hid hu => ?_⟩
  · have hsized := (hinv.jobs job hjob).sized
    exact ⟨hone job hjob, hsized.bytes, hsized.file⟩
  · have hmem : item.told ∈ s.jobs.map fun job => job.item.told :=
      hs.told ▸ List.mem_map.mpr ⟨item, hitem, rfl⟩
    obtain ⟨job, -, heq⟩ := List.mem_map.mp hmem
    have hstate : job.state = item.state := congrArg (·.2.1) heq
    have hpercent : job.item.percent = item.percent := congrArg (·.2.2) heq
    rw [← hstate, ← hpercent]
    exact percent_iff job
  · exact ((stepped_next hinv hnext).allows k e hk he).complete id u hid hu

/-- A run that has completed its upload. -/
theorem scheduling_of_run : ∃ s, Reached (plainPage false) (fun _ _ => true) s ∧
    (s.snapshot.any fun item => item.state = .completed ∧ item.percent = 100) = true ∧ s.active ≤ 2 := by
  obtain ⟨s, hs, hp⟩ := exists_reached (plainPage false) (fun _ _ => true) uploadedRun
    (fun s => s.snapshot.any fun item => item.state = .completed ∧ item.percent = 100) (by decide +kernel)
  exact ⟨s, hs, hp, (scheduling (fun _ _ => true) s hs).2.1⟩

/-- **A completed upload has the bytes of its file**: the run that has completed it found or sent every
chunk of the session with the bytes of the file that it was started with. -/
theorem same_file (hdigest : page.digest.Injective) (ok : Move Hash → State Hash → Bool) (s : State Hash)
    (hs : Reached page ok s) : ∀ job ∈ s.jobs, ∀ file, job.uploaded = some file →
    ∃ u session, job.uploadId = some u ∧ s.server[u]? = some session ∧ session.status = .completed ∧
      ∀ i bytes, session.chunk i = some bytes →
        bytes = slice file.data session.body.chunkSize i := fun job hjob file hfile =>
  (hs.inv.jobs job hjob).ends.uploaded hdigest file hfile

theorem same_file_of_run : ∃ s job file, Reached (plainPage false) (fun _ _ => true) s ∧ job ∈ s.jobs ∧
    job.uploaded = some file ∧ ∃ (u : ℕ) (session : ServerSession (List UInt8)),
      s.server[u]? = some session ∧ session.status = .completed := by
  obtain ⟨s, hs, hp⟩ := exists_reached (plainPage false) (fun _ _ => true) uploadedRun
    (fun s => s.jobs.any fun job => job.uploaded.isSome) (by decide +kernel)
  obtain ⟨job, hjob, hsome⟩ := List.any_eq_true.mp hp
  obtain ⟨file, hfile⟩ := Option.isSome_iff_exists.mp hsome
  obtain ⟨u, session, -, hs', hstatus, -⟩ :=
    same_file (plainPage_injective false) (fun _ _ => true) s hs job hjob file hfile
  exact ⟨s, job, file, hs, hjob, hfile, u, session, hs', hstatus⟩

/-- **A job asks for one session**: without a transport no two sessions are made for it; with one all its
requests have its key, and the last one comes 23 hours after the first at most. -/
theorem created_once (ok : Move Hash → State Hash → Bool) (s : State Hash) (hs : Reached page ok s) :
    (page.transport = false → ∀ (u u' : ℕ) session session' e e' id,
      s.server[u]? = some session → s.server[u']? = some session' →
      s.exchanges[session.creator]? = some e → s.exchanges[session'.creator]? = some e' →
      e.job = some id → e'.job = some id → u = u') ∧
    (page.transport = true → ∀ (k k' : ℕ) e e' id key key' body body',
      s.exchanges[k]? = some e → s.exchanges[k']? = some e' → e.job = some id → e'.job = some id →
      e.request = .create key body → e'.request = .create key' body' →
      key.isSome ∧ key' = key ∧ e'.time ≤ e.time + 23 * 60 * 60000) := by
  have hinv := hs.inv
  refine ⟨fun ho u u' session session' e e' id hu hu' he he' hid hid' => ?_,
    fun ht k k' e e' id key key' body body' he he' hid hid' hrequest hrequest' =>
      hinv.asked.keyed ht id k k' e e' key key' body body' he he' hid hid' hrequest hrequest'⟩
  -- The requests that have made the sessions are not refused.
  have hmade : ∀ (u : ℕ) session e, s.server[u]? = some session → s.exchanges[session.creator]? = some e →
      e.job = some id → s.toWorld.Creation id session.creator ∧
        s.toWorld.Got session.creator (.created u) := by
    intro u session e hu he hid
    obtain ⟨e₀, r, he₀, hrequest, hr, hcreated⟩ := hinv.world.creator u session hu
    cases he.symm.trans he₀
    refine ⟨⟨_, _, e, he, hid, hrequest⟩, e, he, ?_⟩
    rw [hr, hcreated ho]
  obtain ⟨hcreation, hgot⟩ := hmade u session e hu he hid
  obtain ⟨hcreation', hgot'⟩ := hmade u' session' e' hu' he' hid'
  have hnot : ∀ {k u : ℕ}, s.toWorld.Got k (.created u) → ¬ s.toWorld.Refused k := by
    rintro k u ⟨e, he, hr⟩ ⟨refusal, e', he', hr'⟩
    cases he.symm.trans he'
    rw [hr] at hr'
    cases hr'
  rcases hinv.asked.once ho id _ _ hcreation hcreation' with hrefused | hrefused | heq
  · exact (hnot hgot hrefused).elim
  · exact (hnot hgot' hrefused).elim
  · obtain ⟨e₁, he₁, hr₁⟩ := hgot
    obtain ⟨e₂, he₂, hr₂⟩ := hgot'
    rw [← heq] at he₂
    cases he₁.symm.trans he₂
    exact Response.created.inj (Option.some.inj (hr₁.symm.trans hr₂))

theorem created_once_of_run : ∃ s, Reached (plainPage true) (fun _ _ => true) s ∧
    s.server.length = 1 ∧ ∀ (k k' : ℕ) e e' id key key' body body',
      s.exchanges[k]? = some e → s.exchanges[k']? = some e' → e.job = some id → e'.job = some id →
      e.request = .create key body → e'.request = .create key' body' →
      key.isSome ∧ key' = key ∧ e'.time ≤ e.time + 23 * 60 * 60000 := by
  obtain ⟨s, hs, hp⟩ := exists_reached (plainPage true) (fun _ _ => true) uploadedRun
    (fun s => s.server.length = 1) (by decide +kernel)
  exact ⟨s, hs, of_decide_eq_true hp, (created_once (fun _ _ => true) s hs).2 rfl⟩

end Laws

end Queue

end HomeCloud
