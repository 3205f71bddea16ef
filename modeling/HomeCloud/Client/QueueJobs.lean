import HomeCloud.Client.QueueParts

/-!
# What happens to a job keeps what holds

* `Job.Like`: what of a job its runs and cancellations rest on.
* `Steps`, `Effect.Ok`: what is left of a job when something happens to it.
* `Over`: a run is over; `JobOk.finishCancellation`: the job is cancelled.
* **`run_ok`**, **`cancellation_ok`**, **`pause_ok`**, …: everything that happens to a job.
-/

namespace HomeCloud

namespace Queue

open ChunkSizes

variable {Hash : Type} {page : Page Hash} {w : World Hash} {run : Run Hash} {job job' : Job Hash}

/-! ## Jobs that do not differ -/

/-- What of a job its runs and cancellations rest on. -/
structure Job.Like (job job' : Job Hash) : Prop where
  id : job'.id = job.id
  size : job'.size = job.size
  committedBytes : job'.committedBytes = job.committedBytes
  uploadId : job'.uploadId = job.uploadId
  creationUncertain : job'.creationUncertain = job.creationUncertain
  verify : job.verifyCommitted = true → job'.verifyCommitted = true

theorem Unmade.like (h : Unmade page w job) (hl : job.Like job') : Unmade page w job' :=
  ⟨hl.uploadId.trans h.uploadId, fun ho k hk => h.refused ho k (hl.id ▸ hk)⟩

theorem Counted.like {since : ℕ} {session : Session Hash} {indexes : List ℕ}
    (h : Counted w since job session indexes) (hl : job.Like job') :
    Counted w since job' session indexes :=
  { h with
    uploadId := hl.uploadId.trans h.uploadId
    size := h.size.trans hl.size.symm
    bytes := hl.committedBytes.trans h.bytes
    covered := fun i hi => hl.id ▸ h.covered i hi }

theorem Verifying.like {session : Session Hash} {n : ℕ} (h : Verifying page w run job session n)
    (hl : job.Like job') : Verifying page w run job' session n :=
  ⟨h.counted.like hl, h.reported, h.slices, hl.verify h.verify⟩

theorem Call.Fits.like {call : Call Hash} (h : call.Fits page w run job) (hl : job.Like job') :
    call.Fits page w run job' := by
  cases call with
  | limits =>
    have hunmade : Unmade page w job := h
    exact hunmade.like hl
  | create => exact ⟨h.1, h.2.like hl⟩
  | chunk => exact ⟨h.1.like hl, h.2⟩
  | complete => exact ⟨h.1.like hl, h.2⟩
  | replay => exact ⟨hl.uploadId.trans h.1, h.2⟩

theorem Call.Waits.like {call : Call Hash} {k : ℕ} (h : call.Waits page w run job k)
    (hl : job.Like job') : call.Waits page w run job' k := by
  cases call with
  | limits =>
    have hunmade : Unmade page w job := h
    exact hunmade.like hl
  | create =>
    obtain ⟨hpos, hnone, huncertain, hothers, hsent⟩ := h
    refine ⟨hpos, hl.uploadId.trans hnone, hl.creationUncertain.trans huncertain, ?_, ?_⟩
    · rw [hl.id]
      exact hothers
    · rw [hl.id, hl.size]
      exact hsent
  | chunk => exact ⟨Call.Fits.like h.1 hl, h.2.1, hl.id ▸ h.2.2⟩
  | complete => exact ⟨Call.Fits.like h.1 hl, hl.id ▸ h.2⟩
  | replay session =>
    have hfits : (Call.replay session).Fits page w run job := h
    exact hfits.like hl

theorem Phase.Fits.like {phase : Phase Hash} (h : phase.Fits page w run job) (hl : job.Like job') :
    phase.Fits page w run job' := by
  unfold Phase.Fits at h ⊢
  split at h
  · exact h.like hl
  · exact ⟨h.1, h.2.like hl⟩
  · exact h.like hl
  · obtain ⟨hsince, hverify, u, hu, hsent⟩ := h
    exact ⟨hsince, hl.verify hverify, u, hl.uploadId.trans hu, hl.id ▸ hsent⟩
  · exact ⟨h.1, h.2.like hl⟩
  · exact h.like hl
  · exact h.like hl
  · trivial

/-- What fits a run does not depend on what it awaits. -/
theorem Phase.Fits.rephase {phase phase' : Phase Hash} (h : phase.Fits page w run job) :
    phase.Fits page w { run with phase := phase' } job := by
  unfold Phase.Fits at h ⊢
  split at h
  · exact h
  · exact h
  · exact { h with }
  · exact h
  · exact ⟨h.1, { h.2 with }⟩
  · rename_i call _ _
    cases call <;> exact h
  · rename_i call _ _
    cases call <;> exact h
  · trivial

theorem Run.Fits.like (h : run.Fits page w job) (hl : job.Like job') : run.Fits page w job' :=
  ⟨h.length.trans hl.size.symm, hl.size ▸ h.positive, h.since, h.phase.like hl⟩

theorem Cancellation.Fits.like {cancellation : Cancellation Hash} (h : cancellation.Fits w job)
    (hl : job.Like job') : cancellation.Fits w job' := by
  unfold Cancellation.Fits at h ⊢
  rw [hl.uploadId, hl.id]
  exact h

/-! ## What happens to a job -/

/-- No session is asked for, no chunk is sent, and only what is completed is completed again. -/
def Quiet (w : World Hash) (request : Option (Request Hash)) : Prop :=
  ∀ q, request = some q → q.isCreate = false ∧ q.isChunk = false ∧ ∀ u, q = .complete u → w.Completed u

/-- What is left of a job when something happens to it, and what may be sent. -/
structure Steps (page : Page Hash) (w : World Hash) (job job' : Job Hash)
    (request : Option (Request Hash)) : Prop where
  id : job'.id = job.id
  kept : ∀ u, job.uploadId = some u → job'.uploadId = some u
  ok : JobOk page (w.sent job.id request) job'
  made : ∀ q, request = some q → q.isCreate = true → Unmade page w job
  stopped : ∀ q, request = some q → (q.isCreate || q.isChunk) = true → job.cancelRequested = false
  complete : ∀ u, request = some (.complete u) →
    (∃ (k : ℕ) (e : Exchange Hash), w.exchanges[k]? = some e ∧ e.request = .complete u) ∨
    ∃ run ∈ job.runs, ∃ session, w.server[u]? = some session ∧ ∀ i < session.totalChunks,
      w.Covered run.since job.id u i

theorem Steps.quiet {request : Option (Request Hash)} (hw : WorldOk page w) (hquiet : Quiet w request)
    (hid : job'.id = job.id) (hkept : ∀ u, job.uploadId = some u → job'.uploadId = some u)
    (hok : JobOk page (w.sent job.id request) job') : Steps page w job job' request := by
  refine ⟨hid, hkept, hok, fun q hq hcreate => ?_, fun q hq hsends => ?_, fun u hu => .inl ?_⟩
  · rw [(hquiet q hq).1] at hcreate
    cases hcreate
  · rw [(hquiet q hq).1, (hquiet q hq).2.1] at hsends
    cases hsends
  · exact hw.complete u ((hquiet _ hu).2.2 u rfl)

/-- The requests of a job that sends nothing. -/
theorem quiet_none (w : World Hash) : Quiet w none := nofun

theorem quiet_detail (w : World Hash) (u : ℕ) : Quiet w (some (.detail u)) := by
  intro q hq
  cases hq
  exact ⟨rfl, rfl, nofun⟩

theorem quiet_remove (w : World Hash) (u : ℕ) : Quiet w (some (.remove u)) := by
  intro q hq
  cases hq
  exact ⟨rfl, rfl, nofun⟩

theorem quiet_complete {u : ℕ} (h : w.Completed u) : Quiet w (some (.complete u)) := by
  intro q hq
  cases hq
  refine ⟨rfl, rfl, fun u' hu' => ?_⟩
  cases hu'
  exact h

/-- What is left of a job that sends nothing. -/
theorem JobOk.quiet {request : Option (Request Hash)} (h : JobOk page w job) (hquiet : Quiet w request) :
    JobOk page (w.sent job.id request) job :=
  h.mono (.sent w job.id request) fun _ hk => hk.of_sent (.inr fun q hq => (hquiet q hq).1)

/-- What is left of a job, and of what the listeners are told, when something happens to it. -/
structure Effect.Ok (page : Page Hash) (w : World Hash) (job : Job Hash) (e : Effect Hash) : Prop where
  steps : Steps page w job e.job e.request
  runs : e.job.runs.length + (if e.ended then 1 else 0) = job.runs.length
  told : e.publishes = false → e.job.state = job.state ∧ e.job.item.percent = job.item.percent

/-- Nothing happens. -/
theorem JobOk.still (hw : WorldOk page w) (h : JobOk page w job) : Effect.Ok page w job job.still :=
  ⟨.quiet hw (quiet_none w) rfl (fun _ hu => hu) (h.quiet (quiet_none w)), rfl, fun _ => ⟨rfl, rfl⟩⟩

/-! ## Runs -/

/-- A job has one run at most, while it is busy. -/
theorem JobOk.busy (h : JobOk page w job) {i : ℕ} (hrun : job.runs[i]? = some run) :
    job.busy = true ∧ job.runs = [run] ∧ i = 0 := by
  obtain ⟨hi, hget⟩ := List.getElem?_eq_some_iff.mp hrun
  have hlength := h.flags.runs
  split_ifs at hlength with hbusy
  · obtain ⟨run', hrun'⟩ := List.length_eq_one_iff.mp hlength
    have hzero : i = 0 := by omega
    subst hzero
    refine ⟨hbusy, ?_, rfl⟩
    rw [hrun'] at hrun
    cases hrun
    exact hrun'
  · omega

/-- **What a part of the run of a job starts from.** -/
theorem JobOk.ready (h : JobOk page w job) {i : ℕ} (hrun : job.runs[i]? = some run) :
    Ready page w run job := by
  obtain ⟨hbusy, -, -⟩ := h.busy hrun
  have hfits := h.run run (List.mem_of_getElem? hrun)
  have hterminal : job.state.terminal = false := eq_false_of_ne_true fun hterminal => by
    have hidle := (h.flags.terminal hterminal).1
    rw [hbusy] at hidle
    cases hidle
  have hstate : job.state.running = true := by
    have hidle : ¬ (job.state = .selected ∨ job.state = .queued) := fun hstate => by
      have hidle := (h.flags.idle hstate).2.1
      rw [hbusy] at hidle
      cases hidle
    rw [not_or] at hidle
    simp [UploadQueueState.running, hidle.1, hidle.2, hterminal]
  refine ⟨hfits.length, hfits.positive, hfits.since, h.sized, h.made, h.ends, hstate, fun hrequested => ?_⟩
  rcases h.flags.requested hrequested with hpending | hover
  · exact ⟨hpending, h.flags.signalled hbusy hpending⟩
  · rw [hterminal] at hover
    cases hover

/-- A run goes on only in a state that is none of the idle or final ones. -/
theorem UploadQueueState.running_iff (state : UploadQueueState) : state.running = true ↔
    state ≠ .selected ∧ state ≠ .queued ∧ state ≠ .completed ∧ state ≠ .cancelled := by
  cases state <;> decide

/-- What a part of a run leaves of the job whose run goes on. -/
theorem Good.await {phase : Phase Hash} {request : Option (Request Hash)} (hok : JobOk page w job)
    (hrun : job.runs[0]? = some run) (h : Good page w run job (job', .await phase request)) :
    Effect.Ok page w job
      ⟨{ job' with runs := job'.runs.set 0 { run with phase } }, request, false, false, true, false⟩ := by
  obtain ⟨hbusy, hruns, -⟩ := hok.busy hrun
  obtain ⟨hrunning, hphase, hrequest⟩ := h.outcome
  have hframe : job'.frame = job.frame := h.frame
  have hid : job'.id = job.id := congrArg (fun j => j.id) hframe
  have hruns' : job'.runs = [run] := (congrArg (fun j => j.runs) hframe).trans hruns
  have hbusy' : job'.busy = true := (congrArg (fun j => j.busy) hframe).trans hbusy
  have hcontrol : job'.control = job.control := congrArg (fun j => j.control) hframe
  have hrequested : job'.cancelRequested = job.cancelRequested :=
    congrArg (fun j => j.cancelRequested) hframe
  have hcancelling : job'.cancelling = job.cancelling := congrArg (fun j => j.cancelling) hframe
  have hcancellations : job'.cancellations = job.cancellations :=
    congrArg (fun j => j.cancellations) hframe
  have hreselections : job'.reselections = job.reselections := congrArg (fun j => j.reselections) hframe
  have hsize : job'.size = job.size := congrArg (fun j => j.size) hframe
  obtain ⟨hselected, hqueued, hcompleted, hcancelled⟩ := (UploadQueueState.running_iff _).mp hrunning
  have hpending : job'.cancellationPending = job.cancellationPending :=
    h.pending.resolve_right fun hend => hcompleted hend.1
  have hnone : job.cancelling = false := eq_false_of_ne_true fun hc => by
    have hidle := (hok.flags.cancelling hc).1
    rw [hbusy] at hidle
    cases hidle
  have hlater := World.Later.sent w job'.id request
  have hready := hok.ready hrun
  refine ⟨⟨hid, h.kept, ?_, fun q hq hcreate => (hrequest q hq).2 hcreate, fun q hq hsends => ?_,
    fun u hu => ?_⟩, ?_, nofun⟩
  · rw [← hid]
    refine ⟨h.sized, h.made, h.ends.mono hlater, ?_, fun run' hrun' => ?_, fun x hx => ?_, ?_, ?_⟩
    · exact
        { idle := fun hstate => (hstate.elim hselected hqueued).elim
          requested := fun hc => .inl (hpending.trans (hready.cancelled (hrequested.symm.trans hc)).1)
          control := fun _ => hcontrol ▸ hok.flags.control hbusy
          signalled := fun _ hp => hcontrol.trans (hok.flags.signalled hbusy (hpending.symm.trans hp))
          cancelling := fun hc => absurd (hcancelling.symm.trans hc) (by rw [hnone]; decide)
          terminal := fun hterminal => by
            rw [UploadQueueState.terminal, Bool.or_eq_true, decide_eq_true_eq, decide_eq_true_eq] at hterminal
            exact (hterminal.elim hcompleted hcancelled).elim
          runs := by
            change (job'.runs.set 0 _).length = if job'.busy = true then 1 else 0
            rw [hruns', hbusy']
            rfl
          cancellations := by
            change job'.cancellations.length = if job'.cancelling = true then 1 else 0
            rw [hcancellations, hcancelling]
            exact hok.flags.cancellations }
    · change run' ∈ job'.runs.set 0 _ at hrun'
      rw [hruns', List.set_cons_zero, List.mem_singleton] at hrun'
      subst hrun'
      have hphase' : phase.Fits page (w.sent job'.id request) { run with phase } job' := hphase.rephase
      exact ⟨hready.length.trans hsize.symm, hsize ▸ hready.positive, hready.since.trans hlater.length,
        hphase'.like ⟨rfl, rfl, rfl, rfl, rfl, fun hv => hv⟩⟩
    · change x ∈ job'.cancellations at hx
      have hlength := hok.flags.cancellations
      rw [hnone, if_neg Bool.false_ne_true, List.length_eq_zero_iff] at hlength
      rw [hcancellations, hlength] at hx
      cases hx
    · change ∀ file ∈ job'.reselections, file.data.length = job'.size
      rw [hreselections, hsize]
      exact hok.reselection
    · exact fun u hu => h.kept u (hok.id u (hid.symm.trans hu))
  · exact hrequested ▸ (hrequest q hq).1.1 hsends
  · rcases (hrequest _ hu).1.2 u rfl with hbefore | hcovered
    · exact .inl hbefore
    · refine .inr ⟨run, List.mem_of_getElem? hrun, ?_⟩
      rw [← hid]
      exact hcovered
  · change (job'.runs.set 0 _).length + 0 = _
    rw [hruns', hruns]
    rfl

/-- What is left of the job when its run or its cancellation is over. -/
structure Over (page : Page Hash) (w : World Hash) (job job' : Job Hash) : Prop where
  frame : job'.frame = job.frame
  pending : job'.cancellationPending = job.cancellationPending ∨ job'.state.terminal = true
  kept : ∀ u, job.uploadId = some u → job'.uploadId = some u
  sized : Sized job'.size job'.committedBytes job'.file job'.uploadId
  made : Made page w job'.id job'.createKey job'.createDeadline job'.uploadId job'.creationUncertain
  ends : Ends page w job'.state job'.uploadId job'.uploaded
  state : job'.state ≠ .selected ∧ job'.state ≠ .queued

/-- The run returns. -/
theorem Good.returned (h : Good page w run job (job', .returned)) : Over page w job job' := by
  have hmade : Made page (w.sent job'.id none) job'.id job'.createKey job'.createDeadline job'.uploadId
    job'.creationUncertain := h.made
  rw [World.sent_none] at hmade
  refine ⟨h.frame, h.pending.imp_right fun hend => ?_, h.kept, h.sized, hmade, h.ends, ?_⟩
  · have hcompleted : job'.state = .completed := hend.1
    rw [hcompleted]
    rfl
  · rcases h.state with hrunning | hcompleted
    · have hstate := (UploadQueueState.running_iff _).mp hrunning
      exact ⟨hstate.1, hstate.2.1⟩
    · have hstate : job'.state = .completed := hcompleted
      rw [hstate]
      exact ⟨nofun, nofun⟩

/-- The run throws. -/
theorem Good.thrown {e : Err} (c : Context Hash) (h : Good page w run job (job', .thrown e)) :
    Over page w job (job'.caught c e).1 := by
  have hmade : Made page (w.sent job'.id none) job'.id job'.createKey job'.createDeadline job'.uploadId
    job'.creationUncertain := h.made
  rw [World.sent_none] at hmade
  have hmade' : Made page w job'.id job'.createKey job'.createDeadline job'.uploadId
      (job'.creationUncertain && !e.definite) := by
    by_cases hdefinite : e.definite = true
    · rw [hdefinite, Bool.not_true, Bool.and_false]
      exact h.outcome.2 hdefinite
    · rw [eq_false_of_ne_true hdefinite, Bool.not_false, Bool.and_true]
      exact hmade
  have hover : ∀ state : UploadQueueState, state.running = true → Over page w job
      { job' with
        state
        verifyCommitted := job'.uploadId.isSome
        creationUncertain := job'.creationUncertain && !e.definite } := by
    intro state hstate
    have hstates := (UploadQueueState.running_iff _).mp hstate
    refine ⟨h.frame, h.pending.imp_right fun hend => ?_, h.kept, h.sized, hmade', h.ends.go ?_, hstates.1,
      hstates.2.1⟩
    · have hrunning := h.outcome.1
      rw [hend.1] at hrunning
      cases hrunning
    · cases state <;> first | rfl | cases hstate
  unfold Job.caught
  dsimp only
  split_ifs
  · exact hover job'.state h.outcome.1
  · exact hover .paused rfl
  · exact hover .needsFile rfl
  · exact hover .error rfl
  · exact hover .needsFile rfl

/-- **The job when its run is over**, and nothing goes on in it. -/
theorem Over.idle (hok : JobOk page w job) (hrun : job.runs[0]? = some run) (h : Over page w job job') :
    JobOk page w { job' with busy := false, control := none, runs := job'.runs.eraseIdx 0 } := by
  obtain ⟨hbusy, hruns, -⟩ := hok.busy hrun
  have hframe : job'.frame = job.frame := h.frame
  have hid : job'.id = job.id := congrArg (fun j => j.id) hframe
  have hruns' : job'.runs = [run] := (congrArg (fun j => j.runs) hframe).trans hruns
  have hrequested : job'.cancelRequested = job.cancelRequested :=
    congrArg (fun j => j.cancelRequested) hframe
  have hcancellations : job'.cancellations = job.cancellations :=
    congrArg (fun j => j.cancellations) hframe
  have hreselections : job'.reselections = job.reselections := congrArg (fun j => j.reselections) hframe
  have hsize : job'.size = job.size := congrArg (fun j => j.size) hframe
  have hnone : job.cancelling = false := eq_false_of_ne_true fun hc => by
    have hidle := (hok.flags.cancelling hc).1
    rw [hbusy] at hidle
    cases hidle
  have hnone' : job'.cancelling = false := (congrArg (fun j => j.cancelling) hframe).trans hnone
  have hempty : job'.cancellations = [] := by
    have hlength := hok.flags.cancellations
    rw [hnone, if_neg Bool.false_ne_true, List.length_eq_zero_iff] at hlength
    exact hcancellations.trans hlength
  refine ⟨h.sized, h.made, h.ends, ?_, fun run' hrun' => ?_, fun x hx => ?_, ?_, ?_⟩
  · exact
      { idle := fun hstate => (hstate.elim h.state.1 h.state.2).elim
        requested := fun hc => h.pending.imp_left fun hpending =>
          hpending.trans ((hok.ready hrun).cancelled (hrequested.symm.trans hc)).1
        control := nofun
        signalled := nofun
        cancelling := fun hc => absurd (hnone'.symm.trans hc) (by decide)
        terminal := fun _ => ⟨rfl, hnone'⟩
        runs := by
          change (job'.runs.eraseIdx 0).length = 0
          rw [hruns']
          rfl
        cancellations := by
          change job'.cancellations.length = if job'.cancelling = true then 1 else 0
          rw [hempty, hnone']
          rfl }
  · change run' ∈ job'.runs.eraseIdx 0 at hrun'
    rw [hruns'] at hrun'
    cases hrun'
  · change x ∈ job'.cancellations at hx
    rw [hempty] at hx
    cases hx
  · change ∀ file ∈ job'.reselections, file.data.length = job'.size
    rw [hreselections, hsize]
    exact hok.reselection
  · exact fun u hu => h.kept u (hok.id u (hid.symm.trans hu))

/-- **The cancellation of a job that is not busy begins**, or is over at once. -/
theorem JobOk.finishCancellation {c : Context Hash} (h : JobOk page w job)
    (hbusy : job.busy = false) (hpending : job.cancellationPending = true)
    (hnext : c.next = w.exchanges.length) (pumps : Bool) :
    let x := job.finishCancellation c pumps
    Quiet w x.2 ∧ x.1.id = job.id ∧ x.1.uploadId = job.uploadId ∧ x.1.runs = job.runs ∧
      JobOk page (w.sent job.id x.2) x.1 := by
  unfold Job.finishCancellation
  split_ifs with hover
  · exact ⟨quiet_none w, rfl, rfl, rfl, h.quiet (quiet_none w)⟩
  rw [Bool.or_eq_true, not_or, Bool.not_eq_true, Bool.not_eq_true] at hover
  obtain ⟨hcancelling, hterminal⟩ := hover
  have hruns : job.runs = [] := by
    have hlength := h.flags.runs
    rwa [hbusy, if_neg Bool.false_ne_true, List.length_eq_zero_iff] at hlength
  have hempty : job.cancellations = [] := by
    have hlength := h.flags.cancellations
    rwa [hcancelling, if_neg Bool.false_ne_true, List.length_eq_zero_iff] at hlength
  dsimp only
  split
  · rename_i hupload
    refine ⟨quiet_none w, rfl, rfl, rfl, ?_⟩
    rw [World.sent_none]
    refine { h with
      sized := ⟨Nat.zero_le _, fun _ => rfl, nofun⟩
      ends := ?_
      flags := ?_
      run := ?_
      cancellation := ?_ }
    · exact ⟨nofun, fun _ u hu => absurd (hupload.symm.trans hu) nofun, h.ends.uploaded⟩
    · exact
        { idle := fun hstate => hstate.elim nofun nofun
          requested := fun _ => .inr rfl
          control := fun hb => absurd (hbusy.symm.trans hb) nofun
          signalled := fun hb => absurd (hbusy.symm.trans hb) nofun
          cancelling := nofun
          terminal := fun _ => ⟨hbusy, rfl⟩
          runs := h.flags.runs
          cancellations := by
            change job.cancellations.length = 0
            rw [hempty]
            rfl }
    · change ∀ run ∈ job.runs, _
      rw [hruns]
      exact List.forall_mem_nil _
    · change ∀ x ∈ job.cancellations, _
      rw [hempty]
      exact List.forall_mem_nil _
  · rename_i u hupload
    refine ⟨quiet_remove w u, rfl, rfl, rfl, ?_⟩
    have hquiet := h.quiet (quiet_remove w u)
    refine { hquiet with flags := ?_, run := ?_, cancellation := fun x hx => ?_ }
    · exact
        { h.flags with
          idle := fun hstate => by
            have hidle := (h.flags.idle hstate).2.2.2.1
            rw [hpending] at hidle
            cases hidle
          cancelling := fun _ => ⟨hbusy, hpending⟩
          terminal := fun hover => absurd (hterminal.symm.trans hover) nofun
          cancellations := by
            change (job.cancellations ++ [_]).length = 1
            rw [hempty]
            rfl }
    · change ∀ run ∈ job.runs, _
      rw [hruns]
      exact List.forall_mem_nil _
    · change x ∈ job.cancellations ++ [_] at hx
      rw [hempty, List.nil_append, List.mem_singleton] at hx
      subst hx
      exact ⟨u, hupload, hnext ▸ w.sent_last job.id _⟩

/-- **A run is over**, and a cancellation that was asked for begins. -/
theorem Over.finalize {disposed : Bool} (hw : WorldOk page w) (hok : JobOk page w job)
    (hrun : job.runs[0]? = some run) (h : Over page w job job') (discovers : Bool) :
    Effect.Ok page w job (job'.finalize (w.context page disposed) 0 discovers) := by
  have hidle := h.idle hok hrun
  have hid : job'.id = job.id := congrArg (fun j => j.id) h.frame
  have hruns : (job'.runs.eraseIdx 0).length + 1 = job.runs.length := by
    have hframe : job'.runs = job.runs := congrArg (fun j => j.runs) h.frame
    rw [hframe, (hok.busy hrun).2.1]
    rfl
  unfold Job.finalize
  dsimp only
  split_ifs with hcancel
  · rw [Bool.and_eq_true] at hcancel
    obtain ⟨hquiet, hid', hupload, hruns', hok'⟩ :=
      hidle.finishCancellation (c := w.context page disposed) rfl hcancel.1 rfl true
    refine ⟨.quiet hw hquiet (hid'.trans hid) (fun u hu => hupload.trans (h.kept u hu)) ?_, ?_, nofun⟩
    · rw [← hid]
      exact hok'
    · dsimp only
      rw [hruns']
      exact hruns
  · refine ⟨.quiet hw (quiet_none w) hid h.kept ?_, hruns, nofun⟩
    rw [World.sent_none]
    exact hidle

/-! ## Cancellations -/

section Cancellations

variable {disposed : Bool} {x : Cancellation Hash}

/-- A job has one cancellation at most, and no run then. -/
theorem JobOk.cancelled (h : JobOk page w job) {i : ℕ} (hx : job.cancellations[i]? = some x) :
    job.cancelling = true ∧ job.cancellations = [x] ∧ i = 0 ∧ job.runs = [] := by
  obtain ⟨hi, hget⟩ := List.getElem?_eq_some_iff.mp hx
  have hlength := h.flags.cancellations
  split_ifs at hlength with hcancelling
  · obtain ⟨x', hx'⟩ := List.length_eq_one_iff.mp hlength
    have hzero : i = 0 := by omega
    subst hzero
    have hruns := h.flags.runs
    rw [(h.flags.cancelling hcancelling).1, if_neg Bool.false_ne_true, List.length_eq_zero_iff] at hruns
    refine ⟨hcancelling, ?_, rfl, hruns⟩
    rw [hx'] at hx
    cases hx
    exact hx'
  · omega

/-- A job that is being cancelled is not over. -/
theorem JobOk.unfinished (h : JobOk page w job) (hx : job.cancellations[0]? = some x) :
    job.state.terminal = false := by
  refine eq_false_of_ne_true fun hterminal => ?_
  have hidle := (h.flags.terminal hterminal).2
  rw [(h.cancelled hx).1] at hidle
  cases hidle

theorem JobOk.over (h : JobOk page w job) (hx : job.cancellations[0]? = some x) :
    Over page w job job := by
  have hpending := (h.flags.cancelling (h.cancelled hx).1).2
  refine ⟨rfl, .inl rfl, fun _ hu => hu, h.sized, h.made, h.ends, fun hstate => ?_, fun hstate => ?_⟩
  · have hidle := (h.flags.idle (.inl hstate)).2.2.2.1
    rw [hpending] at hidle
    cases hidle
  · have hidle := (h.flags.idle (.inr hstate)).2.2.2.1
    rw [hpending] at hidle
    cases hidle

/-- The state of the job changes. -/
theorem Over.go (h : Over page w job job) (state : UploadQueueState) (hrunning : state.running = true) :
    Over page w job { job with state } := by
  have hstate := (UploadQueueState.running_iff _).mp hrunning
  refine { h with pending := .inl rfl, ends := h.ends.go ?_, state := ⟨hstate.1, hstate.2.1⟩ }
  cases state <;> first | rfl | cases hrunning

/-- What is left when a cancellation goes on, or ends. -/
theorem Over.jobOk {request : Option (Request Hash)} {cancelling : Bool}
    {cancellations : List (Cancellation Hash)} (hok : JobOk page w job)
    (hx : job.cancellations[0]? = some x) (h : Over page w job job') (hquiet : Quiet w request)
    (hlength : cancellations.length = if cancelling then 1 else 0)
    (hcancelling : cancelling = true →
      job'.cancellationPending = true ∧ job'.state.terminal = false)
    (hfits : ∀ x' ∈ cancellations, x'.Fits (w.sent job.id request) job') :
    JobOk page (w.sent job.id request) { job' with cancelling, cancellations } := by
  obtain ⟨hc, -, -, hruns⟩ := hok.cancelled hx
  obtain ⟨hidle, hpending⟩ := hok.flags.cancelling hc
  have hframe : job'.frame = job.frame := h.frame
  have hid : job'.id = job.id := congrArg (fun j => j.id) hframe
  have hruns' : job'.runs = [] := (congrArg (fun j => j.runs) hframe).trans hruns
  have hbusy : job'.busy = false := (congrArg (fun j => j.busy) hframe).trans hidle
  have hrequested : job'.cancelRequested = job.cancelRequested :=
    congrArg (fun j => j.cancelRequested) hframe
  have hreselections : job'.reselections = job.reselections := congrArg (fun j => j.reselections) hframe
  have hsize : job'.size = job.size := congrArg (fun j => j.size) hframe
  have hlater := World.Later.sent w job.id request
  have hnew : ∀ k, (w.sent job.id request).Creation job'.id k → w.Creation job'.id k := fun k hk =>
    hk.of_sent (.inr fun q hq => (hquiet q hq).1)
  refine ⟨h.sized, h.made.mono hlater hnew, h.ends.mono hlater, ?_, fun run hrun => ?_, fun x' hx' => ?_,
    ?_, ?_⟩
  · exact
      { idle := fun hstate => (hstate.elim h.state.1 h.state.2).elim
        requested := fun hc => h.pending.imp_left fun heq => heq.trans hpending
        control := fun hb => absurd (hbusy.symm.trans hb) nofun
        signalled := fun hb => absurd (hbusy.symm.trans hb) nofun
        cancelling := fun hc => ⟨hbusy, (hcancelling hc).1⟩
        terminal := fun hterminal => ⟨hbusy, eq_false_of_ne_true fun hc => by
          have hlive := (hcancelling hc).2
          rw [show job'.state.terminal = true from hterminal] at hlive
          cases hlive⟩
        runs := by
          change job'.runs.length = if job'.busy = true then 1 else 0
          rw [hruns', hbusy]
          rfl
        cancellations := hlength }
  · change run ∈ job'.runs at hrun
    rw [hruns'] at hrun
    cases hrun
  · exact (hfits x' hx').like ⟨rfl, rfl, rfl, rfl, rfl, fun hv => hv⟩
  · change ∀ file ∈ job'.reselections, file.data.length = job'.size
    rw [hreselections, hsize]
    exact hok.reselection
  · exact fun u hu => h.kept u (hok.id u (hid.symm.trans hu))

/-- **A cancellation is over.** -/
theorem Over.finished (hw : WorldOk page w) (hok : JobOk page w job) (hx : job.cancellations[0]? = some x)
    (h : Over page w job job') (pumps : Bool) : Effect.Ok page w job (job'.finished 0 pumps) := by
  have hframe : job'.frame = job.frame := h.frame
  have hcancellations : job'.cancellations = [x] :=
    (congrArg (fun j => j.cancellations) hframe).trans (hok.cancelled hx).2.1
  have hempty : job'.cancellations.eraseIdx 0 = [] := by
    rw [hcancellations]
    rfl
  refine ⟨.quiet hw (quiet_none w) (congrArg (fun j => j.id) hframe) h.kept ?_,
    congrArg (fun j => j.runs.length) hframe, nofun⟩
  unfold Job.finished
  rw [hempty]
  exact h.jobOk hok hx (quiet_none w) rfl nofun (List.forall_mem_nil _)

/-- **A cancellation is not confirmed.** -/
theorem Over.unconfirmed (hw : WorldOk page w) (hok : JobOk page w job)
    (hx : job.cancellations[0]? = some x) (h : Over page w job job') (pumps : Bool) :
    Effect.Ok page w job (job'.unconfirmed 0 pumps) := by
  have hpending := (hok.flags.cancelling (hok.cancelled hx).1).2
  have hover : Over page w job { job' with state := .error, cancellationPending := true } :=
    { h with pending := .inl hpending.symm, ends := h.ends.go rfl, state := ⟨nofun, nofun⟩ }
  exact hover.finished hw hok hx pumps

/-- **A cancellation goes on.** -/
theorem Over.cancels {request : Option (Request Hash)} {phase : CancelPhase Hash} (hw : WorldOk page w)
    (hok : JobOk page w job) (hx : job.cancellations[0]? = some x) (h : Over page w job job')
    (hstate : job'.state.terminal = false) (hquiet : Quiet w request)
    (hfits : ({ x with phase } : Cancellation Hash).Fits (w.sent job.id request) job') :
    Effect.Ok page w job (job'.cancels 0 x phase request) := by
  have hframe : job'.frame = job.frame := h.frame
  obtain ⟨hc, hcancellations, -, -⟩ := hok.cancelled hx
  have hset : job'.cancellations.set 0 { x with phase } = [{ x with phase }] := by
    rw [show job'.cancellations = job.cancellations from congrArg (fun j => j.cancellations) hframe,
      hcancellations]
    rfl
  have hcancelling : job'.cancelling = true := (congrArg (fun j => j.cancelling) hframe).trans hc
  have hpending : job'.cancellationPending = true := by
    rcases h.pending with heq | hterminal
    · exact heq.trans (hok.flags.cancelling hc).2
    · rw [hstate] at hterminal
      cases hterminal
  refine ⟨.quiet hw hquiet (congrArg (fun j => j.id) hframe) h.kept ?_,
    congrArg (fun j => j.runs.length) hframe, nofun⟩
  unfold Job.cancels
  rw [hset]
  have hlength : [({ x with phase } : Cancellation Hash)].length = if job'.cancelling then 1 else 0 := by
    rw [hcancelling]
    rfl
  refine h.jobOk hok hx hquiet hlength (fun _ => ⟨hpending, hstate⟩) fun x' hx' => ?_
  rw [List.mem_singleton.mp hx']
  exact hfits

end Cancellations

/-- **A run gets on.** -/
theorem run_ok [DecidableEq Hash] {disposed : Bool} (hw : WorldOk page w) (hok : JobOk page w job)
    {response : ℕ → Option (Response Hash)} (hresponse : ∀ k r, response k = some r → w.Got k r)
    {input : Input} (hfair : input.fair = true) {i : ℕ} {e : Effect Hash}
    (hrun : job.run (w.context page disposed) response i input = some e) : Effect.Ok page w job e := by
  obtain ⟨run, hi, hrun⟩ := Option.bind_eq_some_iff.mp hrun
  obtain ⟨x, hx, hrun⟩ := Option.bind_eq_some_iff.mp hrun
  obtain ⟨-, -, rfl⟩ := hok.busy hi
  have hgood := good_next hw (hok.ready hi) (hok.run run (List.mem_of_getElem? hi)).phase hresponse hfair hx
  obtain ⟨job', outcome⟩ := x
  split at hrun
  · -- The run has been over before.
    rename_i hphase
    cases hrun
    have hreturned : (job', outcome) = (job, Outcome.returned) := by
      unfold Run.next at hx
      rw [hphase] at hx
      cases input <;> first | exact (Option.some.inj hx).symm | cases hx
    rw [hreturned] at hgood ⊢
    exact hgood.returned.finalize hw hok hi false
  · cases hrun
    cases outcome with
    | await phase request => exact hgood.await hok hi
    | returned => exact hgood.returned.finalize hw hok hi false
    | thrown e => exact (hgood.thrown (w.context page disposed)).finalize hw hok hi _

section Cancellations

variable {disposed : Bool} {x : Cancellation Hash} {session : Session Hash}

/-- **Perhaps the upload is completed.** -/
theorem check_ok (hw : WorldOk page w) (hok : JobOk page w job) (hx : job.cancellations[0]? = some x) :
    Effect.Ok page w job (job.check (w.context page disposed) 0 x) := by
  unfold Job.check
  split
  · exact (hok.over hx).unconfirmed hw hok hx x.pumps
  · rename_i u hupload
    exact (hok.over hx).cancels hw hok hx (hok.unfinished hx) (quiet_detail w u)
      ⟨u, hupload, w.sent_last job.id _⟩

/-- **An attempt to delete the session.** -/
theorem delete_ok [DecidableEq Hash] (hw : WorldOk page w) (hok : JobOk page w job)
    (hx : job.cancellations[0]? = some x)
    (n : ℕ) (budget : RetryBudget) :
    Effect.Ok page w job (job.delete (w.context page disposed) 0 n x budget) := by
  unfold Job.delete
  split
  · exact check_ok hw hok hx
  · rename_i u hupload
    split_ifs
    · exact check_ok hw hok hx
    · exact (hok.over hx).cancels hw hok hx (hok.unfinished hx) (quiet_remove w u)
        ⟨u, hupload, w.sent_last job.id _⟩

/-- **An attempt to complete the session again.** -/
theorem replay_ok (hw : WorldOk page w) (hok : JobOk page w job) (hx : job.cancellations[0]? = some x)
    (h : Over page w job job') (hstate : job'.state.terminal = false)
    (hupload : job'.uploadId = some session.uploadId) (hcompleted : w.Completed session.uploadId) (n : ℕ)
    (budget : RetryBudget) :
    Effect.Ok page w job (job'.replay (w.context page disposed) 0 n x session budget) := by
  unfold Job.replay
  split_ifs
  · exact h.unconfirmed hw hok hx x.pumps
  · exact h.cancels hw hok hx hstate (quiet_complete hcompleted)
      ⟨hupload, hcompleted.mono (.sent w job.id _)⟩

/-- **An attempt to delete the session has failed.** -/
theorem deleteFailed_ok [DecidableEq Hash] (hw : WorldOk page w) (hok : JobOk page w job)
    (hx : job.cancellations[0]? = some x) (hupload : job.uploadId.isSome) (n : ℕ) (budget : RetryBudget)
    (e : ApiError) (jitter : ℕ) :
    Effect.Ok page w job (job.deleteFailed (w.context page disposed) 0 n x budget e jitter) := by
  unfold Job.deleteFailed
  split_ifs
  · split
    · exact check_ok hw hok hx
    · exact (hok.over hx).cancels hw hok hx (hok.unfinished hx) (quiet_none w) hupload
  · exact check_ok hw hok hx

/-- **An attempt to complete the session again has failed.** -/
theorem replayFailed_ok (hw : WorldOk page w) (hok : JobOk page w job)
    (hx : job.cancellations[0]? = some x) (hupload : job.uploadId = some session.uploadId)
    (hcompleted : w.Completed session.uploadId) (n : ℕ) (budget : RetryBudget) (e : ApiError)
    (jitter : ℕ) :
    Effect.Ok page w job (job.replayFailed (w.context page disposed) 0 n x session budget e jitter) := by
  unfold Job.replayFailed
  split_ifs
  · split
    · exact (hok.over hx).unconfirmed hw hok hx x.pumps
    · exact (hok.over hx).cancels hw hok hx (hok.unfinished hx) (quiet_none w)
        ⟨hupload, hcompleted.mono (.sent w job.id none)⟩
  · exact (hok.over hx).unconfirmed hw hok hx x.pumps

/-- What `reconcile` takes for committed is no more than the file. -/
theorem reconcile_bytes_le {bytes : ℕ} (h : job.reconcile session = some (.committed bytes)) :
    bytes ≤ job.size := by
  obtain ⟨hsize, hl, hnodup, hrange, rfl⟩ := reconcile_committed h
  have hle : session.indexes.toFinset.sum
      (chunkLength session.totalSize session.chunkSize session.totalChunks) ≤
      ∑ i ∈ Finset.range session.totalChunks,
        chunkLength session.totalSize session.chunkSize session.totalChunks i := by
    refine Finset.sum_le_sum_of_subset fun i hi => ?_
    exact Finset.mem_range.mpr (hrange i (List.mem_toFinset.mp hi))
  rw [List.sum_toFinset _ hnodup, sum_chunkLength hl] at hle
  exact hsize ▸ hle

/-- **The details of the session are there while it is cancelled.** -/
theorem checked_ok [DecidableEq Hash] (hw : WorldOk page w) (hok : JobOk page w job)
    (hx : job.cancellations[0]? = some x)
    (hupload : job.uploadId = some session.uploadId) (hdetail : DetailOk page w session) (deadline : ℕ) :
    Effect.Ok page w job (job.checked (w.context page disposed) 0 x deadline session) := by
  have hover := hok.over hx
  unfold Job.checked
  split
  · exact hover.unconfirmed hw hok hx x.pumps
  · rename_i bytes hrec
    have hover' : Over page w job { job with session := some session, committedBytes := bytes } :=
      { hover with sized := ⟨reconcile_bytes_le hrec, fun hnone => absurd (hnone.symm.trans hupload) nofun,
          hok.sized.file⟩ }
    exact hover'.unconfirmed hw hok hx x.pumps
  · rename_i hrec
    have hcompleted := hdetail.completed (reconcile_completed hrec)
    have hover' := hover.go .completing rfl
    dsimp only
    split
    · exact hover'.unconfirmed hw hok hx x.pumps
    · exact replay_ok hw hok hx hover' rfl hupload hcompleted 1 _
    · exact hover'.cancels hw hok hx rfl (quiet_none w) ⟨hupload, hcompleted.mono (.sent w job.id none)⟩

/-- **The session is deleted.** -/
theorem removed_ok (hw : WorldOk page w) (hok : JobOk page w job) (hx : job.cancellations[0]? = some x)
    {u : ℕ} (hupload : job.uploadId = some u) (haborted : w.Aborted u) :
    Effect.Ok page w job (job.cancelled.finished 0 x.pumps) := by
  have hover : Over page w job { job.cancelled with cancelling := job.cancelling } := by
    refine ⟨rfl, .inr rfl, fun _ hu => hu, ⟨Nat.zero_le _, fun _ => rfl, nofun⟩, hok.made, ?_,
      nofun, nofun⟩
    refine ⟨nofun, fun _ u' hu' => ?_, hok.ends.uploaded⟩
    cases hupload.symm.trans hu'
    exact haborted
  exact hover.finished hw hok hx x.pumps

/-- **The upload has been completed before it is cancelled.** -/
theorem replayed_ok (hw : WorldOk page w) (hok : JobOk page w job) (hx : job.cancellations[0]? = some x)
    {u : ℕ} (hupload : job.uploadId = some u) (hcompleted : w.Completed u) :
    Effect.Ok page w job (job.replayed.finished 0 x.pumps) := by
  have hover : Over page w job job.replayed :=
    ⟨rfl, .inr rfl, fun _ hu => hu, ⟨le_rfl, fun hnone => absurd (hnone.symm.trans hupload) nofun, nofun⟩,
      hok.made, ⟨fun _ => ⟨u, hupload, hcompleted⟩, nofun, hok.ends.uploaded⟩, nofun, nofun⟩
  exact hover.finished hw hok hx x.pumps

/-- **A cancellation gets on.** -/
theorem cancellation_ok [DecidableEq Hash] (hw : WorldOk page w) (hok : JobOk page w job)
    {response : ℕ → Option (Response Hash)} (hresponse : ∀ k r, response k = some r → w.Got k r)
    {input : Input} {i : ℕ} {e : Effect Hash}
    (hcancel : job.cancellation (w.context page disposed) response i input = some e) :
    Effect.Ok page w job e := by
  obtain ⟨x, hx, hcancel⟩ := Option.bind_eq_some_iff.mp hcancel
  obtain ⟨-, -, rfl, -⟩ := hok.cancelled hx
  have hfits := hok.cancellation x (List.mem_of_getElem? hx)
  obtain ⟨pumps, phase⟩ := x
  cases phase with
  | deleting wait budget =>
    cases wait with
    | sent n k =>
      obtain ⟨u, hupload, hsent⟩ := hfits
      have hsome : job.uploadId.isSome := by
        rw [hupload]
        rfl
      cases input with
      | answer jitter =>
        obtain ⟨r, hr, rfl⟩ := Option.map_eq_some_iff.mp hcancel
        cases r with
        | removed => exact removed_ok hw hok hx hupload (hw.got hsent (hresponse k _ hr))
        | refused refusal => exact deleteFailed_ok hw hok hx hsome n budget _ jitter
        | _ => exact check_ok hw hok hx
      | lost refusal jitter =>
        cases hcancel
        exact deleteFailed_ok hw hok hx hsome n budget _ jitter
      | interrupted =>
        dsimp only at hcancel
        split_ifs at hcancel
        cases hcancel
        exact check_ok hw hok hx
      | _ => cases hcancel
    | backoff n time =>
      cases input with
      | elapsed =>
        dsimp only at hcancel
        split_ifs at hcancel
        cases hcancel
        exact delete_ok hw hok hx n budget
      | interrupted =>
        dsimp only at hcancel
        split_ifs at hcancel
        cases hcancel
        exact check_ok hw hok hx
      | _ => cases hcancel
  | checking k deadline =>
    obtain ⟨u, hupload, hsent⟩ := hfits
    cases input with
    | answer jitter =>
      obtain ⟨r, hr, rfl⟩ := Option.map_eq_some_iff.mp hcancel
      cases r with
      | detail session =>
        obtain ⟨rfl, hdetail⟩ := hw.got hsent (hresponse k _ hr)
        exact checked_ok hw hok hx hupload hdetail deadline
      | _ => exact (hok.over hx).unconfirmed hw hok hx pumps
    | lost refusal jitter =>
      cases hcancel
      exact (hok.over hx).unconfirmed hw hok hx pumps
    | interrupted =>
      dsimp only at hcancel
      split_ifs at hcancel
      cases hcancel
      exact (hok.over hx).unconfirmed hw hok hx pumps
    | _ => cases hcancel
  | replaying session wait budget =>
    obtain ⟨hupload, hcompleted⟩ := hfits
    cases wait with
    | sent n k =>
      cases input with
      | answer jitter =>
        obtain ⟨r, hr, rfl⟩ := Option.map_eq_some_iff.mp hcancel
        cases r with
        | completed => exact replayed_ok hw hok hx hupload hcompleted
        | refused refusal => exact replayFailed_ok hw hok hx hupload hcompleted n budget _ jitter
        | _ => exact (hok.over hx).unconfirmed hw hok hx pumps
      | lost refusal jitter =>
        cases hcancel
        exact replayFailed_ok hw hok hx hupload hcompleted n budget _ jitter
      | interrupted =>
        dsimp only at hcancel
        split_ifs at hcancel
        cases hcancel
        exact (hok.over hx).unconfirmed hw hok hx pumps
      | _ => cases hcancel
    | backoff n time =>
      cases input with
      | elapsed =>
        dsimp only at hcancel
        split_ifs at hcancel
        cases hcancel
        exact replay_ok hw hok hx (hok.over hx) (hok.unfinished hx) hupload hcompleted n budget
      | interrupted =>
        dsimp only at hcancel
        split_ifs at hcancel
        cases hcancel
        exact (hok.over hx).unconfirmed hw hok hx pumps
      | _ => cases hcancel

end Cancellations

/-! ## The user -/

section User

variable {disposed : Bool}

/-- The marks of a job are set, and what it waits for is interrupted. -/
theorem JobOk.mark {state : UploadQueueState} {pauseRequested cancellationPending cancelRequested : Bool}
    (h : JobOk page w job) (hstate : state.running = true)
    (hrequested : cancelRequested = true → cancellationPending = true)
    (hcancelling : job.cancelling = true → cancellationPending = true) :
    JobOk page w { job with
      state, pauseRequested, cancellationPending, cancelRequested
      control := job.control.map fun _ => true } := by
  obtain ⟨hselected, hqueued, hcompleted, hcancelled⟩ := (UploadQueueState.running_iff _).mp hstate
  refine { h with
    ends := ⟨fun hc => (hcompleted hc).elim, fun hc => (hcancelled hc).elim, h.ends.uploaded⟩
    flags := ?_
    run := fun run hrun => (h.run run hrun).like ⟨rfl, rfl, rfl, rfl, rfl, fun hv => hv⟩
    cancellation := fun x hx => (h.cancellation x hx).like ⟨rfl, rfl, rfl, rfl, rfl, fun hv => hv⟩ }
  exact
    { idle := fun hidle => (hidle.elim hselected hqueued).elim
      requested := fun hc => .inl (hrequested hc)
      control := fun hbusy => by
        rw [Option.isSome_map]
        exact h.flags.control hbusy
      signalled := fun hbusy _ => by
        obtain ⟨signal, hsignal⟩ := Option.isSome_iff_exists.mp (h.flags.control hbusy)
        change job.control.map _ = some true
        rw [hsignal]
        rfl
      cancelling := fun hc => ⟨(h.flags.cancelling hc).1, hcancelling hc⟩
      terminal := fun hterminal => by
        rw [UploadQueueState.terminal, Bool.or_eq_true, decide_eq_true_eq, decide_eq_true_eq] at hterminal
        exact (hterminal.elim hcompleted hcancelled).elim
      runs := h.flags.runs
      cancellations := h.flags.cancellations }

/-- What is left of a job that has changed, but has sent nothing. -/
theorem JobOk.silent {e : Effect Hash} (hw : WorldOk page w) (h : JobOk page w e.job)
    (hrequest : e.request = none) (hended : e.ended = false) (hid : e.job.id = job.id)
    (hupload : e.job.uploadId = job.uploadId) (hruns : e.job.runs = job.runs)
    (htold : e.publishes = false → e.job.state = job.state ∧ e.job.item.percent = job.item.percent) :
    Effect.Ok page w job e := by
  refine ⟨.quiet hw ?_ hid (fun u hu => hupload.trans hu) ?_, ?_, htold⟩
  · rw [hrequest]
    exact quiet_none w
  · rw [hrequest, World.sent_none]
    exact h
  · rw [hended, hruns]
    rfl

/-- **Pause.** -/
theorem pause_ok (hw : WorldOk page w) (h : JobOk page w job) : Effect.Ok page w job job.pause := by
  unfold Job.pause
  split
  · exact h.still hw
  · rename_i hnot
    rw [Bool.or_eq_true, Bool.or_eq_true, not_or, not_or] at hnot
    obtain ⟨⟨hterminal, hpending⟩, -⟩ := hnot
    refine JobOk.silent hw (h.mark ?_ (fun hc => ?_) fun hc => (h.flags.cancelling hc).2) rfl rfl rfl rfl rfl
      nofun
    · split_ifs <;> rfl
    · exact (h.flags.requested hc).resolve_right hterminal

/-- **Cancel.** -/
theorem cancel_ok (hw : WorldOk page w) (h : JobOk page w job) :
    Effect.Ok page w job (job.cancel (w.context page disposed)) := by
  have hmark : JobOk page w { job with
      cancellationPending := true
      cancelRequested := true
      pauseRequested := false
      state := .cancelling
      control := job.control.map fun _ => true } := h.mark rfl (fun _ => rfl) fun _ => rfl
  unfold Job.cancel
  dsimp only
  split_ifs with hnot hbusy
  · exact h.still hw
  · exact JobOk.silent hw hmark rfl rfl rfl rfl rfl nofun
  · obtain ⟨hquiet, hid, hupload, hruns, hok⟩ :=
      hmark.finishCancellation (c := w.context page disposed) (eq_false_of_ne_true hbusy) rfl rfl false
    exact ⟨.quiet hw hquiet hid (fun u hu => hupload.trans hu) hok, congrArg List.length hruns, nofun⟩

/-- **Resume.** -/
theorem resume_ok (hw : WorldOk page w) (h : JobOk page w job) :
    Effect.Ok page w job (job.resume (w.context page disposed)) := by
  unfold Job.resume
  split_ifs with hnot hpending huncertain
  · exact h.still hw
  · exact cancel_ok hw h
  · exact JobOk.silent hw h rfl rfl rfl rfl rfl nofun
  simp only [Bool.or_eq_true, not_or, Bool.not_eq_true] at hnot
  obtain ⟨⟨-, hterminal⟩, hbusy⟩ := hnot
  have hruns : job.runs = [] := by
    have hlength := h.flags.runs
    rwa [hbusy, if_neg Bool.false_ne_true, List.length_eq_zero_iff] at hlength
  have hrequested : job.cancelRequested = false := eq_false_of_ne_true fun hc => by
    rcases h.flags.requested hc with hp | ht
    · exact hpending hp
    · rw [hterminal] at ht
      cases ht
  have hempty : job.cancellations = [] := by
    have hlength := h.flags.cancellations
    rwa [if_neg fun hc => hpending (h.flags.cancelling hc).2, List.length_eq_zero_iff] at hlength
  split
  · refine JobOk.silent hw ?_ rfl rfl rfl rfl rfl nofun
    refine { h with ends := h.ends.go rfl, flags := ?_, run := ?_, cancellation := ?_ }
    · exact
        { h.flags with
          idle := fun hstate => hstate.elim nofun nofun
          requested := fun hc => absurd (hrequested.symm.trans hc) nofun
          terminal := nofun }
    · change ∀ run ∈ job.runs, _
      rw [hruns]
      exact List.forall_mem_nil _
    · change ∀ x ∈ job.cancellations, _
      rw [hempty]
      exact List.forall_mem_nil _
  · rename_i file hfile
    split_ifs with hvalid
    · refine JobOk.silent hw ?_ rfl rfl rfl rfl rfl nofun
      rw [Bool.and_eq_true, decide_eq_true_eq, h.sized.file file hfile] at hvalid
      refine { h with ends := h.ends.go rfl, flags := ?_, run := ?_, cancellation := ?_ }
      · exact
          { h.flags with
            idle := fun _ => ⟨hvalid.2, hbusy, rfl, eq_false_of_ne_true hpending, fun hu => hu,
              fun ho _ => eq_false_of_ne_true fun hc => huncertain (by
                rw [hc]
                change (true && !page.transport) = true
                rw [ho]
                rfl)⟩
            requested := fun hc => absurd (hrequested.symm.trans hc) nofun
            terminal := nofun }
      · change ∀ run ∈ job.runs, _
        rw [hruns]
        exact List.forall_mem_nil _
      · change ∀ x ∈ job.cancellations, _
        rw [hempty]
        exact List.forall_mem_nil _
    · exact h.still hw

/-- **A file is selected again.** -/
theorem reselect_ok (hw : WorldOk page w) (h : JobOk page w job) (file : LocalFile) :
    Effect.Ok page w job (job.reselect (w.context page disposed) file) := by
  unfold Job.reselect
  split_ifs with hnot hother
  · exact h.still hw
  · exact JobOk.silent hw h rfl rfl rfl rfl rfl nofun
  · simp only [Bool.or_eq_true, decide_eq_true_eq, not_or, not_not] at hother
    refine JobOk.silent hw ?_ rfl rfl rfl rfl rfl fun _ => ⟨rfl, rfl⟩
    refine { h with
      flags := { h.flags with }
      run := fun run hrun => (h.run run hrun).like ⟨rfl, rfl, rfl, rfl, rfl, fun hv => hv⟩
      cancellation := fun x hx => (h.cancellation x hx).like ⟨rfl, rfl, rfl, rfl, rfl, fun hv => hv⟩
      reselection := fun file' hfile => ?_ }
    rcases List.mem_append.mp hfile with hold | hnew
    · exact h.reselection file' hold
    · rw [List.mem_singleton.mp hnew]
      exact hother.2

/-- **The samples of the file that is selected again are there.** -/
theorem reselected_ok [DecidableEq Hash] (hw : WorldOk page w) (h : JobOk page w job) {i : ℕ}
    {readable : Bool} {e : Effect Hash}
    (he : job.reselected (w.context page disposed) i readable = some e) : Effect.Ok page w job e := by
  obtain ⟨file, hi, he⟩ := Option.bind_eq_some_iff.mp he
  have hfile := h.reselection file (List.mem_of_getElem? hi)
  have herased : JobOk page w { job with reselections := job.reselections.eraseIdx i } :=
    { h with
      flags := { h.flags with }
      run := fun run hrun => (h.run run hrun).like ⟨rfl, rfl, rfl, rfl, rfl, fun hv => hv⟩
      cancellation := fun x hx => (h.cancellation x hx).like ⟨rfl, rfl, rfl, rfl, rfl, fun hv => hv⟩
      reselection := fun f hf => h.reselection f (List.mem_of_mem_eraseIdx hf) }
  dsimp only at he
  split_ifs at he
  · cases he
    exact JobOk.silent hw herased rfl rfl rfl rfl rfl nofun
  · cases he
    exact JobOk.silent hw herased rfl rfl rfl rfl rfl fun _ => ⟨rfl, rfl⟩
  · cases he
    have hsized : Sized job.size job.committedBytes (some file) job.uploadId := by
      refine { h.sized with file := fun f hf => ?_ }
      cases hf
      exact hfile
    have hidle : job.state = .selected ∨ job.state = .queued → 0 < job.size ∧ job.busy = false ∧
        job.pauseRequested = false ∧ job.cancellationPending = false ∧
        (job.uploadId.isSome → true = true) ∧
        (page.transport = false → job.uploadId = none → job.creationUncertain = false) := fun hstate => by
      obtain ⟨hpos, hbusy, hpause, hpending, -, huncertain⟩ := h.flags.idle hstate
      exact ⟨hpos, hbusy, hpause, hpending, fun _ => rfl, huncertain⟩
    have hselected : JobOk page w { job with
        reselections := job.reselections.eraseIdx i
        file := some file
        fingerprint := sampleFingerprint page file
        needsFile := false
        verifyCommitted := true } :=
      { h with
        sized := hsized
        flags := { h.flags with idle := hidle }
        run := fun run hrun => (h.run run hrun).like ⟨rfl, rfl, rfl, rfl, rfl, fun _ => rfl⟩
        cancellation := fun x hx => (h.cancellation x hx).like ⟨rfl, rfl, rfl, rfl, rfl, fun _ => rfl⟩
        reselection := herased.reselection }
    have hresume : Effect.Ok page w _ (Job.resume (w.context page disposed) _) := resume_ok hw hselected
    refine ⟨⟨hresume.steps.id, hresume.steps.kept, hresume.steps.ok, fun q hq hcreate => ?_,
      hresume.steps.stopped, hresume.steps.complete⟩, hresume.runs, hresume.told⟩
    obtain ⟨hnone, hrefused⟩ := hresume.steps.made q hq hcreate
    exact ⟨hnone, hrefused⟩

/-- **The queue is disposed.** -/
theorem JobOk.dispose (h : JobOk page w job) : JobOk page w job.dispose := by
  unfold Job.dispose
  split
  · exact h
  · rename_i hnot
    rw [Bool.or_eq_true, not_or] at hnot
    refine h.mark ?_ (fun hc => ?_) fun hc => (h.flags.cancelling hc).2
    · split_ifs <;> rfl
    · exact (h.flags.requested hc).resolve_right hnot.1

/-- **A job that waits for the user starts to wait for the pump.** -/
theorem JobOk.select (h : JobOk page w job) : JobOk page w job.select := by
  unfold Job.select
  split_ifs with hselected
  · have hidle := h.flags.idle (.inl hselected)
    exact
      { h with
        ends := h.ends.go rfl
        flags :=
          { h.flags with
            idle := fun _ => hidle
            requested := fun hc => by
              rcases h.flags.requested hc with hp | ht
              · exact .inl hp
              · rw [hselected] at ht
                cases ht
            terminal := nofun }
        run := fun run hrun => (h.run run hrun).like ⟨rfl, rfl, rfl, rfl, rfl, fun hv => hv⟩
        cancellation := fun x hx => (h.cancellation x hx).like ⟨rfl, rfl, rfl, rfl, rfl, fun hv => hv⟩ }
  · exact h

end User

/-! ## New jobs -/

/-- **A file is added.** -/
theorem newJob_ok (w : World Hash) (parentId : Option ℕ) (start : Bool) (n : ℕ) (file : LocalFile)
    (hnew : ∀ k, ¬ w.Creation (.fresh n) k) : JobOk page w (newJob page parentId start n file) := by
  have hterminal : (newJob page parentId start n file).state.terminal = false := by
    unfold newJob
    dsimp only [Job.idle]
    split_ifs <;> rfl
  refine ⟨⟨Nat.zero_le _, fun _ => rfl, fun f hf => ?_⟩, ?_, ?_, ?_, List.forall_mem_nil _,
    List.forall_mem_nil _, List.forall_mem_nil _, nofun⟩
  · cases hf
    rfl
  · refine ⟨fun _ k hk => (hnew k hk).elim, fun ht => ?_, fun _ k key body hk => ?_, nofun,
      fun _ k e he hjob hcreate => ?_, nofun⟩
    · unfold newJob
      rw [if_pos ht]
      rfl
    · exact (hnew k ⟨key, body, hk⟩).elim
    · cases hrequest : e.request with
      | create key body => exact (hnew k ⟨key, body, e, he, hjob, hrequest⟩).elim
      | _ =>
        rw [hrequest] at hcreate
        cases hcreate
  · refine ⟨fun hc => ?_, fun hc => ?_, nofun⟩
    · rw [hc] at hterminal
      cases hterminal
    · rw [hc] at hterminal
      cases hterminal
  · refine
      { idle := fun hstate => ?_
        requested := nofun
        control := nofun
        signalled := nofun
        cancelling := nofun
        terminal := fun ht => absurd (hterminal.symm.trans ht) nofun
        runs := rfl
        cancellations := rfl }
    refine ⟨?_, rfl, rfl, rfl, nofun, fun _ _ => rfl⟩
    unfold newJob at hstate
    dsimp only [Job.idle] at hstate
    split_ifs at hstate with hvalid
    · exact of_decide_eq_true (Bool.and_eq_true_iff.mp hvalid).2
    · exact of_decide_eq_true (Bool.and_eq_true_iff.mp hvalid).2
    · exact hstate.elim nofun nofun

/-- What holds of an upload that has been saved. -/
structure SavedUpload.Ok (w : World Hash) (saved : SavedUpload Hash) : Prop where
  bytes : saved.committedBytes ≤ saved.size
  made : ∀ k, w.Creation saved.id k → w.Refused k ∨ w.Got k (.created saved.uploadId)
  id : ∀ u, saved.id = .server u → saved.uploadId = u

/-- **A saved upload is restored.** -/
theorem SavedUpload.Ok.restored {saved : SavedUpload Hash} (h : saved.Ok w)
    (hpage : page.transport = false) : JobOk page w (restoredJob saved) := by
  have hstate : (restoredJob saved).state = .error ∨ (restoredJob saved).state = .needsFile := by
    unfold restoredJob
    dsimp only [Job.idle]
    split_ifs
    · exact .inl rfl
    · exact .inr rfl
  have hpublic : ¬ page.transport = true := by
    rw [hpage]
    exact Bool.false_ne_true
  refine ⟨⟨h.bytes, nofun, nofun⟩, ⟨fun _ k hk => ?_, fun ht => (hpublic ht).elim,
    fun ht => (hpublic ht).elim, nofun, fun ht => (hpublic ht).elim, fun ht => (hpublic ht).elim⟩, ?_, ?_,
    List.forall_mem_nil _, List.forall_mem_nil _, List.forall_mem_nil _, fun u hu => congrArg some (h.id u hu)⟩
  · exact (h.made k hk).imp_right fun hgot => .inl ⟨saved.uploadId, rfl, hgot⟩
  · refine ⟨fun hc => ?_, fun hc => ?_, nofun⟩
    · rcases hstate with hs | hs <;> rw [hs] at hc <;> cases hc
    · rcases hstate with hs | hs <;> rw [hs] at hc <;> cases hc
  · exact
      { idle := fun hidle => by
          rcases hstate with hs | hs <;> rw [hs] at hidle <;> rcases hidle with hc | hc <;> cases hc
        requested := fun hc => .inl hc
        control := nofun
        signalled := nofun
        cancelling := nofun
        terminal := fun ht => by
          rcases hstate with hs | hs <;> rw [hs] at ht <;> cases ht
        runs := rfl
        cancellations := rfl }

/-- What is saved of a job. -/
theorem JobOk.saved {saved : SavedUpload Hash} (h : JobOk page w job) (hpage : page.transport = false)
    (hsaved : job.saved = some saved) :
    saved.Ok w ∧ saved.id = job.id ∧ job.uploadId = some saved.uploadId := by
  unfold Job.saved at hsaved
  split_ifs at hsaved
  obtain ⟨u, hu, rfl⟩ := Option.map_eq_some_iff.mp hsaved
  refine ⟨⟨h.sized.bytes, fun k hk => ?_, fun u' hu' => ?_⟩, rfl, hu⟩
  · rcases h.made.owner hpage k hk with hrefused | ⟨u', hu', hgot⟩ | ⟨hnone, -⟩
    · exact .inl hrefused
    · cases hu.symm.trans hu'
      exact .inr hgot
    · exact absurd (hnone.symm.trans hu) nofun
  · exact Option.some.inj (hu.symm.trans (h.id u' hu'))

/-- What has been saved still holds later. -/
theorem SavedUpload.Ok.mono {w' : World Hash} {saved : SavedUpload Hash} (hl : w.Later w')
    (hnew : ∀ k, w'.Creation saved.id k → w.Creation saved.id k) (h : saved.Ok w) : saved.Ok w' :=
  ⟨h.bytes, fun k hk => (h.made k (hnew k hk)).imp (·.mono hl) (·.mono hl), h.id⟩

/-! ## The pump -/

section Pump

variable {file : LocalFile}

/-- A session that is to be verified is asked for its details. -/
theorem continued_eq {c : Context Hash} (hstopped : job.stopped c = false)
    (hverify : job.verifyCommitted = true) (u : ℕ) :
    continued c file job u = (job, .await (.reconciling c.next) (some (.detail u))) := by
  unfold continued
  rw [if_neg (by rw [hstopped]; exact Bool.false_ne_true)]
  cases job.session with
  | none => rfl
  | some session =>
    dsimp only
    rw [if_pos (by rw [hverify]; rfl)]

/-- **The pump starts a job**, whose run awaits something at once. -/
theorem start_ok (hw : WorldOk page w) (h : JobOk page w job) (hqueued : job.state = .queued)
    (hfile : job.file = some file) : ∃ phase request,
    begin (w.context page false) file { job with busy := true, control := some false } =
      ({ job with busy := true, control := some false, state := .preparing }, .await phase request) ∧
    job.runs = [] ∧ (request = none ∨ ∃ u, request = some (.detail u)) ∧ Steps page w job
      { job with
        busy := true
        control := some false
        state := .preparing
        runs := job.runs ++ [⟨file, w.exchanges.length, phase⟩] } request := by
  obtain ⟨hpos, hbusy, hpause, hpending, hverify, huncertain⟩ := h.flags.idle (.inr hqueued)
  have hruns : job.runs = [] := by
    have hlength := h.flags.runs
    rwa [hbusy, if_neg Bool.false_ne_true, List.length_eq_zero_iff] at hlength
  have hempty : job.cancellations = [] := by
    have hlength := h.flags.cancellations
    rwa [if_neg fun hc => absurd (hpending.symm.trans (h.flags.cancelling hc).2) nofun,
      List.length_eq_zero_iff] at hlength
  -- What is left of the job, whatever its run awaits.
  have hsteps : ∀ (phase : Phase Hash) (request : Option (Request Hash)), Quiet w request →
      phase.Fits page (w.sent job.id request) ⟨file, w.exchanges.length, phase⟩ job → Steps page w job
        { job with
          busy := true
          control := some false
          state := .preparing
          runs := job.runs ++ [⟨file, w.exchanges.length, phase⟩] } request := by
    intro phase request hquiet hphase
    have hlater := World.Later.sent w job.id request
    refine .quiet hw hquiet rfl (fun _ hu => hu) ?_
    refine { h.quiet hquiet with
      ends := (h.ends.mono hlater).go rfl, flags := ?_, run := fun run hrun => ?_, cancellation := ?_ }
    · exact
        { idle := fun hstate => hstate.elim nofun nofun
          requested := fun hc => by
            rcases h.flags.requested hc with hp | ht
            · exact .inl hp
            · rw [hqueued] at ht
              cases ht
          control := fun _ => rfl
          signalled := fun _ hp => absurd (hpending.symm.trans hp) nofun
          cancelling := fun hc => absurd (hpending.symm.trans (h.flags.cancelling hc).2) nofun
          terminal := nofun
          runs := by
            change (job.runs ++ [_]).length = 1
            rw [hruns]
            rfl
          cancellations := h.flags.cancellations }
    · change run ∈ job.runs ++ [_] at hrun
      rw [hruns, List.nil_append, List.mem_singleton] at hrun
      subst hrun
      exact ⟨h.sized.file file hfile, hpos, hlater.length,
        hphase.like ⟨rfl, rfl, rfl, rfl, rfl, fun hv => hv⟩⟩
    · change ∀ x ∈ job.cancellations, _
      rw [hempty]
      exact List.forall_mem_nil _
  have hstopped : ({ job with busy := true, control := some false, state := .preparing } :
      Job Hash).stopped (w.context page false) = false := by
    change (job.pauseRequested || job.cancellationPending || false) = false
    rw [hpause, hpending]
    rfl
  rcases Option.eq_none_or_eq_some job.uploadId with hupload | ⟨u, hupload⟩
  · refine ⟨.fingerprint, none, ?_, hruns, .inl rfl, hsteps _ _ (quiet_none w) ?_⟩
    · unfold begin
      dsimp only
      split
      · rfl
      · rename_i u hsome
        exact absurd (hupload.symm.trans hsome) nofun
    · rw [World.sent_none]
      refine ⟨hupload, fun ho k hk => ?_⟩
      rcases h.made.owner ho k hk with hrefused | ⟨u, hu, -⟩ | ⟨-, hc⟩
      · exact hrefused
      · exact absurd (hupload.symm.trans hu) nofun
      · exact absurd ((huncertain ho hupload).symm.trans hc) nofun
  · have hverified : job.verifyCommitted = true := hverify (by rw [hupload]; rfl)
    refine ⟨.reconciling w.exchanges.length, some (.detail u), ?_, hruns, .inr ⟨u, rfl⟩,
      hsteps _ _ (quiet_detail w u) ?_⟩
    · unfold begin
      dsimp only
      split
      · rename_i hnone
        exact absurd (hnone.symm.trans hupload) nofun
      · rename_i u' hsome
        cases hupload.symm.trans hsome
        exact continued_eq hstopped hverified u
    · exact ⟨le_rfl, hverified, u, hupload, w.sent_last job.id _⟩

end Pump

end Queue

end HomeCloud
