import HomeCloud.Client.QueueRuns

/-!
# The upload queue from one step to the next

* `State.Allows`: the requests that may be sent; `State.Told`: what the listeners are told.
* `State.Follows`: what a discovery, a publication and the pump leave.
* **`stepped_next`**: every step.
-/

namespace HomeCloud

namespace Queue

variable {Hash : Type} {page : Page Hash} {s s' s'' : State Hash} {job job' : Job Hash}

/-! ## From one step to the next -/

/-- What a request that is sent in a state is allowed to be: no chunk and no creation for a job that is
cancelled, and no completion before all chunks are covered, unless there has been one. -/
structure State.Allows (s : State Hash) (e : Exchange Hash) : Prop where
  stopped : ∀ job ∈ s.jobs, e.job = some job.id → (e.request.isCreate || e.request.isChunk) = true →
    job.cancelRequested = false
  complete : ∀ id u, e.job = some id → e.request = .complete u →
    (∃ (k : ℕ) (e' : Exchange Hash), s.exchanges[k]? = some e' ∧ e'.request = .complete u) ∨
    ∃ job ∈ s.jobs, job.id = id ∧ ∃ run ∈ job.runs, ∃ session, s.server[u]? = some session ∧
      ∀ i < session.totalChunks, s.toWorld.Covered run.since id u i

/-- A request that is none of these. -/
def Exchange.Quiet (e : Exchange Hash) : Prop :=
  e.request.isCreate = false ∧ e.request.isChunk = false ∧ ∀ u, e.request ≠ .complete u

theorem Exchange.Quiet.allows {e : Exchange Hash} (h : e.Quiet) : s.Allows e := by
  refine ⟨fun _ _ _ hsends => ?_, fun _ u _ hu => (h.2.2 u hu).elim⟩
  rw [h.1, h.2.1] at hsends
  cases hsends

/-- Requests of a kind are sent, and nothing else happens to those from before. -/
def State.Appends (P : Exchange Hash → Prop) (s s' : State Hash) : Prop :=
  ∃ l, s'.exchanges = s.exchanges ++ l ∧ ∀ e ∈ l, P e

theorem State.Appends.refl (P : Exchange Hash → Prop) (s : State Hash) : s.Appends P s :=
  ⟨[], (List.append_nil _).symm, List.forall_mem_nil _⟩

theorem State.Appends.trans {P : Exchange Hash → Prop} (h : s.Appends P s') (h' : s'.Appends P s'') :
    s.Appends P s'' := by
  obtain ⟨l, hl, hP⟩ := h
  obtain ⟨l', hl', hP'⟩ := h'
  refine ⟨l ++ l', ?_, fun e he => (List.mem_append.mp he).elim (hP e) (hP' e)⟩
  rw [hl', hl, List.append_assoc]

/-- What a listener is told of a job. -/
def UploadQueueItem.told (item : UploadQueueItem) : JobId × UploadQueueState × ℕ :=
  (item.id, item.state, item.percent)

/-- What the snapshot tells of the jobs is so. -/
def State.Told (s : State Hash) : Prop := s.snapshot.map (·.told) = s.jobs.map fun job => job.item.told

/-- A job that is still there keeps its session, and no other job is cancelled. -/
structure State.Keeps (s s' : State Hash) : Prop where
  job : ∀ job ∈ s.jobs, ∃ job' ∈ s'.jobs, job'.id = job.id ∧
    ∀ u, job.uploadId = some u → job'.uploadId = some u
  cancelled : ∀ job ∈ s'.jobs, job.state = .cancelled → job ∈ s.jobs

theorem State.Keeps.of_jobs (h : s'.jobs = s.jobs) : s.Keeps s' :=
  ⟨fun job hjob => ⟨job, h ▸ hjob, rfl, fun _ hu => hu⟩, fun _ hjob _ => h ▸ hjob⟩

theorem State.Keeps.trans (h : s.Keeps s') (h' : s'.Keeps s'') : s.Keeps s'' := by
  refine ⟨fun job hjob => ?_, fun job hjob hstate => h.cancelled job (h'.cancelled job hjob hstate) hstate⟩
  obtain ⟨job', hjob', hid, hkept⟩ := h.job job hjob
  obtain ⟨job'', hjob'', hid', hkept'⟩ := h'.job job' hjob'
  exact ⟨job'', hjob'', hid'.trans hid, fun u hu => hkept' u (hkept u hu)⟩

/-! ## What follows a change of a job -/

/-- What a discovery, a publication and the pump do. -/
structure State.Follows (s s' : State Hash) : Prop where
  keeps : s.Keeps s'
  appends : s.Appends Exchange.Quiet s'
  server : s'.server = s.server
  told : s.Told → s'.Told

theorem State.Follows.refl (s : State Hash) : s.Follows s :=
  ⟨.of_jobs rfl, .refl _ s, rfl, fun h => h⟩

theorem State.Follows.trans (h : s.Follows s') (h' : s'.Follows s'') : s.Follows s'' :=
  ⟨h.keeps.trans h'.keeps, h.appends.trans h'.appends, h'.server.trans h.server,
    fun ht => h'.told (h.told ht)⟩

theorem State.follows_discover (s : State Hash) : s.Follows (s.discover page) := by
  unfold State.discover
  dsimp only
  split_ifs
  · exact .refl s
  · exact ⟨.of_jobs rfl, .refl _ s, rfl, fun h => h⟩
  · refine ⟨.of_jobs rfl, ⟨_, rfl, fun e he => ?_⟩, rfl, fun h => h⟩
    rw [List.mem_singleton.mp he]
    exact ⟨rfl, rfl, nofun⟩

/-- A publication tells the listeners everything. -/
theorem State.told_publish (s : State Hash) : (s.publish page).Told := by
  change (s.jobs.map Job.item).map (·.told) = _
  rw [List.map_map]
  rfl

theorem State.follows_publish (s : State Hash) : s.Follows (s.publish page) :=
  ⟨.of_jobs rfl, .refl _ s, rfl, fun _ => s.told_publish⟩

/-- A job that changes is still there. -/
theorem Inv.kept_set {k : ℕ} (h : Inv page s) (hk : s.jobs[k]? = some job) (hid : job'.id = job.id)
    (hkept : ∀ u, job.uploadId = some u → job'.uploadId = some u) :
    ∀ j ∈ s.jobs, ∃ j' ∈ s.jobs.set k job', j'.id = j.id ∧
      ∀ u, j.uploadId = some u → j'.uploadId = some u := by
  intro j hj
  have hlt := (List.getElem?_eq_some_iff.mp hk).1
  by_cases heq : j.id = job.id
  · rw [eq_of_nodup_map (·.id) h.ids hj (List.mem_of_getElem? hk) heq]
    exact ⟨job', List.mem_of_getElem? (List.getElem?_set_self hlt), hid, hkept⟩
  · obtain ⟨i, hi⟩ := List.mem_iff_getElem?.mp hj
    refine ⟨j, List.mem_of_getElem? (i := i) ?_, rfl, fun _ hu => hu⟩
    rw [List.getElem?_set_ne, hi]
    rintro rfl
    cases hk.symm.trans hi
    exact heq rfl

/-- The pump publishes, or does nothing. -/
theorem State.follows_pump (h : Inv page s) : s.Follows (s.pump page) := by
  unfold State.pump
  split_ifs with hdisposed
  · exact .refl s
  -- A job that is started asks for its details, if for anything.
  have hfold : ∀ (positions : List ℕ) (s : State Hash), Inv page s → s.disposed = false →
      s.Follows ((positions.foldl (fun s k => s.pumpAt page k) s).publish page) := by
    intro positions
    induction positions with
    | nil => exact fun s _ _ => s.follows_publish
    | cons k positions ih =>
      intro s h hdisposed
      obtain ⟨hpumped, hlive⟩ := h.pumpAt hdisposed k
      have hrest := ih _ hpumped hlive
      rw [List.foldl_cons]
      rcases h.pumpAt_eq hdisposed k with heq | ⟨job, job', request, hk, hstate, -, -, hrequest, hsteps, heq⟩
      · rw [heq] at hrest ⊢
        exact hrest
      · have hat : s.Keeps (s.pumpAt page k) ∧ s.Appends Exchange.Quiet (s.pumpAt page k) ∧
            (s.pumpAt page k).server = s.server := by
          rw [heq]
          refine ⟨⟨h.kept_set hk hsteps.id hsteps.kept, fun j hj hcancelled => ?_⟩, ⟨_, rfl, fun e he => ?_⟩, rfl⟩
          · rcases mem_set (·.id) h.ids hk hj with rfl | ⟨hold, -⟩
            · rw [hstate] at hcancelled
              cases hcancelled
            · exact hold
          · obtain ⟨q, hq, rfl⟩ := List.mem_map.mp he
            rcases hrequest with rfl | ⟨u, rfl⟩
            · cases hq
            · rw [Option.toList_some, List.mem_singleton] at hq
              subst hq
              exact ⟨rfl, rfl, nofun⟩
        exact ⟨hat.1.trans hrest.keeps, hat.2.1.trans hrest.appends, hrest.server.trans hat.2.2,
          fun _ => State.told_publish _⟩
  exact hfold _ s h (eq_false_of_ne_true hdisposed)

/-- **What follows a change of a job.** -/
theorem State.follows_act [DecidableEq Hash] {k : ℕ} {e : Effect Hash} (h : Inv page s) (hk : s.jobs[k]? = some job)
    (he : Effect.Ok page s.toWorld job e) :
    (s.changed k e).Follows (s.act page k e) ∧ (e.publishes = true → (s.act page k e).Told) := by
  have hchanged := h.changed hk he
  have hdiscover : (s.changed k e).Follows
      (if e.discovers then (s.changed k e).discover page else s.changed k e) ∧
      Inv page (if e.discovers then (s.changed k e).discover page else s.changed k e) := by
    split_ifs
    · exact ⟨(s.changed k e).follows_discover, hchanged.discover⟩
    · exact ⟨.refl _, hchanged⟩
  have hpublish : ∀ s : State Hash, Inv page s →
      s.Follows (if e.publishes then s.publish page else s) ∧
      Inv page (if e.publishes then s.publish page else s) ∧
      (e.publishes = true → (if e.publishes then s.publish page else s).Told) := by
    intro s h
    split_ifs with hp
    · exact ⟨s.follows_publish, h.publish, fun _ => s.told_publish⟩
    · exact ⟨.refl s, h, fun hc => (hp hc).elim⟩
  have hpump : ∀ s : State Hash, Inv page s → s.Follows (if e.pumps then s.pump page else s) := by
    intro s h
    split_ifs
    · exact s.follows_pump h
    · exact .refl s
  obtain ⟨hpublished, hinv, htold⟩ := hpublish _ hdiscover.2
  have hpumped := hpump _ hinv
  exact ⟨(hdiscover.1.trans hpublished).trans hpumped, fun hp => hpumped.told (htold hp)⟩

/-! ## Requests and listeners -/

/-- What a step does for the requests and the listeners. -/
structure State.Stepped (s s' : State Hash) : Prop where
  allows : ∀ (k : ℕ) e, s.exchanges.length ≤ k → s'.exchanges[k]? = some e → s.Allows e
  told : s.Told → s'.Told

theorem State.Stepped.of_appends {P : Exchange Hash → Prop} (h : s.Appends P s') (hP : ∀ e, P e → s.Allows e)
    (htold : s.Told → s'.Told) : s.Stepped s' := by
  refine ⟨fun k e hk he => ?_, htold⟩
  obtain ⟨l, hl, hall⟩ := h
  rw [hl, List.getElem?_append_right hk] at he
  exact hP e (hall e (List.mem_of_getElem? he))

theorem State.Follows.stepped (h : s.Follows s') : s.Stepped s' :=
  .of_appends h.appends (fun _ he => he.allows) h.told

/-- No request is sent. -/
theorem State.Stepped.of_length (h : s'.exchanges.length ≤ s.exchanges.length)
    (htold : s.Told → s'.Told) : s.Stepped s' := by
  refine ⟨fun k e hk he => ?_, htold⟩
  have hlt := (List.getElem?_eq_some_iff.mp he).1
  omega

/-- **Something happens to a job.** -/
theorem State.stepped_act [DecidableEq Hash] {k : ℕ} {e : Effect Hash} (h : Inv page s)
    (hk : s.jobs[k]? = some job) (he : Effect.Ok page s.toWorld job e) : s.Stepped (s.act page k e) := by
  obtain ⟨hfollows, hpublished⟩ := s.follows_act h hk he
  have hmem := List.mem_of_getElem? hk
  -- The request of the job itself.
  have hrequest : s.Appends s.Allows (s.changed k e) := by
    refine ⟨_, rfl, fun x hx => ?_⟩
    obtain ⟨q, hq, rfl⟩ := List.mem_map.mp hx
    have hsent := Option.mem_toList.mp hq
    refine ⟨fun j hj hid hsends => ?_, fun id u hid hu => ?_⟩
    · have hsame : j.id = job.id := (Option.some.inj hid).symm.trans he.steps.id
      rw [eq_of_nodup_map (·.id) h.ids hj hmem hsame]
      exact he.steps.stopped q hsent hsends
    · have hcomplete : q = .complete u := hu
      rw [hcomplete] at hsent
      rcases he.steps.complete u hsent with hbefore | ⟨run, hrun, hcovered⟩
      · exact .inl hbefore
      · have hsame : job.id = id := he.steps.id.symm.trans (Option.some.inj hid)
        exact .inr ⟨job, hmem, hsame, run, hrun, hsame ▸ hcovered⟩
  refine .of_appends (P := s.Allows) ?_ (fun _ hx => hx) fun htold => ?_
  · obtain ⟨l, hl, hquiet⟩ := hfollows.appends
    exact hrequest.trans ⟨l, hl, fun x hx => (hquiet x hx).allows⟩
  · by_cases hpublishes : e.publishes = true
    · exact hpublished hpublishes
    · refine hfollows.told ?_
      obtain ⟨hstate, hpercent⟩ := he.told (eq_false_of_ne_true hpublishes)
      change s.snapshot.map (·.told) = (s.jobs.set k e.job).map fun job => job.item.told
      rw [map_set_eq (fun job : Job Hash => job.item.told) hk]
      · exact htold
      · change (e.job.id, e.job.state, e.job.item.percent) = (job.id, job.state, job.item.percent)
        rw [hstate, hpercent, he.steps.id]

/-- A publication and the pump come after a change of the jobs that sends nothing. -/
theorem State.stepped_pump [DecidableEq Hash] (h : Inv page s') (hexchanges : s'.exchanges = s.exchanges) :
    s.Stepped ((s'.publish page).pump page) := by
  have hpumped := (s'.publish page).follows_pump h.publish
  obtain ⟨l, hl, hquiet⟩ := hpumped.appends
  have happends : s.Appends Exchange.Quiet ((s'.publish page).pump page) :=
    ⟨l, hl.trans (congrArg (· ++ l) hexchanges), hquiet⟩
  exact .of_appends happends (fun _ he => he.allows) fun _ => hpumped.told s'.told_publish

theorem State.stepped_discovered (s : State Hash) (sessions : List (Session Hash)) :
    s.Stepped (s.discovered page sessions) := by
  have hfold : ∀ (sessions : List (Session Hash)) (s : State Hash),
      (sessions.foldl State.importSession s).exchanges = s.exchanges := by
    intro sessions
    induction sessions with
    | nil => exact fun _ => rfl
    | cons session sessions ih =>
      intro s
      rw [List.foldl_cons, ih]
      unfold State.importSession
      split_ifs <;> rfl
  unfold State.discovered
  dsimp only
  split_ifs
  · exact .of_length le_rfl fun ht => ht
  · refine .of_length ?_ fun _ => State.told_publish _
    change (sessions.foldl State.importSession { s with discovery := none }).exchanges.length ≤ _
    rw [hfold]

/-- **Every step.** -/
theorem stepped_next [DecidableEq Hash] {m : Move Hash} (h : Inv page s)
    (hnext : s.next page m = some s') : s.Stepped s' := by
  cases m with
  | tick n =>
    cases hnext
    exact .of_length le_rfl fun ht => ht
  | storable b =>
    cases hnext
    exact .of_length le_rfl fun ht => ht
  | enqueue files parentId start =>
    cases hnext
    unfold State.enqueue
    dsimp only
    split_ifs
    · exact .of_length le_rfl fun ht => ht
    · exact State.stepped_pump (h.added files parentId start) rfl
  | startAll =>
    cases hnext
    unfold State.startAll
    dsimp only
    split_ifs
    · exact .of_length le_rfl fun ht => ht
    · exact State.stepped_pump h.selected rfl
  | pause k =>
    obtain ⟨job, hk, rfl⟩ := Option.map_eq_some_iff.mp hnext
    exact s.stepped_act h hk (pause_ok h.world (h.jobs job (List.mem_of_getElem? hk)))
  | resume k =>
    obtain ⟨job, hk, rfl⟩ := Option.map_eq_some_iff.mp hnext
    exact s.stepped_act h hk (resume_ok h.world (h.jobs job (List.mem_of_getElem? hk)))
  | cancel k =>
    obtain ⟨job, hk, rfl⟩ := Option.map_eq_some_iff.mp hnext
    exact s.stepped_act h hk (cancel_ok h.world (h.jobs job (List.mem_of_getElem? hk)))
  | reselect k file =>
    obtain ⟨job, hk, rfl⟩ := Option.map_eq_some_iff.mp hnext
    exact s.stepped_act h hk (reselect_ok h.world (h.jobs job (List.mem_of_getElem? hk)) file)
  | discover =>
    cases hnext
    exact s.follows_discover.stepped
  | dispose =>
    cases hnext
    exact .of_length le_rfl fun _ => State.told_publish _
  | dismissCompleted =>
    cases hnext
    unfold State.dismissCompleted
    split_ifs
    · exact .of_length le_rfl fun _ => State.told_publish _
    · exact .of_length le_rfl fun ht => ht
  | reload =>
    cases hnext
    exact .of_length le_rfl fun _ => State.told_publish _
  | run k i input =>
    obtain ⟨job, hk, hnext⟩ := Option.bind_eq_some_iff.mp hnext
    obtain ⟨e, he, hnext⟩ := Option.bind_eq_some_iff.mp hnext
    split_ifs at hnext with hfair
    cases hnext
    exact s.stepped_act h hk
      (run_ok h.world (h.jobs job (List.mem_of_getElem? hk)) (fun _ _ => State.got) hfair he)
  | cancellation k i input =>
    obtain ⟨job, hk, hnext⟩ := Option.bind_eq_some_iff.mp hnext
    obtain ⟨e, he, hnext⟩ := Option.bind_eq_some_iff.mp hnext
    cases hnext
    exact s.stepped_act h hk
      (cancellation_ok h.world (h.jobs job (List.mem_of_getElem? hk)) (fun _ _ => State.got) he)
  | reselected k i readable =>
    obtain ⟨job, hk, hnext⟩ := Option.bind_eq_some_iff.mp hnext
    obtain ⟨e, he, hnext⟩ := Option.bind_eq_some_iff.mp hnext
    cases hnext
    exact s.stepped_act h hk (reselected_ok h.world (h.jobs job (List.mem_of_getElem? hk)) he)
  | discovered =>
    obtain ⟨k, -, hnext⟩ := Option.bind_eq_some_iff.mp hnext
    split at hnext
    · cases hnext
      exact s.stepped_discovered _
    · cases hnext
  | undiscovered =>
    obtain ⟨k, -, rfl⟩ := Option.map_eq_some_iff.mp hnext
    exact .of_length le_rfl fun ht => ht
  | serve k refusal =>
    obtain ⟨e, -, hnext⟩ := Option.bind_eq_some_iff.mp hnext
    obtain ⟨⟨server, r⟩, -, hnext⟩ := Option.bind_eq_some_iff.mp hnext
    dsimp only at hnext
    split at hnext
    · cases hnext
      exact .of_length List.length_set.le fun ht => ht
    · split_ifs at hnext
      cases hnext
      exact .of_length List.length_set.le fun ht => ht
    · cases hnext
  | refuse k refusal =>
    obtain ⟨e, -, rfl⟩ := Option.map_eq_some_iff.mp hnext
    exact .of_length List.length_set.le fun ht => ht
  | limits k limits =>
    obtain ⟨e, -, hnext⟩ := Option.bind_eq_some_iff.mp hnext
    split at hnext
    · cases hnext
      exact .of_length List.length_set.le fun ht => ht
    · cases hnext
  | sessions k uploadIds =>
    obtain ⟨e, -, hnext⟩ := Option.bind_eq_some_iff.mp hnext
    split at hnext
    · cases hnext
      exact .of_length List.length_set.le fun ht => ht
    · cases hnext
  | other request =>
    cases hnext
    refine .of_appends (P := fun e => e.job = none) ⟨_, rfl, fun e he => ?_⟩ (fun e he => ?_) fun ht => ht
    · rw [List.mem_singleton.mp he]
    · refine ⟨fun job _ hid => ?_, fun id u hid => ?_⟩
      · rw [he] at hid
        cases hid
      · rw [he] at hid
        cases hid
  | expire u =>
    obtain ⟨session, -, hnext⟩ := Option.bind_eq_some_iff.mp hnext
    split_ifs at hnext
    cases hnext
    exact .of_length le_rfl fun ht => ht

/-- What the listeners have been told is so in every state. -/
theorem Reached.told [DecidableEq Hash] {ok : Move Hash → State Hash → Bool} (h : Reached page ok s) : s.Told := by
  induction h with
  | start => rfl
  | step m hs _ hnext ih => exact (stepped_next hs.inv hnext).told ih

end Queue

end HomeCloud
