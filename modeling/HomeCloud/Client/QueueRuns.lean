import HomeCloud.Client.QueueServer

/-!
# What holds of the upload queue in every state

* `Asked`: the requests for new sessions; `Inv`: what holds in every state.
* `Inv.change`, `Inv.mono`, `Inv.publish`, `Inv.pump`, …: the parts of a step.
* **`Inv.next`**, **`Reached.inv`**: a step, and a run.
-/

namespace HomeCloud

namespace Queue

variable {Hash : Type} {page : Page Hash} {w : World Hash} {s : State Hash} {job job' : Job Hash}

/-! ## The invariant -/

/-- What holds of the requests for new sessions. Without a transport all but one of a job are refused; with
one they have the same key, and none comes later than the window allows. -/
structure Asked (page : Page Hash) (w : World Hash) (sequence : ℕ) : Prop where
  fresh : ∀ n k, w.Creation (.fresh n) k → n < sequence
  server : ∀ u k, ¬ w.Creation (.server u) k
  once : page.transport = false → ∀ id k k', w.Creation id k → w.Creation id k' →
    w.Refused k ∨ w.Refused k' ∨ k = k'
  keyed : page.transport = true → ∀ (id : JobId) (k k' : ℕ) e e' key key' body body',
    w.exchanges[k]? = some e → w.exchanges[k']? = some e' → e.job = some id → e'.job = some id →
    e.request = .create key body → e'.request = .create key' body' →
    key.isSome ∧ key' = key ∧ e'.time ≤ e.time + CREATE_WINDOW_MS

/-- What holds of what has been saved. -/
structure Saves (w : World Hash) (jobs : List (Job Hash)) (sequence : ℕ)
    (storage : List (SavedUpload Hash)) : Prop where
  ok : ∀ saved ∈ storage, saved.Ok w
  ids : (storage.map (·.id)).Nodup
  fresh : ∀ saved ∈ storage, ∀ n, saved.id = .fresh n → n < sequence
  jobs : ∀ saved ∈ storage, ∀ job ∈ jobs, job.id = saved.id → job.uploadId = some saved.uploadId

/-- What holds of the queue, the requests and the server in every state. -/
structure Inv (page : Page Hash) (s : State Hash) : Prop where
  world : WorldOk page s.toWorld
  jobs : ∀ job ∈ s.jobs, JobOk page s.toWorld job
  ids : (s.jobs.map (·.id)).Nodup
  fresh : ∀ job ∈ s.jobs, ∀ n, job.id = .fresh n → n < s.sequence
  asked : Asked page s.toWorld s.sequence
  saves : Saves s.toWorld s.jobs s.sequence s.storage
  active : s.active = (s.jobs.map (·.runs.length)).sum
  limit : s.active ≤ CONCURRENT_FILES
  discovery : page.transport = true → s.discovery = none

/-- The requests that have been sent for sessions stay what they are. -/
theorem Asked.mono {w' : World Hash} {sequence sequence' : ℕ} (hl : w.Later w')
    (hnew : ∀ id k, w'.Creation id k → w.Creation id k) (hsequence : sequence ≤ sequence')
    (h : Asked page w sequence) : Asked page w' sequence' := by
  refine ⟨fun n k hk => (h.fresh n k (hnew _ k hk)).trans_le hsequence,
    fun u k hk => h.server u k (hnew _ k hk), fun ho id k k' hk hk' => ?_,
    fun ht id k k' e e' key key' body body' he he' hjob hjob' hrequest hrequest' => ?_⟩
  · rcases h.once ho id k k' (hnew id k hk) (hnew id k' hk') with hr | hr | heq
    · exact .inl (hr.mono hl)
    · exact .inr (.inl (hr.mono hl))
    · exact .inr (.inr heq)
  · -- The requests are the ones from before.
    have hback : ∀ (k : ℕ) e key body, w'.exchanges[k]? = some e → e.job = some id →
        e.request = .create key body → ∃ e₀, w.exchanges[k]? = some e₀ ∧ e₀.job = some id ∧
          e₀.request = .create key body ∧ e₀.time = e.time := by
      intro k e key body he hjob hrequest
      obtain ⟨key₀, body₀, e₀, he₀, hjob₀, hrequest₀⟩ := hnew id k ⟨key, body, e, he, hjob, hrequest⟩
      obtain ⟨e₁, he₁, -, hrequest₁, htime₁, -⟩ := hl.exchange k e₀ he₀
      cases he.symm.trans he₁
      exact ⟨e₀, he₀, hjob₀, hrequest₁.symm.trans hrequest, htime₁.symm⟩
    obtain ⟨e₀, he₀, hjob₀, hrequest₀, htime₀⟩ := hback k e key body he hjob hrequest
    obtain ⟨e₁, he₁, hjob₁, hrequest₁, htime₁⟩ := hback k' e' key' body' he' hjob' hrequest'
    have hkeyed := h.keyed ht id k k' e₀ e₁ key key' body body' he₀ he₁ hjob₀ hjob₁ hrequest₀ hrequest₁
    rwa [htime₀, htime₁] at hkeyed

/-- **A job sends a request.** -/
theorem Asked.sent {sequence : ℕ} {request : Option (Request Hash)} (h : Asked page w sequence)
    (hjob : JobOk page w job) (hfresh : ∀ n, job.id = .fresh n → n < sequence)
    (hsteps : Steps page w job job' request) : Asked page (w.sent job.id request) sequence := by
  have hlater := World.Later.sent w job.id request
  -- A request for a session is one from before, or the one that is sent by a job that has none.
  have hsplit : ∀ id k, (w.sent job.id request).Creation id k →
      w.Creation id k ∨ id = job.id ∧ k = w.exchanges.length ∧ Unmade page w job := by
    rintro id k ⟨key, body, e, he, hid, hrequest⟩
    rcases World.getElem?_sent he with hbefore | ⟨hk, q, hq, rfl⟩
    · exact .inl ⟨key, body, e, hbefore, hid, hrequest⟩
    · refine .inr ⟨(Option.some.inj hid).symm, hk, hsteps.made q hq ?_⟩
      change q = .create key body at hrequest
      rw [hrequest]
      rfl
  refine ⟨fun n k hk => ?_, fun u k hk => ?_, fun ho id k k' hk hk' => ?_,
    fun ht id k k' e e' key key' body body' he he' hid hid' hrequest hrequest' => ?_⟩
  · rcases hsplit _ k hk with hbefore | ⟨hid, -, -⟩
    · exact h.fresh n k hbefore
    · exact hfresh n hid.symm
  · rcases hsplit _ k hk with hbefore | ⟨hid, -, hunmade⟩
    · exact h.server u k hbefore
    · exact absurd (hunmade.uploadId.symm.trans (hjob.id u hid.symm)) nofun
  · rcases hsplit id k hk with hbefore | ⟨rfl, hlast, hunmade⟩ <;>
      rcases hsplit _ k' hk' with hbefore' | ⟨hid', hlast', hunmade'⟩
    · rcases h.once ho id k k' hbefore hbefore' with hr | hr | heq
      · exact .inl (hr.mono hlater)
      · exact .inr (.inl (hr.mono hlater))
      · exact .inr (.inr heq)
    · exact .inl ((hunmade'.refused ho k (hid' ▸ hbefore)).mono hlater)
    · exact .inr (.inl ((hunmade.refused ho k' hbefore').mono hlater))
    · exact .inr (.inr (hlast.trans hlast'.symm))
  · by_cases heq : id = job.id
    · subst heq
      have hmade := hsteps.ok.made
      rw [hsteps.id] at hmade
      have hkey := hmade.keys ht k key body ⟨e, he, hid, hrequest⟩
      have hkey' := hmade.keys ht k' key' body' ⟨e', he', hid', hrequest'⟩
      obtain ⟨d, hd, -, hle⟩ := hmade.window ht k e he hid (by rw [hrequest]; rfl)
      obtain ⟨d', hd', hlt', -⟩ := hmade.window ht k' e' he' hid' (by rw [hrequest']; rfl)
      cases hd.symm.trans hd'
      exact ⟨hkey ▸ hmade.key ht, hkey'.trans hkey.symm, hlt'.le.trans hle⟩
    · rcases World.getElem?_sent he with hbefore | ⟨-, q, -, rfl⟩
      · rcases World.getElem?_sent he' with hbefore' | ⟨-, q, -, rfl⟩
        · exact h.keyed ht id k k' e e' key key' body body' hbefore hbefore' hid hid' hrequest hrequest'
        · exact absurd (Option.some.inj hid').symm heq
      · exact absurd (Option.some.inj hid).symm heq

/-! ## Lists of jobs -/

section Lists

variable {α : Type} {l : List α} {k : ℕ} {a b : α}

theorem sum_map_set (f : α → ℕ) (h : l[k]? = some a) :
    ((l.set k b).map f).sum + f a = (l.map f).sum + f b := by
  induction l generalizing k with
  | nil => cases h
  | cons c l ih =>
    cases k with
    | zero =>
      cases h
      rw [List.set_cons_zero, List.map_cons, List.sum_cons, List.map_cons, List.sum_cons]
      omega
    | succ k =>
      have hrest := ih (k := k) h
      rw [List.set_cons_succ, List.map_cons, List.sum_cons, List.map_cons, List.sum_cons]
      omega

/-- What the elements are told apart by stays. -/
theorem map_set_eq {β : Type} (f : α → β) (h : l[k]? = some a) (hf : f b = f a) :
    (l.set k b).map f = l.map f := by
  rw [List.map_set, hf]
  refine List.ext_getElem? fun i => ?_
  rw [List.getElem?_set]
  split_ifs with hi hlt
  · subst hi
    rw [List.getElem?_map, h]
    rfl
  · subst hi
    rw [List.getElem?_eq_none (not_lt.mp hlt)]
  · rfl

/-- An element of the changed list is the new one, or another one from before. -/
theorem mem_set {β : Type} (f : α → β) (hnodup : (l.map f).Nodup) (h : l[k]? = some a) {c : α}
    (hc : c ∈ l.set k b) : c = b ∨ c ∈ l ∧ f c ≠ f a := by
  obtain ⟨i, hi⟩ := List.mem_iff_getElem?.mp hc
  rw [List.getElem?_set] at hi
  split_ifs at hi with heq hlt
  · exact .inl (Option.some.inj hi).symm
  · refine .inr ⟨List.mem_of_getElem? hi, fun hsame => heq ?_⟩
    have hk : (l.map f)[k]? = some (f a) := by rw [List.getElem?_map, h]; rfl
    have hi' : (l.map f)[i]? = some (f a) := by rw [List.getElem?_map, hi, ← hsame]; rfl
    exact (List.getElem?_inj (List.getElem?_eq_some_iff.mp hk).1 hnodup).mp (hk.trans hi'.symm)

/-- Two elements with one mark are one. -/
theorem eq_of_nodup_map {β : Type} (f : α → β) (hnodup : (l.map f).Nodup) (ha : a ∈ l) (hb : b ∈ l)
    (hf : f a = f b) : a = b :=
  List.inj_on_of_nodup_map hnodup ha hb hf

end Lists

/-! ## The parts of a step -/

/-- What has been saved stays true. -/
theorem Saves.mono {w' : World Hash} {jobs : List (Job Hash)} {sequence sequence' : ℕ}
    {storage : List (SavedUpload Hash)} (hl : w.Later w')
    (hnew : ∀ saved ∈ storage, ∀ k, w'.Creation saved.id k → w.Creation saved.id k)
    (hsequence : sequence ≤ sequence') (h : Saves w jobs sequence storage) :
    Saves w' jobs sequence' storage :=
  { h with
    ok := fun saved hs => (h.ok saved hs).mono hl (hnew saved hs)
    fresh := fun saved hs n hn => (h.fresh saved hs n hn).trans_le hsequence }

namespace Inv

/-- **The network, the server or the time gets on.** -/
theorem mono {w' : World Hash} (h : Inv page s) (hw : s.toWorld.Changes page w') :
    Inv page { s with toWorld := w' } :=
  { h with
    world := hw.ok
    jobs := fun job hjob => (h.jobs job hjob).mono hw.later (hw.creation job.id)
    asked := h.asked.mono hw.later hw.creation le_rfl
    saves := h.saves.mono hw.later (fun saved _ => hw.creation saved.id) le_rfl }

/-- **Something happens to a job.** -/
theorem change {k active : ℕ} {request : Option (Request Hash)} (h : Inv page s)
    (hk : s.jobs[k]? = some job) (hsteps : Steps page s.toWorld job job' request)
    (hactive : active + job.runs.length = s.active + job'.runs.length)
    (hlimit : active ≤ CONCURRENT_FILES) :
    Inv page { s with
      jobs := s.jobs.set k job'
      active
      exchanges := s.exchanges ++
        request.toList.map fun request => ⟨some job'.id, request, s.now, none⟩ } := by
  have hmem := List.mem_of_getElem? hk
  have hid := hsteps.id
  have hlater := World.Later.sent s.toWorld job.id request
  have hworld : (⟨s.exchanges ++ request.toList.map fun request => ⟨some job'.id, request, s.now, none⟩,
      s.server, s.now⟩ : World Hash) = s.toWorld.sent job.id request := by
    rw [hid]
    rfl
  -- Only a job that has no session asks for one.
  have hnew : ∀ id k, (id ≠ job.id ∨ job.uploadId.isSome) →
      (s.toWorld.sent job.id request).Creation id k → s.toWorld.Creation id k := by
    intro id k hor hcreation
    refine hcreation.of_sent (hor.imp_right fun hsome q hq => eq_false_of_ne_true fun hcreate => ?_)
    rw [(hsteps.made q hq hcreate).uploadId] at hsome
    cases hsome
  have hmap : (s.jobs.set k job').map (·.id) = s.jobs.map (·.id) := map_set_eq _ hk hid
  refine ⟨?_, fun j hj => ?_, ?_, fun j hj n hn => ?_, ?_, ?_, ?_, hlimit, h.discovery⟩
  · change WorldOk page ⟨_, s.server, s.now⟩
    rw [hworld]
    exact h.world.sent job.id request
  · change JobOk page ⟨_, s.server, s.now⟩ j
    rw [hworld]
    rcases mem_set (·.id) h.ids hk hj with rfl | ⟨hold, hne⟩
    · exact hsteps.ok
    · exact (h.jobs j hold).mono hlater fun k => hnew j.id k (.inl hne)
  · rw [hmap]
    exact h.ids
  · rcases mem_set (·.id) h.ids hk hj with rfl | ⟨hold, -⟩
    · exact h.fresh job hmem n (hid.symm.trans hn)
    · exact h.fresh j hold n hn
  · change Asked page ⟨_, s.server, s.now⟩ s.sequence
    rw [hworld]
    exact h.asked.sent (h.jobs job hmem) (h.fresh job hmem) hsteps
  · change Saves ⟨_, s.server, s.now⟩ (s.jobs.set k job') s.sequence s.storage
    rw [hworld]
    have hsome : ∀ saved ∈ s.storage, saved.id ≠ job.id ∨ job.uploadId.isSome := by
      intro saved hs
      by_cases heq : saved.id = job.id
      · refine .inr ?_
        rw [h.saves.jobs saved hs job hmem heq.symm]
        rfl
      · exact .inl heq
    have hsaves : Saves (s.toWorld.sent job.id request) s.jobs s.sequence s.storage :=
      h.saves.mono hlater (fun saved hs k => hnew saved.id k (hsome saved hs)) le_rfl
    refine { hsaves with jobs := fun saved hs j hj heq => ?_ }
    rcases mem_set (·.id) h.ids hk hj with rfl | ⟨hold, -⟩
    · exact hsteps.kept _ (h.saves.jobs saved hs job hmem (hid.symm.trans heq))
    · exact h.saves.jobs saved hs j hold heq
  · have hsum := sum_map_set (b := job') (·.runs.length) hk
    have hold := h.active
    change active = ((s.jobs.set k job').map (·.runs.length)).sum
    omega

/-- The jobs change without a request. -/
theorem map {f : Job Hash → Job Hash} (h : Inv page s)
    (hok : ∀ job, JobOk page s.toWorld job → JobOk page s.toWorld (f job))
    (hid : ∀ job, (f job).id = job.id) (hupload : ∀ job, (f job).uploadId = job.uploadId)
    (hruns : ∀ job, (f job).runs = job.runs) : Inv page { s with jobs := s.jobs.map f } := by
  have hmap : (s.jobs.map f).map (·.id) = s.jobs.map (·.id) := by
    rw [List.map_map]
    exact List.map_congr_left fun job _ => hid job
  refine { h with jobs := fun j hj => ?_, ids := ?_, fresh := fun j hj n hn => ?_, saves := ?_, active := ?_ }
  · obtain ⟨job, hjob, rfl⟩ := List.mem_map.mp hj
    exact hok job (h.jobs job hjob)
  · change ((s.jobs.map f).map (·.id)).Nodup
    rw [hmap]
    exact h.ids
  · obtain ⟨job, hjob, rfl⟩ := List.mem_map.mp hj
    exact h.fresh job hjob n ((hid job).symm.trans hn)
  · refine { h.saves with jobs := fun saved hs j hj heq => ?_ }
    obtain ⟨job, hjob, rfl⟩ := List.mem_map.mp hj
    exact (hupload job).trans (h.saves.jobs saved hs job hjob ((hid job).symm.trans heq))
  · change s.active = ((s.jobs.map f).map (·.runs.length)).sum
    rw [h.active, List.map_map]
    exact congrArg List.sum (List.map_congr_left fun job _ => congrArg List.length (hruns job).symm)

/-- What is saved of the jobs. -/
theorem saves_jobs (h : Inv page s) (hpage : page.transport = false) :
    Saves s.toWorld s.jobs s.sequence (s.jobs.filterMap Job.saved) := by
  have hsaved : ∀ saved ∈ s.jobs.filterMap Job.saved, ∃ job ∈ s.jobs, saved.Ok s.toWorld ∧
      saved.id = job.id ∧ job.uploadId = some saved.uploadId := by
    intro saved hs
    obtain ⟨job, hjob, heq⟩ := List.mem_filterMap.mp hs
    exact ⟨job, hjob, (h.jobs job hjob).saved hpage heq⟩
  refine ⟨fun saved hs => ?_, ?_, fun saved hs n hn => ?_, fun saved hs job hjob heq => ?_⟩
  · obtain ⟨job, -, hok, -⟩ := hsaved saved hs
    exact hok
  · -- The identifiers are some of those of the jobs.
    have hsub : ((s.jobs.filterMap Job.saved).map (·.id)).Sublist (s.jobs.map (·.id)) := by
      have hall : ∀ job ∈ s.jobs, ∀ saved, job.saved = some saved → saved.id = job.id := fun job hjob saved heq =>
        ((h.jobs job hjob).saved hpage heq).2.1
      generalize s.jobs = jobs at hall
      induction jobs with
      | nil => exact List.Sublist.refl _
      | cons job jobs ih =>
        have hrest := ih fun j hj => hall j (List.mem_cons_of_mem _ hj)
        rw [List.map_cons]
        cases heq : job.saved with
        | none =>
          rw [List.filterMap_cons_none heq]
          exact hrest.cons _
        | some saved =>
          rw [List.filterMap_cons_some heq, List.map_cons, hall job List.mem_cons_self saved heq]
          exact hrest.cons_cons _
    exact hsub.nodup h.ids
  · obtain ⟨job, hjob, -, hid, -⟩ := hsaved saved hs
    exact h.fresh job hjob n (hid.symm.trans hn)
  · obtain ⟨job', hjob', -, hid, hupload⟩ := hsaved saved hs
    rw [eq_of_nodup_map (·.id) h.ids hjob hjob' (heq.trans hid)]
    exact hupload

/-- **A publication.** -/
theorem publish [DecidableEq Hash] (h : Inv page s) : Inv page (s.publish page) := by
  unfold State.publish
  refine { h with saves := ?_ }
  change Saves s.toWorld s.jobs s.sequence (if s.storable && !page.transport then _ else _)
  split_ifs with hsaves
  · rw [Bool.and_eq_true, Bool.not_eq_true'] at hsaves
    exact h.saves_jobs hsaves.2
  · exact h.saves

/-- **A discovery.** -/
theorem discover (h : Inv page s) : Inv page (s.discover page) := by
  unfold State.discover
  dsimp only
  split_ifs with hpage
  · exact h
  · exact { h with }
  · have hother := h.mono (h.world.other .sessions)
    exact { hother with discovery := fun ht => absurd ht hpage }

variable [DecidableEq Hash]

omit [DecidableEq Hash] in
/-- **What the pump does with a job**: nothing, or its run starts and asks for the details, if for
anything. -/
theorem pumpAt_eq (h : Inv page s) (hdisposed : s.disposed = false) (k : ℕ) :
    s.pumpAt page k = s ∨ ∃ job job' request, s.jobs[k]? = some job ∧ job'.state = .preparing ∧
      job'.runs.length = job.runs.length + 1 ∧ s.active < CONCURRENT_FILES ∧
      (request = none ∨ ∃ u, request = some (.detail u)) ∧ Steps page s.toWorld job job' request ∧
      s.pumpAt page k = { s with
        jobs := s.jobs.set k job'
        active := s.active + 1
        exchanges := s.exchanges ++
          request.toList.map fun request => ⟨some job'.id, request, s.now, none⟩ } := by
  unfold State.pumpAt
  split
  · rename_i job file hstartable
    unfold State.startable at hstartable
    obtain ⟨job', hk, hstartable⟩ := Option.bind_eq_some_iff.mp hstartable
    obtain ⟨file', hfile, hstartable⟩ := Option.bind_eq_some_iff.mp hstartable
    split_ifs at hstartable with hcan
    cases hstartable
    simp only [Bool.and_eq_true, decide_eq_true_eq] at hcan
    obtain ⟨⟨hlimit, hqueued⟩, -⟩ := hcan
    obtain ⟨phase, request, hbegin, -, hrequest, hsteps⟩ :=
      start_ok h.world (h.jobs job (List.mem_of_getElem? hk)) hqueued hfile
    have hcontext : s.context page = s.toWorld.context page false := by
      unfold State.context World.context
      rw [hdisposed]
    refine .inr ⟨job, _, request, hk, rfl, List.length_append, hlimit, hrequest, hsteps, ?_⟩
    unfold State.start
    rw [hcontext]
    dsimp only
    rw [hbegin]
    rfl
  · exact .inl rfl

omit [DecidableEq Hash] in
/-- **The pump starts a job.** -/
theorem pumpAt (h : Inv page s) (hdisposed : s.disposed = false) (k : ℕ) :
    Inv page (s.pumpAt page k) ∧ (s.pumpAt page k).disposed = false := by
  rcases h.pumpAt_eq hdisposed k with heq | ⟨job, job', request, hk, -, hruns, hlimit, -, hsteps, heq⟩
  · rw [heq]
    exact ⟨h, hdisposed⟩
  · rw [heq]
    refine ⟨h.change hk hsteps ?_ hlimit, hdisposed⟩
    rw [hruns]
    omega

/-- **The pump.** -/
theorem pump (h : Inv page s) : Inv page (s.pump page) := by
  unfold State.pump
  split_ifs with hdisposed
  · exact h
  · have hfold : ∀ (positions : List ℕ) (s : State Hash), Inv page s → s.disposed = false →
        Inv page (positions.foldl (fun s k => s.pumpAt page k) s) := by
      intro positions
      induction positions with
      | nil => exact fun s h _ => h
      | cons k positions ih =>
        intro s h hdisposed
        obtain ⟨hpumped, hlive⟩ := h.pumpAt hdisposed k
        exact ih _ hpumped hlive
    exact (hfold _ s h (eq_false_of_ne_true hdisposed)).publish

end Inv

/-- Something happens to the job at the position `k`, and nothing follows yet. -/
def State.changed (s : State Hash) (k : ℕ) (e : Effect Hash) : State Hash :=
  { s with
    jobs := s.jobs.set k e.job
    active := if e.ended then s.active - 1 else s.active
    exchanges := s.exchanges ++
      e.request.toList.map fun request => ⟨some e.job.id, request, s.now, none⟩ }

namespace Inv

variable [DecidableEq Hash]

omit [DecidableEq Hash] in
/-- **Something happens to a job.** -/
theorem changed {k : ℕ} {e : Effect Hash} (h : Inv page s) (hk : s.jobs[k]? = some job)
    (he : Effect.Ok page s.toWorld job e) : Inv page (s.changed k e) := by
  have hsum : job.runs.length ≤ s.active := by
    rw [h.active]
    exact List.single_le_sum (fun _ _ => Nat.zero_le _) _
      (List.mem_map.mpr ⟨job, List.mem_of_getElem? hk, rfl⟩)
  have hruns := he.runs
  have hlimit := h.limit
  have hactive : (if e.ended then s.active - 1 else s.active) + job.runs.length =
      s.active + e.job.runs.length := by
    split_ifs at hruns ⊢ <;> omega
  exact h.change hk he.steps hactive (by split_ifs <;> omega)

/-- **Something happens to a job, and what follows.** -/
theorem act {k : ℕ} {e : Effect Hash} (h : Inv page s) (hk : s.jobs[k]? = some job)
    (he : Effect.Ok page s.toWorld job e) : Inv page (s.act page k e) := by
  have hdiscover : ∀ s : State Hash, Inv page s → Inv page (if e.discovers then s.discover page else s) := by
    intro s h
    split_ifs
    · exact h.discover
    · exact h
  have hpublish : ∀ s : State Hash, Inv page s → Inv page (if e.publishes then s.publish page else s) := by
    intro s h
    split_ifs
    · exact h.publish
    · exact h
  have hpump : ∀ s : State Hash, Inv page s → Inv page (if e.pumps then s.pump page else s) := by
    intro s h
    split_ifs
    · exact h.pump
    · exact h
  exact hpump _ (hpublish _ (hdiscover _ (h.changed hk he)))

omit [DecidableEq Hash] in
/-- Files are added, and nothing follows yet. -/
theorem added (h : Inv page s) (files : List LocalFile) (parentId : Option ℕ) (start : Bool) :
    Inv page { s with
      jobs := s.jobs ++ files.mapIdx fun n file => newJob page parentId start (s.sequence + n) file
      sequence := s.sequence + files.length } := by
  -- The new jobs have identifiers of their own.
  have hnew : ∀ job ∈ files.mapIdx fun n file => newJob page parentId start (s.sequence + n) file,
      ∃ n file, n < files.length ∧ job = newJob page parentId start (s.sequence + n) file := by
    intro job hjob
    obtain ⟨n, hn, rfl⟩ := List.mem_mapIdx.mp hjob
    exact ⟨n, files[n], hn, rfl⟩
  have hids : (files.mapIdx fun n file => (newJob page parentId start (s.sequence + n) file : Job Hash)).map (·.id) =
      (List.range files.length).map fun n => .fresh (s.sequence + n) := by
    refine List.ext_getElem (by simp) fun n _ _ => ?_
    simp [newJob, Job.idle]
  refine { h with
    jobs := fun job hjob => ?_
    ids := ?_
    fresh := fun job hjob n hn => ?_
    asked := h.asked.mono (.refl _) (fun _ _ hk => hk) (Nat.le_add_right _ _)
    saves := ?_
    active := ?_ }
  · rcases List.mem_append.mp hjob with hold | hadd
    · exact h.jobs job hold
    · obtain ⟨n, file, -, rfl⟩ := hnew job hadd
      refine newJob_ok _ parentId start _ file fun k hk => ?_
      have hlt := h.asked.fresh _ k hk
      omega
  · rw [List.map_append, hids]
    refine h.ids.append ?_ fun id hold hadd => ?_
    · refine List.nodup_range.map fun n m heq => ?_
      have hsame := JobId.fresh.inj heq
      omega
    · obtain ⟨job, hjob, rfl⟩ := List.mem_map.mp hold
      obtain ⟨n, -, heq⟩ := List.mem_map.mp hadd
      have hlt := h.fresh job hjob (s.sequence + n) heq.symm
      omega
  · rcases List.mem_append.mp hjob with hold | hadd
    · exact (h.fresh job hold n hn).trans_le (Nat.le_add_right _ _)
    · obtain ⟨m, file, hlt, rfl⟩ := hnew job hadd
      have heq : s.sequence + m = n := JobId.fresh.inj hn
      change n < s.sequence + files.length
      omega
  · have hsaves := h.saves.mono (.refl _) (fun _ _ _ hk => hk) (Nat.le_add_right s.sequence files.length)
    refine { hsaves with jobs := fun saved hs job hjob heq => ?_ }
    rcases List.mem_append.mp hjob with hold | hadd
    · exact h.saves.jobs saved hs job hold heq
    · obtain ⟨m, file, -, rfl⟩ := hnew job hadd
      have hlt := h.saves.fresh saved hs (s.sequence + m) heq.symm
      omega
  · change s.active = _
    rw [List.map_append, List.sum_append, h.active]
    have hzero : ((files.mapIdx fun n file => newJob page parentId start (s.sequence + n) file).map
        fun job : Job Hash => job.runs.length).sum = 0 := by
      rw [List.sum_eq_zero_iff]
      intro x hx
      obtain ⟨job, hjob, rfl⟩ := List.mem_map.mp hx
      obtain ⟨m, file, -, rfl⟩ := hnew job hjob
      rfl
    rw [hzero, Nat.add_zero]

/-- **Files are added.** -/
theorem enqueue (h : Inv page s) (files : List LocalFile) (parentId : Option ℕ) (start : Bool) :
    Inv page (s.enqueue page files parentId start) := by
  unfold State.enqueue
  dsimp only
  split_ifs
  · exact h
  · exact (h.added files parentId start).publish.pump

omit [DecidableEq Hash] in
/-- The jobs that wait for the user wait for the pump. -/
theorem selected (h : Inv page s) : Inv page { s with jobs := s.jobs.map Job.select } := by
  refine h.map (fun _ hjob => hjob.select) (fun job => ?_) (fun job => ?_) fun job => ?_
  all_goals
    unfold Job.select
    split_ifs <;> rfl

/-- **All jobs are started.** -/
theorem startAll (h : Inv page s) : Inv page (s.startAll page) := by
  unfold State.startAll
  dsimp only
  split_ifs
  · exact h
  · exact h.selected.publish.pump

/-- **The queue is disposed.** -/
theorem dispose (h : Inv page s) : Inv page (s.dispose page) := by
  have hdisposed : Inv page { s with disposed := true, jobs := s.jobs.map Job.dispose } := by
    have hmap : Inv page { s with jobs := s.jobs.map Job.dispose } := by
      refine h.map (fun _ hjob => hjob.dispose) (fun job => ?_) (fun job => ?_) fun job => ?_
      all_goals
        unfold Job.dispose
        split <;> rfl
    exact { hmap with }
  exact hdisposed.publish

/-- **The jobs that are completed are dismissed.** -/
theorem dismissCompleted (h : Inv page s) : Inv page (s.dismissCompleted page) := by
  unfold State.dismissCompleted
  split_ifs with hall
  · have hempty : Inv page { s with jobs := [] } := by
      refine { h with
        jobs := fun job hjob => absurd hjob List.not_mem_nil
        ids := List.nodup_nil
        fresh := fun job hjob => absurd hjob List.not_mem_nil
        saves := { h.saves with jobs := fun _ _ job hjob => absurd hjob List.not_mem_nil }
        active := ?_ }
      -- A job that is completed has no run.
      rw [h.active]
      refine List.sum_eq_zero_iff.mpr fun x hx => ?_
      obtain ⟨job, hjob, rfl⟩ := List.mem_map.mp hx
      have hstate := of_decide_eq_true (List.all_eq_true.mp hall job hjob)
      have hflags := (h.jobs job hjob).flags
      have hbusy := (hflags.terminal (by rw [hstate]; rfl)).1
      have hlength := hflags.runs
      rwa [hbusy, if_neg Bool.false_ne_true] at hlength
    exact hempty.publish
  · exact h

/-- **The page is loaded again.** -/
theorem reload (h : Inv page s) : Inv page (s.reload page) := by
  have hjobs : Inv page { s with
      jobs := if page.transport then [] else (s.storage.filter validSaved).map restoredJob
      active := 0
      disposed := false
      discovery := none } := by
    by_cases hpage : page.transport = true
    · rw [if_pos hpage]
      exact
        { h with
          jobs := fun job hjob => absurd hjob List.not_mem_nil
          ids := List.nodup_nil
          fresh := fun job hjob => absurd hjob List.not_mem_nil
          saves := { h.saves with jobs := fun _ _ job hjob => absurd hjob List.not_mem_nil }
          active := rfl
          limit := Nat.zero_le _
          discovery := fun _ => rfl }
    · rw [if_neg hpage]
      have hpage := eq_false_of_ne_true hpage
      have hmem : ∀ job ∈ (s.storage.filter validSaved).map restoredJob,
          ∃ saved ∈ s.storage, job = restoredJob saved := by
        intro job hjob
        obtain ⟨saved, hs, rfl⟩ := List.mem_map.mp hjob
        exact ⟨saved, (List.mem_filter.mp hs).1, rfl⟩
      have hids : ((s.storage.filter validSaved).map restoredJob).map (fun job : Job Hash => job.id) =
          (s.storage.filter validSaved).map (·.id) := by
        rw [List.map_map]
        rfl
      refine { h with
        jobs := fun job hjob => ?_
        ids := ?_
        fresh := fun job hjob n hn => ?_
        saves := { h.saves with jobs := fun saved hs job hjob heq => ?_ }
        active := ?_
        limit := Nat.zero_le _
        discovery := fun _ => rfl }
      · obtain ⟨saved, hs, rfl⟩ := hmem job hjob
        exact (h.saves.ok saved hs).restored hpage
      · rw [hids]
        exact (List.filter_sublist.map _).nodup h.saves.ids
      · obtain ⟨saved, hs, rfl⟩ := hmem job hjob
        exact h.saves.fresh saved hs n hn
      · obtain ⟨saved', hs', rfl⟩ := hmem job hjob
        rw [eq_of_nodup_map (·.id) h.saves.ids hs hs' heq.symm]
        rfl
      · refine (List.sum_eq_zero_iff.mpr fun x hx => ?_).symm
        obtain ⟨job, hjob, rfl⟩ := List.mem_map.mp hx
        obtain ⟨saved, -, rfl⟩ := hmem job hjob
        rfl
  exact hjobs.publish

omit [DecidableEq Hash] in
/-- **A session is imported.** -/
theorem importSession (h : Inv page s) (hpage : page.transport = false) (session : Session Hash) :
    Inv page (s.importSession session) := by
  unfold State.importSession
  split_ifs with himport
  · rw [Bool.and_eq_true, Bool.not_eq_true', List.any_eq_false] at himport
    obtain ⟨hvalid, hunknown⟩ := himport
    have hother : ∀ job ∈ s.jobs, job.id ≠ .server session.uploadId := fun job hjob hid =>
      hunknown job hjob (decide_eq_true ((h.jobs job hjob).id _ hid))
    have hok : JobOk page s.toWorld { restoredJob ⟨.server session.uploadId, session.filename,
        session.totalSize, session.parentId, session.uploadId, session.uploadedSize, none, none, none,
        false⟩ with session := some session } := by
      have hsaved : SavedUpload.Ok s.toWorld ⟨.server session.uploadId, session.filename,
          session.totalSize, session.parentId, session.uploadId, session.uploadedSize, none, none, none,
          false⟩ :=
        ⟨(validSession_laidOut hvalid).2, fun k hk => (h.asked.server _ k hk).elim,
          fun u hu => JobId.server.inj hu⟩
      have hrestored := hsaved.restored hpage
      exact
        { hrestored with
          flags := { hrestored.flags with }
          run := List.forall_mem_nil _
          cancellation := List.forall_mem_nil _ }
    refine { h with
      jobs := fun job hjob => ?_
      ids := ?_
      fresh := fun job hjob n hn => ?_
      saves := { h.saves with jobs := fun saved hs job hjob heq => ?_ }
      active := ?_ }
    · rcases List.mem_append.mp hjob with hold | hadd
      · exact h.jobs job hold
      · rw [List.mem_singleton.mp hadd]
        exact hok
    · rw [List.map_append]
      refine h.ids.append (List.nodup_singleton _) fun id hold hadd => ?_
      obtain ⟨job, hjob, rfl⟩ := List.mem_map.mp hold
      exact hother job hjob (List.mem_singleton.mp hadd)
    · rcases List.mem_append.mp hjob with hold | hadd
      · exact h.fresh job hold n hn
      · rw [List.mem_singleton.mp hadd] at hn
        cases hn
    · rcases List.mem_append.mp hjob with hold | hadd
      · exact h.saves.jobs saved hs job hold heq
      · rw [List.mem_singleton.mp hadd] at heq ⊢
        exact congrArg some ((h.saves.ok saved hs).id _ heq.symm).symm
    · change s.active = _
      rw [List.map_append, List.sum_append, h.active]
      rfl
  · exact h

/-- **The discovery is answered.** -/
theorem discovered (h : Inv page s) (hpage : page.transport = false) (sessions : List (Session Hash)) :
    Inv page (s.discovered page sessions) := by
  have hnone : Inv page { s with discovery := none } := { h with discovery := fun _ => rfl }
  have hfold : ∀ (sessions : List (Session Hash)) (s : State Hash), Inv page s →
      Inv page (sessions.foldl State.importSession s) := by
    intro sessions
    induction sessions with
    | nil => exact fun s h => h
    | cons session sessions ih => exact fun s h => ih _ (h.importSession hpage session)
  unfold State.discovered
  dsimp only
  split_ifs
  · exact hnone
  · exact (hfold sessions _ hnone).publish

end Inv

/-! ## Steps and runs -/

section Runs

variable [DecidableEq Hash]

omit [DecidableEq Hash] in
/-- What a job sees of the answers has come in. -/
theorem State.got {k : ℕ} {r : Response Hash} (h : s.response k = some r) : s.toWorld.Got k r := by
  obtain ⟨e, he, hr⟩ := Option.bind_eq_some_iff.mp h
  exact ⟨e, he, hr⟩

omit [DecidableEq Hash] in
/-- A request that waits for the server. -/
theorem State.pending_eq {k : ℕ} {e : Exchange Hash} (h : s.pending k = some e) :
    s.exchanges[k]? = some e ∧ e.response = none := by
  obtain ⟨he, hnone⟩ := Option.filter_eq_some_iff.mp h
  exact ⟨he, Option.isNone_iff_eq_none.mp hnone⟩

/-- **What holds is kept by every step.** -/
theorem Inv.next {s' : State Hash} {m : Move Hash} (h : Inv page s) (hnext : s.next page m = some s') :
    Inv page s' := by
  cases m with
  | tick n =>
    cases hnext
    exact h.mono (h.world.tick n)
  | storable b =>
    cases hnext
    exact { h with }
  | enqueue files parentId start =>
    cases hnext
    exact h.enqueue files parentId start
  | startAll =>
    cases hnext
    exact h.startAll
  | pause k =>
    obtain ⟨job, hk, rfl⟩ := Option.map_eq_some_iff.mp hnext
    exact h.act hk (pause_ok h.world (h.jobs job (List.mem_of_getElem? hk)))
  | resume k =>
    obtain ⟨job, hk, rfl⟩ := Option.map_eq_some_iff.mp hnext
    exact h.act hk (resume_ok h.world (h.jobs job (List.mem_of_getElem? hk)))
  | cancel k =>
    obtain ⟨job, hk, rfl⟩ := Option.map_eq_some_iff.mp hnext
    exact h.act hk (cancel_ok h.world (h.jobs job (List.mem_of_getElem? hk)))
  | reselect k file =>
    obtain ⟨job, hk, rfl⟩ := Option.map_eq_some_iff.mp hnext
    exact h.act hk (reselect_ok h.world (h.jobs job (List.mem_of_getElem? hk)) file)
  | discover =>
    cases hnext
    exact h.discover
  | dispose =>
    cases hnext
    exact h.dispose
  | dismissCompleted =>
    cases hnext
    exact h.dismissCompleted
  | reload =>
    cases hnext
    exact h.reload
  | run k i input =>
    obtain ⟨job, hk, hnext⟩ := Option.bind_eq_some_iff.mp hnext
    obtain ⟨e, he, hnext⟩ := Option.bind_eq_some_iff.mp hnext
    split_ifs at hnext with hfair
    cases hnext
    exact h.act hk (run_ok h.world (h.jobs job (List.mem_of_getElem? hk)) (fun _ _ => State.got) hfair he)
  | cancellation k i input =>
    obtain ⟨job, hk, hnext⟩ := Option.bind_eq_some_iff.mp hnext
    obtain ⟨e, he, hnext⟩ := Option.bind_eq_some_iff.mp hnext
    cases hnext
    exact h.act hk
      (cancellation_ok h.world (h.jobs job (List.mem_of_getElem? hk)) (fun _ _ => State.got) he)
  | reselected k i readable =>
    obtain ⟨job, hk, hnext⟩ := Option.bind_eq_some_iff.mp hnext
    obtain ⟨e, he, hnext⟩ := Option.bind_eq_some_iff.mp hnext
    cases hnext
    exact h.act hk (reselected_ok h.world (h.jobs job (List.mem_of_getElem? hk)) he)
  | discovered =>
    obtain ⟨k, hk, hnext⟩ := Option.bind_eq_some_iff.mp hnext
    split at hnext
    · cases hnext
      refine h.discovered (eq_false_of_ne_true fun ht => ?_) _
      rw [h.discovery ht] at hk
      cases hk
    · cases hnext
  | undiscovered =>
    obtain ⟨k, -, rfl⟩ := Option.map_eq_some_iff.mp hnext
    exact { h with discovery := fun _ => rfl }
  | serve k refusal =>
    obtain ⟨e, he, hnext⟩ := Option.bind_eq_some_iff.mp hnext
    obtain ⟨⟨server, r⟩, hserve, hnext⟩ := Option.bind_eq_some_iff.mp hnext
    obtain ⟨he, hnone⟩ := State.pending_eq he
    cases refusal with
    | none =>
      cases hnext
      exact h.mono (serve_ok h.world he hnone hserve (.inl rfl))
    | some refusal =>
      obtain ⟨request, hrequest⟩ : ∃ request, e.request = request := ⟨_, rfl⟩
      dsimp only at hnext
      rw [hrequest] at hnext
      cases request with
      | create key body =>
        dsimp only at hnext
        split_ifs at hnext with hpage
        cases hnext
        have hcreate : e.request.isCreate = true := by rw [hrequest]; rfl
        exact h.mono (serve_ok h.world he hnone hserve (.inr ⟨hpage, hcreate, refusal, rfl⟩))
      | _ => cases hnext
  | refuse k refusal =>
    obtain ⟨e, he, rfl⟩ := Option.map_eq_some_iff.mp hnext
    obtain ⟨he, hnone⟩ := State.pending_eq he
    refine h.mono (h.world.respond he hnone ?_)
    cases e.request <;> exact trivial
  | limits k limits =>
    obtain ⟨e, he, hnext⟩ := Option.bind_eq_some_iff.mp hnext
    obtain ⟨he, hnone⟩ := State.pending_eq he
    split at hnext
    · rename_i hrequest
      cases hnext
      refine h.mono (h.world.respond he hnone ?_)
      rw [hrequest]
      exact trivial
    · cases hnext
  | sessions k uploadIds =>
    obtain ⟨e, he, hnext⟩ := Option.bind_eq_some_iff.mp hnext
    obtain ⟨he, hnone⟩ := State.pending_eq he
    split at hnext
    · rename_i hrequest
      cases hnext
      refine h.mono (h.world.respond he hnone ?_)
      rw [hrequest]
      exact trivial
    · cases hnext
  | other request =>
    cases hnext
    exact h.mono (h.world.other request)
  | expire u =>
    obtain ⟨session, hs, hnext⟩ := Option.bind_eq_some_iff.mp hnext
    split_ifs at hnext with hlive
    cases hnext
    exact h.mono (h.world.expire hs hlive)

omit [DecidableEq Hash] in
theorem inv_initial : Inv page (.initial : State Hash) := by
  have hsent : ∀ id k, ¬ (State.initial : State Hash).toWorld.Creation id k := by
    rintro id k ⟨key, body, e, he, -⟩
    cases he
  refine
    { world :=
        { truthful := fun k e r he => by cases he
          creator := fun u session hs => by cases hs
          key := fun u u' session session' hs => by cases hs
          index := fun u session i bytes hs => by cases hs
          complete := fun u hu => by
            obtain ⟨session, hs, -⟩ := hu
            cases hs
          nodup := fun u session hs => by cases hs }
      jobs := fun job hjob => absurd hjob List.not_mem_nil
      ids := List.nodup_nil
      fresh := fun job hjob => absurd hjob List.not_mem_nil
      asked := ⟨fun n k hk => (hsent _ k hk).elim, fun u k hk => (hsent _ k hk).elim,
        fun _ id k _ hk => (hsent id k hk).elim, fun _ id k k' e e' _ _ _ _ he => by cases he⟩
      saves := ⟨fun _ hs => absurd hs List.not_mem_nil, List.nodup_nil,
        fun _ hs => absurd hs List.not_mem_nil, fun _ hs => absurd hs List.not_mem_nil⟩
      active := rfl
      limit := Nat.zero_le _
      discovery := fun _ => rfl }

/-- **What holds in every state of a run.** -/
theorem Reached.inv {ok : Move Hash → State Hash → Bool} (h : Reached page ok s) : Inv page s := by
  induction h with
  | start => exact inv_initial
  | step m _ _ hnext ih => exact ih.next hnext

end Runs

end Queue

end HomeCloud
