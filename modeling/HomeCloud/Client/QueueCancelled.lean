import HomeCloud.Client.QueueLaws

/-!
# Uploads that are cancelled

* `State.cleared`: what is left of a job; `settled`: when nothing is left.
* **`settled_next`**, **`cancellation_law`**: a job that is cancelled leaves nothing behind, unless a
  creation is in doubt.
-/

namespace HomeCloud

namespace Queue

variable {Hash : Type} {page : Page Hash} {s s' : State Hash} {job : Job Hash}

/-- The session has been made for a request of the job. -/
def State.madeFor (s : State Hash) (session : ServerSession Hash) (id : JobId) : Bool :=
  (s.exchanges[session.creator]?).any (·.job = some id)

/-- The session is aborted, or another job of the queue has it. -/
def State.released (s : State Hash) (u : ℕ) (session : ServerSession Hash) (id : JobId) : Bool :=
  session.status = .aborted || s.jobs.any fun other => other.id ≠ id && other.uploadId = some u

/-- Every session that has been made for the job is released. -/
def State.cleared (s : State Hash) (id : JobId) : Bool :=
  (List.range s.server.length).all fun u =>
    (s.server[u]?).all fun session => !s.madeFor session id || s.released u session id

/-- The run is about to learn which session has been made. -/
def State.learns (s : State Hash) (job : Job Hash) (i : ℕ) (input : Input) : Bool :=
  match job.runs[i]?, input with
  | some ⟨_, _, .calling (.create _) (.sent _ k)⟩, .answer _ => (s.response k).any fun
    | .created _ => true
    | _ => false
  | _, _ => false

/-- A job that is about to be reported as cancelled without a session has left none; and no session is made
for a job that has been. -/
def settled (m : Move Hash) (s : State Hash) : Bool :=
  match m with
  | .cancel k => (s.jobs[k]?).all fun job =>
      s.disposed || job.state.terminal || job.cancelling || job.busy || job.uploadId.isSome ||
        s.cleared job.id
  | .resume k => (s.jobs[k]?).all fun job =>
      !job.cancellationPending || s.disposed || job.state.terminal || job.cancelling || job.busy ||
        job.uploadId.isSome || s.cleared job.id
  | .run k i input => (s.jobs[k]?).all fun job =>
      !job.cancellationPending || job.uploadId.isSome || s.learns job i input || s.cleared job.id
  | .serve k _ => (s.exchanges[k]?).all fun e =>
      match e.request with
      | .create key _ =>
        (s.jobs.all fun job => job.state ≠ .cancelled || e.job ≠ some job.id) ||
          s.server.any fun session => key.isSome && session.key = key
      | _ => true
  | _ => true

theorem State.cleared_iff {id : JobId} : s.cleared id = true ↔
    ∀ (u : ℕ) session, s.server[u]? = some session → s.madeFor session id = true →
      s.released u session id = true := by
  unfold State.cleared
  rw [List.all_eq_true]
  refine ⟨fun h u session hu hmade => ?_, fun h u hu => ?_⟩
  · have hall := h u (List.mem_range.mpr (List.getElem?_eq_some_iff.mp hu).1)
    rw [hu] at hall
    simpa [hmade] using hall
  · cases hget : s.server[u]? with
    | none => rfl
    | some session =>
      by_cases hmade : s.madeFor session id = true
      · simp [h u session hget hmade]
      · simp [hmade]

/-- **A job that is cancelled with a session leaves none**: all that have been made for it are that one. -/
theorem Inv.cleared (h : Inv page s) (hjob : job ∈ s.jobs) (hstate : job.state = .cancelled)
    {u : ℕ} (hupload : job.uploadId = some u) : s.cleared job.id = true := by
  refine State.cleared_iff.mpr fun u' session hs hmade => ?_
  have hok := h.jobs job hjob
  obtain ⟨aborted, haborted, hstatus⟩ := hok.ends.cancelled hstate u hupload
  obtain ⟨e, he, hid⟩ := (Option.any_eq_true ..).mp hmade
  have hid := of_decide_eq_true hid
  obtain ⟨e', r, he', hrequest, hr, hcreated⟩ := h.world.creator u' session hs
  cases he.symm.trans he'
  have hsame : u' = u := by
    by_cases ht : page.transport = true
    · have hkey := hok.made.keys ht _ _ _ ⟨e, he, hid, hrequest⟩
      obtain ⟨mine, hmine, hminekey⟩ := hok.made.session ht u hupload
      refine h.world.key u u' mine session hmine hs ?_ ?_
      · rw [hminekey]
        exact hok.made.key ht
      · rw [hkey, hminekey]
    · have ho := eq_false_of_ne_true ht
      have hgot : s.toWorld.Got session.creator (.created u') := ⟨e, he, by rw [hr, hcreated ho]⟩
      rcases hok.made.owner ho _ ⟨_, _, e, he, hid, hrequest⟩ with ⟨refusal, e₁, he₁, hr₁⟩ |
          ⟨u₁, hu₁, e₁, he₁, hr₁⟩ | ⟨hnone, -⟩
      · cases he.symm.trans he₁
        rw [hr, hcreated ho] at hr₁
        cases hr₁
      · cases he.symm.trans he₁
        rw [hr, hcreated ho] at hr₁
        cases hr₁
        exact Option.some.inj (hu₁.symm.trans hupload)
      · exact absurd (hnone.symm.trans hupload) nofun
  subst hsame
  cases hs.symm.trans haborted
  unfold State.released
  rw [hstatus]
  rfl

/-- What the `catch` of a run leaves. -/
theorem caught_eq (c : Context Hash) (job : Job Hash) (e : Err) :
    (job.caught c e).1.uploadId = job.uploadId ∧
      (job.caught c e).1.cancellationPending = job.cancellationPending ∧
      (job.state ≠ .cancelled → (job.caught c e).1.state ≠ .cancelled) := by
  unfold Job.caught
  dsimp only
  split_ifs
  · exact ⟨rfl, rfl, fun hnot => hnot⟩
  all_goals exact ⟨rfl, rfl, fun _ => nofun⟩

/-- A job keeps its session when a part of its run is over. -/
theorem settle_uploadId (c : Context Hash) (run : Run Hash) (i : ℕ) (x : Job Hash × Outcome Hash) :
    (run.settle c i x).job.uploadId = x.1.uploadId := by
  have hfinal : ∀ (job : Job Hash) (discovers : Bool),
      (job.finalize c i discovers).job.uploadId = job.uploadId := by
    intro job discovers
    unfold Job.finalize Job.finishCancellation
    dsimp only
    split_ifs
    · rfl
    · split <;> rfl
    · rfl
  obtain ⟨job, outcome⟩ := x
  cases outcome with
  | await phase request => rfl
  | returned => exact hfinal job false
  | thrown e => exact (hfinal _ _).trans (caught_eq c job e).1

/-- A job is reported as cancelled when its run is over, if that has been asked for. -/
theorem settle_cancelled {w : World Hash} {run : Run Hash} {x : Job Hash × Outcome Hash} (c : Context Hash)
    (i : ℕ) (hgood : Good page w run job x) (hstate : (run.settle c i x).job.state = .cancelled) :
    job.cancellationPending = true := by
  have hfinal : ∀ (job' : Job Hash) (discovers : Bool), job'.state ≠ .cancelled →
      (job'.finalize c i discovers).job.state = .cancelled →
      job'.cancellationPending = true ∧ job'.state ≠ .completed := by
    intro job' discovers hnot hcancelled
    unfold Job.finalize at hcancelled
    dsimp only at hcancelled
    split_ifs at hcancelled with hpending
    · simpa using hpending
    · exact (hnot hcancelled).elim
  have hnot : x.1.state ≠ .cancelled := by
    rcases hgood.state with hrunning | hcompleted
    · exact ((UploadQueueState.running_iff _).mp hrunning).2.2.2
    · rw [hcompleted]
      nofun
  -- What has been asked for before is still asked for.
  have hback : x.1.cancellationPending = true → job.cancellationPending = true := fun hp => by
    rcases hgood.pending with heq | ⟨-, hdone⟩
    · exact heq.symm.trans hp
    · rw [hdone] at hp
      cases hp
  obtain ⟨job', outcome⟩ := x
  cases outcome with
  | await phase request => exact (hnot hstate).elim
  | returned => exact hback (hfinal job' false hnot hstate).1
  | thrown e =>
    obtain ⟨-, hkept, hlive⟩ := caught_eq c job' e
    exact hback (hkept.symm.trans (hfinal _ _ (hlive hnot) hstate).1)

/-- **A run reports its job as cancelled** when that has been asked for, and it learns of no session. -/
theorem run_cancelled [DecidableEq Hash] {i : ℕ} {input : Input} {e : Effect Hash} (h : Inv page s) (hjob : job ∈ s.jobs)
    (hfair : input.fair = true) (hrun : job.run (s.context page) s.response i input = some e)
    (hstate : e.job.state = .cancelled) (hnone : e.job.uploadId = none) :
    job.cancellationPending = true ∧ job.uploadId = none ∧ s.learns job i input = false := by
  have hok := h.jobs job hjob
  have heffect := run_ok h.world hok (fun _ _ => State.got) hfair hrun
  have hbefore : job.uploadId = none := by
    refine Option.eq_none_iff_forall_ne_some.mpr fun u hu => ?_
    have hkept := heffect.steps.kept u hu
    rw [hnone] at hkept
    cases hkept
  obtain ⟨run, hi, hrun⟩ := Option.bind_eq_some_iff.mp hrun
  obtain ⟨x, hx, hrun⟩ := Option.bind_eq_some_iff.mp hrun
  have hfits := (hok.run run (List.mem_of_getElem? hi)).phase
  have hready := hok.ready hi
  have hgood := good_next h.world hready hfits (fun _ _ => State.got) hfair hx
  -- A run that is over already settles in the same way.
  have hsettle : e = run.settle (s.context page) i x := by
    obtain ⟨job', outcome⟩ := x
    split at hrun
    · rename_i hphase
      have hreturned : (job', outcome) = (job, Outcome.returned) := by
        unfold Run.next at hx
        rw [hphase] at hx
        cases input <;> first | exact (Option.some.inj hx).symm | cases hx
      cases hreturned
      cases hrun
      rfl
    · cases hrun
      rfl
  rw [hsettle] at hstate hnone
  refine ⟨settle_cancelled _ i hgood hstate, hbefore, eq_false_of_ne_true fun hlearns => ?_⟩
  unfold State.learns at hlearns
  rw [hi] at hlearns
  obtain ⟨file, since, phase⟩ := run
  split at hlearns
  · rename_i chunkSize n k jitter heq _
    cases heq
    obtain ⟨r, hr, hcreated⟩ := (Option.any_eq_true ..).mp hlearns
    split at hcreated
    · rename_i u
      unfold Run.next at hx
      dsimp only at hx
      rw [hr] at hx
      cases hx
      rw [settle_uploadId] at hnone
      have hgot : (answered (s.context page) file (.create chunkSize) n (.created u) jitter job).1.uploadId =
          some u :=
        (good_created h.world (hready.budget { job.budget with notBefore := none }) hfits (State.got hr)).2
      exact absurd (hnone.symm.trans hgot) nofun
    · cases hcreated
  · cases hlearns

/-- The user cancels a job without a session. -/
theorem cancel_cancelled {c : Context Hash} (hstate : (job.cancel c).job.state = .cancelled)
    (hnone : (job.cancel c).job.uploadId = none) : job.state = .cancelled ∨
      (c.disposed || job.state.terminal || job.cancelling || job.busy || job.uploadId.isSome) = false := by
  unfold Job.cancel Job.finishCancellation at hstate hnone
  dsimp only at hstate hnone
  split_ifs at hstate hnone with hnot hbusy
  · exact .inl hstate
  · cases hstate
  · right
    have hupload : job.uploadId = none := by
      rcases Option.eq_none_or_eq_some job.uploadId with hupload | ⟨u, hupload⟩
      · exact hupload
      · rw [hupload] at hnone
        cases hnone
    rw [eq_false_of_ne_true hbusy, hupload, eq_false_of_ne_true hnot]
    rfl

theorem resume_cancelled {c : Context Hash} (hstate : (job.resume c).job.state = .cancelled)
    (hnone : (job.resume c).job.uploadId = none) : job.state = .cancelled ∨
      job.cancellationPending = true ∧
      (c.disposed || job.state.terminal || job.cancelling || job.busy || job.uploadId.isSome) = false := by
  unfold Job.resume at hstate hnone
  split_ifs at hstate hnone with hnot hpending
  · exact .inl hstate
  · exact (cancel_cancelled hstate hnone).imp_right fun hready => ⟨hpending, hready⟩
  · exact .inl hstate
  · split at hstate
    · cases hstate
    · split_ifs at hstate
      exact .inl hstate

theorem reselected_cancelled [DecidableEq Hash] {c : Context Hash} {i : ℕ} {readable : Bool} {e : Effect Hash}
    (he : job.reselected c i readable = some e) (hstate : e.job.state = .cancelled) :
    job.state = .cancelled := by
  obtain ⟨file, -, he⟩ := Option.bind_eq_some_iff.mp he
  dsimp only at he
  split_ifs at he with hunreadable hover
  · cases he
    exact hstate
  · cases he
    exact hstate
  · cases he
    simp only [Bool.or_eq_true, not_or, Bool.not_eq_true] at hover
    -- A cancellation that is asked for ends the selection.
    unfold Job.resume at hstate
    simp only [hover.1.2, Bool.false_eq_true, if_false] at hstate
    split_ifs at hstate
    all_goals exact hstate

/-- The requests keep their jobs, and the sessions their creators. -/
structure State.Traces (s s' : State Hash) : Prop where
  exchange : ∀ (k : ℕ) e, s.exchanges[k]? = some e →
    ∃ e', s'.exchanges[k]? = some e' ∧ e'.job = e.job
  session : ∀ (u : ℕ) session, s.server[u]? = some session → ∃ session', s'.server[u]? = some session' ∧
    session'.creator = session.creator ∧ (session.status = .aborted → session'.status = .aborted)

theorem State.Traces.of_later (h : s.toWorld.Later s'.toWorld) : s.Traces s' := by
  refine ⟨fun k e he => ?_, fun u session hs => ?_⟩
  · obtain ⟨e', he', hjob, -⟩ := h.exchange k e he
    exact ⟨e', he', hjob⟩
  · obtain ⟨session', hs', hl⟩ := h.session u session hs
    exact ⟨session', hs', hl.creator, hl.aborted⟩

theorem State.Traces.of_appends {P : Exchange Hash → Prop} (h : s.Appends P s')
    (hserver : s'.server = s.server) : s.Traces s' := by
  obtain ⟨l, hl, -⟩ := h
  refine ⟨fun k e he => ⟨e, ?_, rfl⟩, fun u session hs => ⟨session, hserver ▸ hs, rfl, fun ha => ha⟩⟩
  rw [hl, List.getElem?_append_left (List.getElem?_eq_some_iff.mp he).1, he]

/-- **What is cleared stays so**, while the jobs are kept and no session is made. -/
theorem State.cleared_kept {id : JobId} (h : Inv page s) (htraces : s.Traces s')
    (hmade : ∀ (u : ℕ) session, s'.server[u]? = some session → s'.madeFor session id = true →
      u < s.server.length)
    (hkept : ∀ job ∈ s.jobs, ∃ job' ∈ s'.jobs, job'.id = job.id ∧
      ∀ u, job.uploadId = some u → job'.uploadId = some u)
    (hcleared : s.cleared id = true) : s'.cleared id = true := by
  refine State.cleared_iff.mpr fun u session' hs' hmade' => ?_
  obtain ⟨session, hs⟩ : ∃ session, s.server[u]? = some session :=
    ⟨_, List.getElem?_eq_getElem (hmade u session' hs' hmade')⟩
  obtain ⟨session'', hs'', hcreator, haborted⟩ := htraces.session u session hs
  cases hs'.symm.trans hs''
  obtain ⟨e, -, he, -⟩ := h.world.creator u session hs
  obtain ⟨e', he', hjob⟩ := htraces.exchange _ e he
  have hbefore : s.madeFor session id = true := by
    unfold State.madeFor at hmade' ⊢
    rw [hcreator, he', Option.any_some] at hmade'
    rw [he, Option.any_some, ← hjob]
    exact hmade'
  have hreleased := State.cleared_iff.mp hcleared u session hs hbefore
  unfold State.released at hreleased ⊢
  rw [Bool.or_eq_true, decide_eq_true_eq, List.any_eq_true] at hreleased ⊢
  rcases hreleased with hab | ⟨other, hother, hhas⟩
  · exact .inl (haborted hab)
  · rw [Bool.and_eq_true, decide_eq_true_eq, decide_eq_true_eq] at hhas
    obtain ⟨other', hother', hid, hupload⟩ := hkept other hother
    refine .inr ⟨other', hother', ?_⟩
    rw [Bool.and_eq_true, decide_eq_true_eq, decide_eq_true_eq, hid]
    exact ⟨hhas.1, hupload u hhas.2⟩

/-- The jobs that are cancelled without a session have left none. -/
def State.Settled (s : State Hash) : Prop :=
  ∀ job ∈ s.jobs, job.state = .cancelled → job.uploadId = none → s.cleared job.id = true

/-- **Something happens to a job.** -/
theorem Inv.settled_act [DecidableEq Hash] {k : ℕ} {e : Effect Hash} (h : Inv page s) (hsettled : s.Settled)
    (hk : s.jobs[k]? = some job) (he : Effect.Ok page s.toWorld job e)
    (hreported : e.job.state = .cancelled → e.job.uploadId = none →
      job.state = .cancelled ∨ s.cleared job.id = true) : (s.act page k e).Settled := by
  obtain ⟨hfollows, -⟩ := s.follows_act h hk he
  have hmem := List.mem_of_getElem? hk
  have hkept : ∀ j ∈ s.jobs, ∃ j' ∈ (s.act page k e).jobs, j'.id = j.id ∧
      ∀ u, j.uploadId = some u → j'.uploadId = some u := by
    intro j hj
    obtain ⟨j', hj', hid, hupload⟩ := h.kept_set hk he.steps.id he.steps.kept j hj
    obtain ⟨j'', hj'', hid', hupload'⟩ := hfollows.keeps.job j' hj'
    exact ⟨j'', hj'', hid'.trans hid, fun u hu => hupload' u (hupload u hu)⟩
  have happends : s.Appends (fun _ => True) (s.act page k e) := by
    have hchanged : s.Appends (fun _ => True) (s.changed k e) := ⟨_, rfl, fun _ _ => trivial⟩
    obtain ⟨l, hl, -⟩ := hfollows.appends
    exact hchanged.trans ⟨l, hl, fun _ _ => trivial⟩
  have hserver : (s.act page k e).server = s.server := hfollows.server
  have hcleared : ∀ id, s.cleared id = true → (s.act page k e).cleared id = true := fun id =>
    State.cleared_kept h (.of_appends happends hserver)
      (fun u session hs _ => hserver ▸ (List.getElem?_eq_some_iff.mp hs).1) hkept
  intro j hj hstate hnone
  rcases mem_set (·.id) h.ids hk (hfollows.keeps.cancelled j hj hstate) with rfl | ⟨hold, -⟩
  · have hnone' : job.uploadId = none := by
      refine Option.eq_none_iff_forall_ne_some.mpr fun u hu => ?_
      rw [he.steps.kept u hu] at hnone
      cases hnone
    rw [he.steps.id]
    refine hcleared job.id ((hreported hstate hnone).elim (fun hbefore => ?_) fun hc => hc)
    exact hsettled job hmem hbefore hnone'
  · exact hcleared j.id (hsettled j hold hstate hnone)

/-- No session is made, the jobs are kept, and the cancelled ones are from before. -/
theorem State.Settled.of (hsettled : s.Settled) (h : Inv page s) (htraces : s.Traces s')
    (hserver : s'.server.length = s.server.length)
    (hkept : ∀ job ∈ s.jobs, ∃ job' ∈ s'.jobs, job'.id = job.id ∧
      ∀ u, job.uploadId = some u → job'.uploadId = some u)
    (hback : ∀ job ∈ s'.jobs, job.state = .cancelled → job ∈ s.jobs) : s'.Settled := by
  intro job hjob hstate hnone
  refine State.cleared_kept h htraces (fun u session hs _ => ?_) hkept
    (hsettled job (hback job hjob hstate) hstate hnone)
  exact hserver ▸ (List.getElem?_eq_some_iff.mp hs).1

/-- The network or the server gets on, without a new session. -/
theorem State.Settled.world {w' : World Hash} (hsettled : s.Settled) (h : Inv page s)
    (hw : s.toWorld.Changes page w') (hserver : w'.server.length = s.server.length) :
    ({ s with toWorld := w' } : State Hash).Settled :=
  hsettled.of h (.of_later hw.later) hserver (fun job hjob => ⟨job, hjob, rfl, fun _ hu => hu⟩)
    fun _ hjob _ => hjob

/-- No job is reported as cancelled by a change of the jobs, a publication and the pump. -/
theorem State.Settled.pump [DecidableEq Hash] (hsettled : s.Settled) (h : Inv page s) (h' : Inv page s')
    (hexchanges : s'.exchanges = s.exchanges) (hserver : s'.server = s.server)
    (hkept : ∀ job ∈ s.jobs, ∃ job' ∈ s'.jobs, job'.id = job.id ∧
      ∀ u, job.uploadId = some u → job'.uploadId = some u)
    (hback : ∀ job ∈ s'.jobs, job.state = .cancelled → job ∈ s.jobs) :
    ((s'.publish page).pump page).Settled := by
  have hpumped := (s'.publish page).follows_pump h'.publish
  obtain ⟨l, hl, -⟩ := hpumped.appends
  have happends : s.Appends (fun _ => True) ((s'.publish page).pump page) :=
    ⟨l, hl.trans (congrArg (· ++ l) hexchanges), fun _ _ => trivial⟩
  have hsame : ((s'.publish page).pump page).server = s.server := hpumped.server.trans hserver
  refine hsettled.of h (.of_appends happends hsame) (congrArg List.length hsame) (fun job hjob => ?_)
    fun job hjob hstate => hback job (hpumped.keeps.cancelled job hjob hstate) hstate
  obtain ⟨job', hjob', hid, hupload⟩ := hkept job hjob
  obtain ⟨job'', hjob'', hid', hupload'⟩ := hpumped.keeps.job job' hjob'
  exact ⟨job'', hjob'', hid'.trans hid, fun u hu => hupload' u (hupload u hu)⟩

/-- A request is served, and no session of a cancelled job is made. -/
theorem Inv.settled_serve [DecidableEq Hash] {k : ℕ} {e : Exchange Hash} {server : List (ServerSession Hash)}
    {r r' : Response Hash} {refusal : Option Refusal} (h : Inv page s) (hsettled : s.Settled)
    (he : s.exchanges[k]? = some e) (hnone : e.response = none)
    (hserve : serve page.digest s.server k e.request = some (server, r))
    (hr : r' = r ∨ page.transport = true ∧ e.request.isCreate = true ∧ ∃ refusal, r' = .refused refusal)
    (hcond : settled (.serve k refusal) s = true) :
    (({ s with server } : State Hash).respond k e r').Settled := by
  have hw := serve_ok h.world he hnone hserve hr
  have hlater : s.Traces (({ s with server } : State Hash).respond k e r') := .of_later hw.later
  intro job hjob hstate hupload
  refine State.cleared_kept h hlater (fun u session hs hmade => ?_)
    (fun job hjob => ⟨job, hjob, rfl, fun _ hu => hu⟩) (hsettled job hjob hstate hupload)
  by_contra hlt
  -- The session is a new one, made for the request of a job that is not cancelled.
  obtain ⟨request, hrequest⟩ : ∃ request, e.request = request := ⟨_, rfl⟩
  rw [hrequest] at hserve
  have hlength : server.length ≤ s.server.length := by
    cases request with
    | create key body =>
      dsimp only [serve] at hserve
      split at hserve
      · rename_i hfind
        cases hserve
        have hlast : u = s.server.length := by
          have hu := (List.getElem?_eq_some_iff.mp hs).1
          change u < (s.server ++ [_]).length at hu
          rw [List.length_append, List.length_singleton] at hu
          omega
        subst hlast
        have hsession : session = ⟨k, key, body, [], .live⟩ := by
          change (s.server ++ [_])[s.server.length]? = some session at hs
          rw [List.getElem?_concat_length] at hs
          exact (Option.some.inj hs).symm
        subst hsession
        have hjobid : e.job = some job.id := by
          unfold State.madeFor State.respond at hmade
          dsimp only at hmade
          rw [List.getElem?_set_self (List.getElem?_eq_some_iff.mp he).1, Option.any_some,
            decide_eq_true_eq] at hmade
          exact hmade
        unfold settled at hcond
        dsimp only at hcond
        rw [he, Option.all_some, hrequest, Bool.or_eq_true, List.all_eq_true, List.any_eq_true] at hcond
        rcases hcond with hothers | ⟨known, hknown, hkey⟩
        · have hnot := hothers job hjob
          rw [hstate, hjobid] at hnot
          simp at hnot
        · have hfound := List.findIdx?_eq_none_iff.mp hfind known hknown
          rw [hkey] at hfound
          cases hfound
      · split at hserve
        · split_ifs at hserve
          cases hserve
          exact le_rfl
        · cases hserve
    | detail u =>
      obtain ⟨session, -, heq⟩ := Option.map_eq_some_iff.mp hserve
      cases heq
      exact le_rfl
    | chunk u i bytes =>
      dsimp only [serve] at hserve
      split at hserve
      · cases hserve
      · split_ifs at hserve
        split at hserve
        · cases hserve
          exact List.length_set.le
        · split_ifs at hserve
          cases hserve
          exact le_rfl
    | complete u =>
      dsimp only [serve] at hserve
      split at hserve
      · cases hserve
      · split at hserve
        · cases hserve
        · cases hserve
          exact le_rfl
        · split_ifs at hserve
          cases hserve
          exact List.length_set.le
    | remove u =>
      dsimp only [serve] at hserve
      split at hserve
      · cases hserve
      · split_ifs at hserve
        cases hserve
        exact List.length_set.le
    | limits => cases hserve
    | sessions => cases hserve
  have hu : u < server.length := (List.getElem?_eq_some_iff.mp hs).1
  omega

/-- **Every step whose condition holds.** -/
theorem settled_next [DecidableEq Hash] {m : Move Hash} (h : Inv page s) (hsettled : s.Settled)
    (hnext : s.next page m = some s') (hcond : settled m s = true) : s'.Settled := by
  cases m with
  | tick n =>
    cases hnext
    exact hsettled.world h (h.world.tick n) rfl
  | storable b =>
    cases hnext
    exact hsettled
  | enqueue files parentId start =>
    cases hnext
    unfold State.enqueue
    dsimp only
    split_ifs
    · exact hsettled
    · refine hsettled.pump h (h.added files parentId start) rfl rfl
        (fun job hjob => ⟨job, List.mem_append_left _ hjob, rfl, fun _ hu => hu⟩) fun job hjob hstate => ?_
      rcases List.mem_append.mp hjob with hold | hadd
      · exact hold
      · obtain ⟨n, hn, heq⟩ := List.mem_mapIdx.mp hadd
        rw [← heq] at hstate
        unfold newJob at hstate
        dsimp only [Job.idle] at hstate
        split_ifs at hstate
  | startAll =>
    cases hnext
    unfold State.startAll
    dsimp only
    split_ifs
    · exact hsettled
    · refine hsettled.pump h h.selected rfl rfl
        (fun job hjob => ⟨job.select, List.mem_map.mpr ⟨job, hjob, rfl⟩, ?_, fun u hu => ?_⟩)
        fun job hjob hstate => ?_
      · unfold Job.select
        split_ifs <;> rfl
      · unfold Job.select
        split_ifs <;> exact hu
      · obtain ⟨job', hjob', rfl⟩ := List.mem_map.mp hjob
        unfold Job.select at hstate ⊢
        split_ifs at hstate ⊢
        exact hjob'
  | pause k =>
    obtain ⟨job, hk, rfl⟩ := Option.map_eq_some_iff.mp hnext
    refine h.settled_act hsettled hk (pause_ok h.world (h.jobs job (List.mem_of_getElem? hk)))
      fun hstate _ => .inl ?_
    unfold Job.pause at hstate
    split at hstate
    · exact hstate
    · dsimp only [Job.still] at hstate
      split_ifs at hstate
  | resume k =>
    obtain ⟨job, hk, rfl⟩ := Option.map_eq_some_iff.mp hnext
    refine h.settled_act hsettled hk (resume_ok h.world (h.jobs job (List.mem_of_getElem? hk)))
      fun hstate hnone => ?_
    rcases resume_cancelled hstate hnone with hbefore | ⟨hpending, hready⟩
    · exact .inl hbefore
    · unfold settled at hcond
      dsimp only at hcond
      have hready' : (s.disposed || job.state.terminal || job.cancelling || job.busy ||
        job.uploadId.isSome) = false := hready
      simp only [Bool.or_eq_false_iff] at hready'
      obtain ⟨⟨⟨⟨hd, ht⟩, hc⟩, hb⟩, hu⟩ := hready'
      rw [hk, Option.all_some, hpending, hd, ht, hc, hb, hu] at hcond
      exact .inr (by simpa using hcond)
  | cancel k =>
    obtain ⟨job, hk, rfl⟩ := Option.map_eq_some_iff.mp hnext
    refine h.settled_act hsettled hk (cancel_ok h.world (h.jobs job (List.mem_of_getElem? hk)))
      fun hstate hnone => ?_
    rcases cancel_cancelled hstate hnone with hbefore | hready
    · exact .inl hbefore
    · unfold settled at hcond
      dsimp only at hcond
      have hready' : (s.disposed || job.state.terminal || job.cancelling || job.busy ||
        job.uploadId.isSome) = false := hready
      rw [hk, Option.all_some, hready', Bool.false_or] at hcond
      exact .inr hcond
  | reselect k file =>
    obtain ⟨job, hk, rfl⟩ := Option.map_eq_some_iff.mp hnext
    refine h.settled_act hsettled hk (reselect_ok h.world (h.jobs job (List.mem_of_getElem? hk)) file)
      fun hstate _ => .inl ?_
    unfold Job.reselect at hstate
    split_ifs at hstate <;> exact hstate
  | discover =>
    cases hnext
    have hfollows : s.Follows (s.discover page) := s.follows_discover
    exact hsettled.of h (.of_appends hfollows.appends hfollows.server) (congrArg List.length hfollows.server)
      hfollows.keeps.job hfollows.keeps.cancelled
  | dispose =>
    cases hnext
    refine hsettled.of h (.of_appends (.refl (fun _ => True) s) rfl) rfl
      (fun job hjob => ⟨job.dispose, List.mem_map.mpr ⟨job, hjob, rfl⟩, ?_, fun u hu => ?_⟩)
      fun job hjob hstate => ?_
    · unfold Job.dispose
      split <;> rfl
    · unfold Job.dispose
      split <;> exact hu
    · obtain ⟨job', hjob', rfl⟩ := List.mem_map.mp hjob
      unfold Job.dispose at hstate ⊢
      split at hstate
      · rename_i hterminal
        rw [if_pos hterminal]
        exact hjob'
      · dsimp only at hstate
        split_ifs at hstate
  | dismissCompleted =>
    cases hnext
    unfold State.dismissCompleted
    split_ifs
    · exact fun job hjob => absurd hjob List.not_mem_nil
    · exact hsettled
  | reload =>
    cases hnext
    intro job hjob hstate
    change job ∈ (if page.transport then [] else (s.storage.filter validSaved).map restoredJob) at hjob
    split_ifs at hjob
    · cases hjob
    · obtain ⟨saved, -, rfl⟩ := List.mem_map.mp hjob
      unfold restoredJob at hstate
      dsimp only [Job.idle] at hstate
      split_ifs at hstate
  | run k i input =>
    obtain ⟨job, hk, hnext⟩ := Option.bind_eq_some_iff.mp hnext
    obtain ⟨e, he, hnext⟩ := Option.bind_eq_some_iff.mp hnext
    split_ifs at hnext with hfair
    cases hnext
    have hmem := List.mem_of_getElem? hk
    refine h.settled_act hsettled hk (run_ok h.world (h.jobs job hmem) (fun _ _ => State.got) hfair he)
      fun hstate hnone => .inr ?_
    obtain ⟨hpending, hupload, hlearns⟩ := run_cancelled h hmem hfair he hstate hnone
    unfold settled at hcond
    dsimp only at hcond
    rw [hk, Option.all_some, hpending, hupload, hlearns] at hcond
    simpa using hcond
  | cancellation k i input =>
    obtain ⟨job, hk, hnext⟩ := Option.bind_eq_some_iff.mp hnext
    obtain ⟨e, he, hnext⟩ := Option.bind_eq_some_iff.mp hnext
    cases hnext
    have hok := h.jobs job (List.mem_of_getElem? hk)
    have heffect := cancellation_ok h.world hok (fun _ _ => State.got) he
    refine h.settled_act hsettled hk heffect fun _ hnone => ?_
    -- A job with a cancellation has a session.
    obtain ⟨x, hx, -⟩ := Option.bind_eq_some_iff.mp he
    have hsome : ∃ u, job.uploadId = some u := by
      have hfits := hok.cancellation x (List.mem_of_getElem? hx)
      unfold Cancellation.Fits at hfits
      split at hfits
      · exact hfits.imp fun _ hu => hu.1
      · exact Option.isSome_iff_exists.mp hfits
      · exact hfits.imp fun _ hu => hu.1
      · exact ⟨_, hfits.1⟩
    obtain ⟨u, hu⟩ := hsome
    rw [heffect.steps.kept u hu] at hnone
    cases hnone
  | reselected k i readable =>
    obtain ⟨job, hk, hnext⟩ := Option.bind_eq_some_iff.mp hnext
    obtain ⟨e, he, hnext⟩ := Option.bind_eq_some_iff.mp hnext
    cases hnext
    exact h.settled_act hsettled hk (reselected_ok h.world (h.jobs job (List.mem_of_getElem? hk)) he)
      fun hstate _ => .inl (reselected_cancelled he hstate)
  | discovered =>
    obtain ⟨k, -, hnext⟩ := Option.bind_eq_some_iff.mp hnext
    split at hnext
    · cases hnext
      rename_i sessions _
      unfold State.discovered
      dsimp only
      split_ifs
      · exact hsettled
      -- Sessions that are imported wait for their files.
      have hfold : ∀ (sessions : List (Session Hash)) (s : State Hash),
          (sessions.foldl State.importSession s).exchanges = s.exchanges ∧
          (sessions.foldl State.importSession s).server = s.server ∧
          s.Keeps (sessions.foldl State.importSession s) := by
        intro sessions
        induction sessions with
        | nil => exact fun s => ⟨rfl, rfl, .of_jobs rfl⟩
        | cons session sessions ih =>
          intro s
          obtain ⟨hexchanges, hserver, hkeeps⟩ := ih (s.importSession session)
          have hone : (s.importSession session).exchanges = s.exchanges ∧
              (s.importSession session).server = s.server ∧ s.Keeps (s.importSession session) := by
            unfold State.importSession
            split_ifs
            · refine ⟨rfl, rfl, fun job hjob => ⟨job, List.mem_append_left _ hjob, rfl, fun _ hu => hu⟩,
                fun job hjob hstate => ?_⟩
              rcases List.mem_append.mp hjob with hold | hadd
              · exact hold
              · rw [List.mem_singleton.mp hadd] at hstate
                cases hstate
            · exact ⟨rfl, rfl, .of_jobs rfl⟩
          exact ⟨hexchanges.trans hone.1, hserver.trans hone.2.1, hone.2.2.trans hkeeps⟩
      obtain ⟨hexchanges, hserver, hkeeps⟩ := hfold sessions { s with discovery := none }
      refine hsettled.of h (.of_appends (P := fun _ => True) ⟨[], ?_, List.forall_mem_nil _⟩ hserver)
        (congrArg List.length hserver) hkeeps.job hkeeps.cancelled
      exact hexchanges.trans (List.append_nil _).symm
    · cases hnext
  | undiscovered =>
    obtain ⟨k, -, rfl⟩ := Option.map_eq_some_iff.mp hnext
    exact hsettled
  | serve k refusal =>
    obtain ⟨e, he, hnext⟩ := Option.bind_eq_some_iff.mp hnext
    obtain ⟨⟨server, r⟩, hserve, hnext⟩ := Option.bind_eq_some_iff.mp hnext
    obtain ⟨he, hnone⟩ := State.pending_eq he
    obtain ⟨request, hrequest⟩ : ∃ request, e.request = request := ⟨_, rfl⟩
    cases refusal with
    | none =>
      cases hnext
      exact h.settled_serve hsettled he hnone hserve (.inl rfl) hcond
    | some refusal =>
      dsimp only at hnext
      rw [hrequest] at hnext
      cases request with
      | create key body =>
        dsimp only at hnext
        split_ifs at hnext with hpage
        cases hnext
        have hcreate : e.request.isCreate = true := by rw [hrequest]; rfl
        exact h.settled_serve hsettled he hnone hserve (.inr ⟨hpage, hcreate, refusal, rfl⟩) hcond
      | _ => cases hnext
  | refuse k refusal =>
    obtain ⟨e, he, rfl⟩ := Option.map_eq_some_iff.mp hnext
    obtain ⟨he, hnone⟩ := State.pending_eq he
    refine hsettled.world h (h.world.respond he hnone ?_) rfl
    cases e.request <;> exact trivial
  | limits k limits =>
    obtain ⟨e, he, hnext⟩ := Option.bind_eq_some_iff.mp hnext
    obtain ⟨he, hnone⟩ := State.pending_eq he
    split at hnext
    · rename_i hrequest
      cases hnext
      refine hsettled.world h (h.world.respond he hnone ?_) rfl
      rw [hrequest]
      exact trivial
    · cases hnext
  | sessions k uploadIds =>
    obtain ⟨e, he, hnext⟩ := Option.bind_eq_some_iff.mp hnext
    obtain ⟨he, hnone⟩ := State.pending_eq he
    split at hnext
    · rename_i hrequest
      cases hnext
      refine hsettled.world h (h.world.respond he hnone ?_) rfl
      rw [hrequest]
      exact trivial
    · cases hnext
  | other request =>
    cases hnext
    exact hsettled.world h (h.world.other request) rfl
  | expire u =>
    obtain ⟨session, hs, hnext⟩ := Option.bind_eq_some_iff.mp hnext
    split_ifs at hnext with hlive
    cases hnext
    exact hsettled.world h (h.world.expire hs hlive) List.length_set

/-- **The law of cancellation**: a job is reported as completed when its session is; a job that the user
has cancelled sends no chunk and asks for no session; and where no session of a job is left behind when the
job is reported as cancelled without one, and none is made for it later, every session that has been made
for a job that is cancelled is aborted, or another job has it. -/
theorem cancellation_law [DecidableEq Hash] (ok : Move Hash → State Hash → Bool) (s : State Hash) (hs : Reached page ok s) :
    (∀ job ∈ s.jobs, job.state = .completed →
      ∃ u, job.uploadId = some u ∧ s.toWorld.Completed u) ∧
    (∀ m s', s.next page m = some s' → ∀ (k : ℕ) e, s.exchanges.length ≤ k → s'.exchanges[k]? = some e →
      ∀ job ∈ s.jobs, e.job = some job.id → job.cancelRequested = true →
        e.request.isCreate = false ∧ e.request.isChunk = false) ∧
    ((∀ m t, ok m t = true → settled m t = true) →
      ∀ job ∈ s.jobs, job.state = .cancelled → s.cleared job.id = true) := by
  have hinv := hs.inv
  refine ⟨fun job hjob => (hinv.jobs job hjob).ends.completed,
    fun m s' hnext k e hk he job hjob hid hrequested => ?_, fun hcond => ?_⟩
  · have hallows := ((stepped_next hinv hnext).allows k e hk he).stopped job hjob hid
    by_contra hsends
    have hno := hallows (by
      rw [not_and_or, Bool.not_eq_false, Bool.not_eq_false] at hsends
      rw [Bool.or_eq_true]
      exact hsends)
    rw [hrequested] at hno
    cases hno
  · have hsettled : s.Settled := by
      clear hinv
      induction hs with
      | start => exact fun job hjob => absurd hjob List.not_mem_nil
      | step m hs hok hnext ih => exact settled_next hs.inv ih hnext (hcond m _ hok)
    intro job hjob hstate
    rcases Option.eq_none_or_eq_some job.uploadId with hnone | ⟨u, hu⟩
    · exact hsettled job hjob hstate hnone
    · exact hinv.cleared hjob hstate hu

/-- The session is deleted before its chunk is accepted. -/
def deletedRun : List (Move (List UInt8)) :=
  creationRun ++ [.run 0 0 (.answer 0), .cancel 0, .serve 2 none, .run 0 0 (.answer 0), .serve 3 none,
    .cancellation 0 0 (.answer 0)]

theorem cancellation_law_of_run : ∃ s job, Reached (plainPage true) settled s ∧ job ∈ s.jobs ∧
    job.state = .cancelled ∧ s.server.length = 1 ∧ s.cleared job.id = true := by
  obtain ⟨s, hs, hp⟩ := exists_reached (plainPage true) settled deletedRun
    (fun s => s.server.length = 1 && s.jobs.any (·.state = .cancelled)) (by decide +kernel)
  rw [Bool.and_eq_true, decide_eq_true_eq, List.any_eq_true] at hp
  obtain ⟨hlength, job, hjob, hstate⟩ := hp
  have hstate := of_decide_eq_true hstate
  exact ⟨s, job, hs, hjob, hstate, hlength,
    (cancellation_law settled s hs).2.2 (fun _ _ hok => hok) job hjob hstate⟩

/-- The answer to a creation is lost, and the job is cancelled: its session stays. -/
theorem not_cancellation_law : ¬ ∀ s, Reached (plainPage true) (fun _ _ => true) s →
    ∀ job ∈ s.jobs, job.state = .cancelled → s.cleared job.id = true := by
  intro h
  obtain ⟨s, hs, hp⟩ := exists_reached (plainPage true) (fun _ _ => true)
    (creationRun ++ [.run 0 0 (.lost none 0), .cancel 0])
    (fun s => s.jobs.any fun job => job.state = .cancelled && !s.cleared job.id) (by decide +kernel)
  obtain ⟨job, hjob, hleft⟩ := List.any_eq_true.mp hp
  rw [Bool.and_eq_true, decide_eq_true_eq, Bool.not_eq_true'] at hleft
  have hcleared := h s hs job hjob hleft.1
  rw [hleft.2] at hcleared
  cases hcleared

end Queue

end HomeCloud
