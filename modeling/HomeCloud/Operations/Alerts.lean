import HomeCloud.Operations.Scheduled
import Mathlib.Data.List.Induction
import Mathlib.Tactic.Linarith

/-!
# At least once, and not too often

* `plan`, `run_eq`: which transitions a run makes.
* `Step`, `transition_step`: what one transition can do.
* `Remembers`: the file is what is remembered of the alerts, and every alert was due.
* `transitions_spec`, `main_spec`, `after_spec`: a list of transitions, a run, and all runs.
* **`alerts_delivered_and_deduplicated`**.
-/

namespace HomeCloud

namespace Scheduled

open Dedup

/-! ## Effects -/

/-- The result and the world after a part of a run. -/
def exec {α : Type} (x : Job α) (w : World) : Except Exit α × World := x.run.run w

section Effects

variable {α β : Type} {w : World}

@[simp]
theorem exec_pure (a : α) : exec (pure a) w = (.ok a, w) := rfl

@[simp]
theorem exec_throw (e : Exit) : exec (throw e : Job α) w = (.error e, w) := rfl

@[simp]
theorem exec_raise : exec (raise : Job α) w = (.error (.exited 70), w) := rfl

@[simp]
theorem exec_replace (state : State) : exec (replace state) w = (.ok (), ⟨state, w.alerts⟩) := rfl

theorem exec_bind (x : Job α) (f : α → Job β) :
    exec (x >>= f) w = match exec x w with
      | (.ok a, w') => exec (f a) w'
      | (.error e, w') => (.error e, w') := by
  change (match x.run.run w with
    | (r, w') => (ExceptT.bindCont f r).run w') = _
  unfold exec
  rcases x.run.run w with ⟨r, w'⟩
  cases r with
  | ok a => rfl
  | error e => rfl

end Effects

/-! ## The plan of a run -/

/-- A transition that a run makes, if it comes to it. -/
structure Planned where
  key : Key
  reason : Reason
  severity : Severity
  outcome : Outcome

def transitions (c : Config) (r : Run) : List Planned → State → Job Unit
  | [], _ => return ()
  | p :: ps, state => do
    let state ← transition c state p.key p.reason p.severity r.now r.runId p.outcome
    transitions c r ps state

/-- The transitions of a run and the code that it returns, none if it ends before them. -/
def plan (c : Config) (r : Run) : Option (List Planned × ℤ) :=
  match r.observed with
  | .freshness f =>
    let stale := if above (age f.backupStamp r.now) c.backupMaxAge then some true else f.backupMarker.map (!·.completed)
    let staleCheck := above (age f.certStamp r.now) c.certMaxAge
    stale.map fun stale =>
      ([⟨.backupStale, if stale then .stale else .ok, .critical, r.first⟩,
        ⟨.certCheckStale, if staleCheck then .stale else .ok, .critical, r.second⟩], if stale || staleCheck then 1 else 0)
  | .backup b =>
    let completed := if b.claimed r.now then b.marker.map Event.completed else some false
    if b.started then
      completed.map fun completed =>
        let code := backupCode b.code completed
        (⟨.backup, backupReason code, .critical, r.first⟩ ::
          if code = 0 then
            [⟨.backupRetention, if retentionWarning b.events then .retentionWarning else .ok, .warning, r.second⟩]
          else [], code)
    else none
  | .certRenew x => planCertificate false x
  | .certCheck x => planCertificate true x
where
  planCertificate (check : Bool) (x : Certificate) : Option (List Planned × ℤ) :=
    let code := certCode check x.code x.events
    let reason := certReason check code
    if !x.started || (check && valid check x.code x.events && (code = 0 || code = 1 || code = 2) && !x.heartbeatSaved) then
      none
    else
      some ([⟨if check then .certCheck else .certRenew, reason, if reason = .expiryWarning then .warning else .critical,
        r.first⟩], code)

/-- What a run does once the file is read. -/
def follow (c : Config) (r : Run) (state : State) : Option (List Planned × ℤ) → Job ℤ
  | none => raise
  | some (ps, code) => do
    transitions c r ps state
    return code

theorem runFreshness_eq (c : Config) (r : Run) (f : Freshness) (state : State) (h : r.observed = .freshness f) :
    runFreshness c r f state = follow c r state (plan c r) := by
  unfold runFreshness staleBackup plan
  rw [h]
  dsimp only
  split
  next hold => simp [follow, transitions]
  next hold =>
    cases f.backupMarker with
    | none => rfl
    | some m => simp [found, follow, transitions]

theorem runBackup_eq (c : Config) (r : Run) (b : Backup) (state : State) (h : r.observed = .backup b) :
    runBackup c r b state = follow c r state (plan c r) := by
  have hbody (completed : Bool) :
      (do
        let code := backupCode b.code completed
        let state ← transition c state .backup (backupReason code) .critical r.now r.runId r.first
        if code = 0 then
          let reason := if retentionWarning b.events then .retentionWarning else .ok
          let _ ← transition c state .backupRetention reason .warning r.now r.runId r.second
        return code) =
      follow c r state (some
        (⟨.backup, backupReason (backupCode b.code completed), .critical, r.first⟩ ::
          if backupCode b.code completed = 0 then
            [⟨.backupRetention, if retentionWarning b.events then .retentionWarning else .ok, .warning, r.second⟩]
          else [], backupCode b.code completed)) := by
    by_cases hcode : backupCode b.code completed = 0
    · simp [hcode, follow, transitions]
    · simp [hcode, follow, transitions]
  unfold runBackup Backup.confirmed plan
  rw [h]
  dsimp only
  cases b.started with
  | false => rfl
  | true =>
    cases b.claimed r.now with
    | false => simpa using hbody false
    | true =>
      cases b.marker with
      | none => rfl
      | some m => simpa [found] using hbody m.completed

theorem runCertificate_eq (c : Config) (r : Run) (check : Bool) (x : Certificate) (state : State) :
    runCertificate c r check x state = follow c r state (plan.planCertificate r check x) := by
  unfold runCertificate plan.planCertificate
  dsimp only
  cases x.started with
  | false => rfl
  | true =>
    generalize certCode check x.code x.events = code
    generalize (check && valid check x.code x.events && (code = 0 || code = 1 || code = 2) && !x.heartbeatSaved) = fails
    cases fails with
    | false => simp [follow, transitions]
    | true => rfl

/-- **A run follows its plan.** -/
theorem run_eq (c : Config) (r : Run) : run c r = readState r >>= fun state => follow c r state (plan c r) := by
  unfold run
  congr 1
  funext state
  cases h : r.observed with
  | freshness f => exact runFreshness_eq c r f state h
  | backup b => exact runBackup_eq c r b state h
  | certRenew x =>
    rw [plan, h]
    exact runCertificate_eq c r false x state
  | certCheck x =>
    rw [plan, h]
    exact runCertificate_eq c r true x state

/-! ## One transition -/

/-- The state after an alert. -/
def remember (state : State) (p : Planned) (now : ℚ) : State :=
  fun k => if k = p.key then (if p.reason = .ok then none else some ⟨p.reason, now⟩) else state k

/-- What a transition can do: nothing, as there is nothing to say or it was said a short time ago; fail, as no attempt
was confirmed; or deliver an alert and save it, which may fail too. -/
inductive Step (c : Config) (p : Planned) (now : ℚ) (w : World) : Except Exit State → World → Prop
  | silent (h : p.reason = .ok) : Step c p now w (.ok w.file) w
  | suppressed (h : suppressed c (w.file p.key) p.reason now = true) : Step c p now w (.ok w.file) w
  | undelivered : Step c p now w (.error (.exited 70)) w
  | delivered (a : Alert) (res : Except Exit State) (hrecovery : p.reason = .ok → w.file p.key ≠ none)
    (hdue : Scheduled.suppressed c (w.file p.key) p.reason now = false)
    (ha : a.payload.service = p.key ∧ a.payload.reason = p.reason ∧ a.payload.timestamp = now ∧
      a.deliveredAt = p.outcome.deliveredAt)
    (hres : a.saved = true ∧ res = .ok (remember w.file p now) ∨ ∃ e, res = .error e ∧ e ≠ .exited 0) :
    Step c p now w res ⟨if a.saved then remember w.file p now else w.file, w.alerts ++ [a]⟩

theorem deliver_eq (c : Config) (payload : Payload) (o : Outcome) (w : World) :
    exec (deliver c payload o) w =
      if (List.range c.attempts).any o.responses then
        (.ok (), ⟨w.file, w.alerts ++ [⟨payload, o.deliveredAt, o.save.replaced⟩]⟩)
      else (.error (.exited 70), w) := by
  unfold deliver
  split
  next => rfl
  next => rfl

theorem save_eq (state : State) (o : Save) (w : World) :
    ∃ res, exec (save state o) w = (res, ⟨if o.replaced then state else w.file, w.alerts⟩) ∧
      (o.replaced = true ∧ res = .ok () ∨ ∃ e, res = .error e ∧ e ≠ .exited 0) := by
  cases o with
  | saved => exact ⟨_, rfl, .inl ⟨rfl, rfl⟩⟩
  | raised replaced => cases replaced <;> exact ⟨_, rfl, .inr ⟨_, rfl, by decide⟩⟩
  | killed replaced => cases replaced <;> exact ⟨_, rfl, .inr ⟨_, rfl, by decide⟩⟩

/-- **One transition**, if the state is that of the file. -/
theorem transition_step (c : Config) (p : Planned) (now : ℚ) (runId : ℕ) (w : World) {res : Except Exit State}
    {w' : World} (h : exec (transition c w.file p.key p.reason p.severity now runId p.outcome) w = (res, w')) :
    Step c p now w res w' := by
  unfold transition at h
  dsimp only at h
  split at h
  next hsilent =>
    cases h
    exact .silent hsilent.1
  next hsilent =>
    split at h
    next hsuppressed =>
      cases h
      exact .suppressed hsuppressed
    next hdue =>
      have hrecovery (hok : p.reason = .ok) : w.file p.key ≠ none := fun hnone => hsilent ⟨hok, hnone⟩
      have hdue' : suppressed c (w.file p.key) p.reason now = false := Bool.not_eq_true _ ▸ hdue
      rw [exec_bind, deliver_eq] at h
      generalize ha : (⟨⟨eventType (w.file p.key) p.reason, if p.reason = .ok then .info else p.severity, now, c.identity,
        p.key, p.reason, runId⟩, p.outcome.deliveredAt, p.outcome.save.replaced⟩ : Alert) = a at h
      have hread : a.payload.service = p.key ∧ a.payload.reason = p.reason ∧ a.payload.timestamp = now ∧
          a.deliveredAt = p.outcome.deliveredAt := by
        rw [← ha]
        exact ⟨rfl, rfl, rfl, rfl⟩
      have hreplaced : a.saved = p.outcome.save.replaced := by rw [← ha]
      by_cases hconfirmed : (List.range c.attempts).any p.outcome.responses = true
      · rw [if_pos hconfirmed] at h
        obtain ⟨saved, hsave, hres⟩ := save_eq (remember w.file p now) p.outcome.save ⟨w.file, w.alerts ++ [a]⟩
        dsimp only at h
        unfold remember at hsave
        rw [exec_bind, hsave] at h
        rw [← hreplaced] at h hres
        rcases hres with ⟨hkept, rfl⟩ | ⟨e, rfl, he⟩
        · cases h
          exact .delivered a _ hrecovery hdue' hread (.inl ⟨hkept, rfl⟩)
        · cases h
          exact .delivered a _ hrecovery hdue' hread (.inr ⟨e, rfl, he⟩)
      · rw [if_neg hconfirmed] at h
        cases h
        exact .undelivered

/-! ## What is remembered -/

/-- What is read off an alert. -/
def alerts : Notifications Alert Key Reason where
  key a := a.payload.service
  reason a := a.payload.reason
  ok := .ok
  time a := a.payload.timestamp
  kept a := a.saved

/-- **The file is what is remembered of the alerts**, and every alert was due. -/
structure Remembers (c : Config) (w : World) : Prop where
  file : ∀ k, w.file k = (alerts.memory w.alerts k).map fun a => ⟨a.payload.reason, a.payload.timestamp⟩
  lawful : alerts.Lawful c.cooldownSeconds w.alerts

section Steps

variable {c : Config} {p : Planned} {now : ℚ} {w w' : World} {res : Except Exit State}

theorem suppressed_eq_true {reason : Reason} {old : Option Sent} :
    suppressed c old reason now = true ↔
      ∃ sent, old = some sent ∧ reason = sent.reason ∧ now - sent.sentAt < c.cooldownSeconds := by
  simp [suppressed, Option.any_eq_true]

theorem Remembers.exists_memory (h : Remembers c w) {k : Key} {sent : Sent} (hsent : w.file k = some sent) :
    ∃ a, alerts.memory w.alerts k = some a ∧ sent = ⟨a.payload.reason, a.payload.timestamp⟩ := by
  rw [h.file k, Option.map_eq_some_iff] at hsent
  obtain ⟨a, ha, rfl⟩ := hsent
  exact ⟨a, ha, rfl⟩

/-- An alert that is delivered was due. -/
theorem Remembers.due (h : Remembers c w) {a : Alert} (hrecovery : p.reason = .ok → w.file p.key ≠ none)
    (hdue : suppressed c (w.file p.key) p.reason now = false)
    (ha : a.payload.service = p.key ∧ a.payload.reason = p.reason ∧ a.payload.timestamp = now) :
    alerts.Due c.cooldownSeconds w.alerts a := by
  obtain ⟨hkey, hreason, hnow⟩ := ha
  constructor
  · intro hok
    obtain ⟨sent, hsent⟩ := Option.ne_none_iff_exists'.mp (hrecovery (hreason.symm.trans hok))
    obtain ⟨q, hq, -⟩ := h.exists_memory hsent
    refine ⟨q, ?_⟩
    rw [← hkey] at hq
    exact hq
  · intro q hq heq
    change alerts.memory w.alerts a.payload.service = some q at hq
    have hfile : w.file p.key = some ⟨q.payload.reason, q.payload.timestamp⟩ := by
      rw [h.file, ← hkey, hq, Option.map_some]
    by_contra hlt
    change ¬c.cooldownSeconds ≤ a.payload.timestamp - q.payload.timestamp at hlt
    rw [hnow, not_le] at hlt
    have hsuppressed := suppressed_eq_true.mpr ⟨_, hfile, hreason.symm.trans heq.symm, hlt⟩
    rw [hdue] at hsuppressed
    cases hsuppressed

theorem Step.remembers (hstep : Step c p now w res w') (h : Remembers c w) : Remembers c w' := by
  cases hstep with
  | silent => exact h
  | suppressed => exact h
  | undelivered => exact h
  | delivered a _ hrecovery hdue ha =>
    obtain ⟨hkey, hreason, hnow, -⟩ := ha
    refine ⟨fun k => ?_, h.lawful.append (h.due hrecovery hdue ⟨hkey, hreason, hnow⟩)⟩
    rw [Notifications.memory_append]
    change (if a.saved = true then remember w.file p now else w.file) k = Option.map _
      (if decide (a.payload.service = k) && a.saved then (if a.payload.reason = .ok then none else some a)
        else alerts.memory w.alerts k)
    cases a.saved with
    | false =>
      rw [if_neg Bool.false_ne_true, Bool.and_false, if_neg Bool.false_ne_true]
      exact h.file k
    | true =>
      rw [if_pos rfl, Bool.and_true, hkey, hreason, remember]
      by_cases hk : k = p.key
      · rw [if_pos hk, if_pos (decide_eq_true hk.symm)]
        split
        next => rfl
        next => rw [Option.map_some, hreason, hnow]
      · rw [if_neg hk, if_neg (by simpa using Ne.symm hk)]
        exact h.file k

end Steps

/-! ## Runs -/

/-- What a run adds to the alerts: each has the time of its start, and was delivered as one of its two outcomes. -/
def Adds (r : Run) (w : World) (new : List Alert) (w' : World) : Prop :=
  w'.alerts = w.alerts ++ new ∧ ∀ a ∈ new, a.payload.timestamp = r.now ∧ a.deliveredAt ∈ [r.first.deliveredAt, r.second.deliveredAt]

/-- There is an alert about a problem: a new one, or one from before whose cooldown is not over. -/
def Told (c : Config) (r : Run) (w : World) (new : List Alert) (key : Key) (reason : Reason) : Prop :=
  (∃ a ∈ new, a.payload.service = key ∧ a.payload.reason = reason) ∨
    ∃ a ∈ w.alerts, a.payload.service = key ∧ a.payload.reason = reason ∧
      r.now - a.payload.timestamp < c.cooldownSeconds

section Runs

variable {c : Config} {r : Run} {w w' : World}

/-- **A step of a run** that goes on leaves the state of the file, and tells its problem. -/
theorem Step.told {p : Planned} {res : Except Exit State} (hstep : Step c p r.now w res w') (h : Remembers c w)
    (houtcome : p.outcome = r.first ∨ p.outcome = r.second) :
    ∃ new, Adds r w new w' ∧ ((∃ e, res = .error e ∧ e ≠ .exited 0) ∨
      res = .ok w'.file ∧ (p.reason ≠ .ok → Told c r w new p.key p.reason)) := by
  have hnone : Adds r w [] w := ⟨(List.append_nil _).symm, fun a ha => absurd ha List.not_mem_nil⟩
  cases hstep with
  | silent hok => exact ⟨[], hnone, .inr ⟨rfl, fun hne => absurd hok hne⟩⟩
  | suppressed hsuppressed =>
    refine ⟨[], hnone, .inr ⟨rfl, fun _ => .inr ?_⟩⟩
    obtain ⟨sent, hsent, hreason, hshort⟩ := suppressed_eq_true.mp hsuppressed
    obtain ⟨a, ha, rfl⟩ := h.exists_memory hsent
    obtain ⟨hmem, hkey, -⟩ := Notifications.memory_eq_some ha
    exact ⟨a, hmem, hkey, hreason.symm, hshort⟩
  | undelivered => exact ⟨[], hnone, .inl ⟨_, rfl, by decide⟩⟩
  | delivered a _ _ _ ha hres =>
    obtain ⟨hkey, hreason, hnow, hat⟩ := ha
    refine ⟨[a], ⟨rfl, ?_⟩, ?_⟩
    · intro b hb
      cases List.mem_singleton.mp hb
      rw [hat]
      rcases houtcome with ho | ho <;> simp [hnow, ho]
    · rcases hres with ⟨hsaved, rfl⟩ | hfailed
      · rw [if_pos hsaved]
        exact .inr ⟨rfl, fun _ => .inl ⟨a, List.mem_singleton_self a, hkey, hreason⟩⟩
      · exact .inl hfailed

/-- **The transitions of a run**, by induction over the list. -/
theorem transitions_spec {ps : List Planned} {res : Except Exit Unit} (h : Remembers c w)
    (houtcomes : ∀ p ∈ ps, p.outcome = r.first ∨ p.outcome = r.second)
    (hexec : exec (transitions c r ps w.file) w = (res, w')) :
    Remembers c w' ∧ ∃ new, Adds r w new w' ∧ ((∃ e, res = .error e ∧ e ≠ .exited 0) ∨
      res = .ok () ∧ ∀ p ∈ ps, p.reason ≠ .ok → Told c r w new p.key p.reason) := by
  induction ps generalizing w with
  | nil =>
    cases hexec
    exact ⟨h, [], ⟨(List.append_nil _).symm, fun a ha => absurd ha List.not_mem_nil⟩,
      .inr ⟨rfl, fun p hp => absurd hp List.not_mem_nil⟩⟩
  | cons p ps ih =>
    obtain ⟨hp, hps⟩ := List.forall_mem_cons.mp houtcomes
    rw [transitions, exec_bind] at hexec
    rcases hfirst : exec (transition c w.file p.key p.reason p.severity r.now r.runId p.outcome) w with ⟨res₁, w₁⟩
    have hstep := transition_step c p r.now r.runId w hfirst
    have hremembers := hstep.remembers h
    obtain ⟨new₁, hadds, htold⟩ := hstep.told h hp
    rw [hfirst] at hexec
    rcases htold with ⟨e, rfl, he⟩ | ⟨rfl, htold⟩
    · cases hexec
      exact ⟨hremembers, new₁, hadds, .inl ⟨e, rfl, he⟩⟩
    · obtain ⟨hend, new₂, hadds₂, hrest⟩ := ih hremembers hps hexec
      refine ⟨hend, new₁ ++ new₂, ⟨?_, fun a ha => ?_⟩, hrest.imp_right fun hrest => ⟨hrest.1, ?_⟩⟩
      · rw [hadds₂.1, hadds.1, List.append_assoc]
      · exact (List.mem_append.mp ha).elim (hadds.2 a) (hadds₂.2 a)
      · refine List.forall_mem_cons.mpr ⟨fun hne => ?_, fun q hq hne => ?_⟩
        · exact (htold hne).imp_left fun ⟨a, ha, hread⟩ => ⟨a, List.mem_append_left _ ha, hread⟩
        · rcases hrest.2 q hq hne with ⟨a, ha, hread⟩ | ⟨a, ha, hkey, hreason, hshort⟩
          · exact .inl ⟨a, List.mem_append_right _ ha, hread⟩
          · rw [hadds.1] at ha
            rcases List.mem_append.mp ha with ha | ha
            · exact .inr ⟨a, ha, hkey, hreason, hshort⟩
            · exact .inl ⟨a, List.mem_append_left _ ha, hkey, hreason⟩

theorem readState_eq (r : Run) (w : World) :
    exec (readState r) w = (.ok w.file, w) ∨ exec (readState r) w = (.error (.exited 70), w) := by
  cases hreadable : r.readable with
  | false =>
    right
    unfold readState
    rw [hreadable]
    rfl
  | true =>
    have hchecked : exec (readState r) w =
        exec (if (keys.any fun key => (w.file key).any fun v => v.sentAt < 0 || v.sentAt > r.readAt + 60) = true then
          (raise : Job Unit) >>= fun _ => pure w.file else pure w.file) w := by
      unfold readState
      rw [hreadable]
      rfl
    rw [hchecked]
    split
    next => exact .inr rfl
    next => exact .inl rfl

theorem planCertificate_eq_some {check : Bool} {x : Certificate} {ps : List Planned} {code : ℤ}
    (h : plan.planCertificate r check x = some (ps, code)) :
    code = certCode check x.code x.events ∧ ∃ severity,
      ps = [⟨if check then .certCheck else .certRenew, certReason check code, severity, r.first⟩] := by
  unfold plan.planCertificate at h
  dsimp only at h
  split at h
  next => cases h
  next =>
    cases h
    exact ⟨rfl, _, rfl⟩

theorem outcome_of_plan {ps : List Planned} {code : ℤ} (h : plan c r = some (ps, code)) :
    ∀ p ∈ ps, p.outcome = r.first ∨ p.outcome = r.second := by
  unfold plan at h
  split at h
  next f =>
    obtain ⟨stale, -, hplan⟩ := Option.map_eq_some_iff.mp h
    cases hplan
    simp
  next b =>
    dsimp only at h
    split at h
    next =>
      obtain ⟨completed, -, hplan⟩ := Option.map_eq_some_iff.mp h
      cases hplan
      split <;> simp
    next => cases h
  next x =>
    obtain ⟨-, severity, rfl⟩ := planCertificate_eq_some h
    simp
  next x =>
    obtain ⟨-, severity, rfl⟩ := planCertificate_eq_some h
    simp

/-- A certificate whose reason is not `ok` has a code that is no success. -/
theorem certCode_of_reason {check : Bool} {x : Certificate}
    (h : certReason check (certCode check x.code x.events) ≠ .ok) : certCode check x.code x.events % 256 ≠ 0 := by
  have hcode := x.code.property
  have hbounds : -64 ≤ certCode check x.code x.events ∧ certCode check x.code x.events ≤ 255 := by
    unfold certCode
    split <;> omega
  have hne : certCode check x.code x.events ≠ 0 := by
    intro hzero
    rw [hzero] at h
    cases check <;> exact h rfl
  omega

theorem backupCode_failed {b : Backup} {completed : Bool} (hne : backupCode b.code completed ≠ 0) :
    backupCode b.code completed % 256 ≠ 0 := by
  have hcode := b.code.property
  have hbounds : -64 ≤ backupCode b.code completed ∧ backupCode b.code completed ≤ 255 := by
    unfold backupCode
    split <;> omega
  omega

/-- A problem that is found is in the plan, or the run returns that it failed. -/
theorem plan_of_finds {ps : List Planned} {code : ℤ} (h : plan c r = some (ps, code)) {key : Key} {reason : Reason}
    (hfinds : Finds c r.now r.observed key reason) :
    code % 256 ≠ 0 ∨ reason ≠ .ok ∧ ∃ p ∈ ps, p.key = key ∧ p.reason = reason := by
  generalize hobserved : r.observed = observed at hfinds
  rw [plan, hobserved] at h
  cases hfinds with
  | backupOld f hold =>
    obtain ⟨stale, hstale, hplan⟩ := Option.map_eq_some_iff.mp h
    rw [if_pos hold] at hstale
    cases hstale
    rw [Bool.true_or] at hplan
    cases hplan
    exact .inl (by decide)
  | backupIncomplete f m hm hcompleted =>
    obtain ⟨stale, hstale, hplan⟩ := Option.map_eq_some_iff.mp h
    have htrue : stale = true := by
      split at hstale
      next => exact (Option.some.inj hstale).symm
      next =>
        rw [hm, Option.map_some, hcompleted] at hstale
        exact (Option.some.inj hstale).symm
    cases htrue
    rw [Bool.true_or] at hplan
    cases hplan
    exact .inl (by decide)
  | checkOld f hold =>
    obtain ⟨stale, hstale, hplan⟩ := Option.map_eq_some_iff.mp h
    rw [hold, Bool.or_true] at hplan
    cases hplan
    exact .inl (by decide)
  | backup b completed hc hreason =>
    dsimp only at h
    split at h
    next =>
      obtain ⟨confirmed, hconfirmed, hplan⟩ := Option.map_eq_some_iff.mp h
      have heq : confirmed = completed := by
        rw [hc]
        cases hclaimed : b.claimed r.now with
        | true =>
          rw [hclaimed, if_pos rfl] at hconfirmed
          obtain ⟨m, hm, rfl⟩ := Option.map_eq_some_iff.mp hconfirmed
          rw [hm]
          rfl
        | false =>
          rw [hclaimed, if_neg Bool.false_ne_true] at hconfirmed
          exact (Option.some.inj hconfirmed).symm
      cases hplan
      rw [heq]
      exact .inl (backupCode_failed fun hzero => hreason (hzero ▸ rfl))
    next => cases h
  | retention b hzero hwarning =>
    dsimp only at h
    split at h
    next =>
      obtain ⟨confirmed, -, hplan⟩ := Option.map_eq_some_iff.mp h
      cases hplan
      by_cases hcode : backupCode b.code confirmed = 0
      · refine .inr ⟨by decide, ⟨.backupRetention, .retentionWarning, .warning, r.second⟩, ?_, rfl, rfl⟩
        rw [if_pos hcode]
        exact List.mem_cons_of_mem _ (List.mem_singleton_self _)
      · exact .inl (backupCode_failed hcode)
    next => cases h
  | certRenew x hreason =>
    obtain ⟨rfl, -⟩ := planCertificate_eq_some h
    exact .inl (certCode_of_reason hreason)
  | certCheck x hreason =>
    obtain ⟨rfl, -⟩ := planCertificate_eq_some h
    exact .inl (certCode_of_reason hreason)

/-- **One run.** -/
theorem main_spec (c : Config) (r : Run) {w : World} (h : Remembers c w) :
    Remembers c (main c r w).2 ∧ ∃ new, Adds r w new (main c r w).2 ∧
      ∀ key reason, Finds c r.now r.observed key reason →
        (main c r w).1 ≠ .exited 0 ∨ Told c r w new key reason := by
  have hnone : Adds r w [] w := ⟨(List.append_nil _).symm, fun a ha => absurd ha List.not_mem_nil⟩
  have hfailed {e : Exit} (he : e ≠ .exited 0) : Remembers c w ∧ ∃ new, Adds r w new w ∧
      ∀ key reason, Finds c r.now r.observed key reason → e ≠ .exited 0 ∨ Told c r w new key reason :=
    ⟨h, [], hnone, fun _ _ _ => .inl he⟩
  rcases hmain : main c r w with ⟨e, w'⟩
  dsimp only
  unfold main at hmain
  split at hmain
  next =>
    cases hmain
    exact hfailed (by decide)
  next =>
    have hrun : exec (run c r) w = (run c r).run.run w := rfl
    rw [← hrun, run_eq, exec_bind] at hmain
    rcases readState_eq r w with hread | hread
    · rw [hread] at hmain
      dsimp only at hmain
      cases hplan : plan c r with
      | none =>
        rw [hplan] at hmain
        cases hmain
        exact hfailed (by decide)
      | some planned =>
        obtain ⟨ps, code⟩ := planned
        rw [hplan, follow, exec_bind] at hmain
        rcases htransitions : exec (transitions c r ps w.file) w with ⟨res, w₁⟩
        obtain ⟨hremembers, new, hadds, hres⟩ := transitions_spec h (outcome_of_plan hplan) htransitions
        rw [htransitions] at hmain
        rcases hres with ⟨e', rfl, he⟩ | ⟨rfl, htold⟩
        · cases hmain
          exact ⟨hremembers, new, hadds, fun _ _ _ => .inl he⟩
        · cases hmain
          refine ⟨hremembers, new, hadds, fun key reason hfinds => ?_⟩
          rcases plan_of_finds hplan hfinds with hcode | ⟨hne, p, hp, rfl, rfl⟩
          · refine .inl fun hzero => hcode ?_
            injection hzero with hzero
            omega
          · exact .inr (htold p hp hne)
    · rw [hread] at hmain
      cases hmain
      exact hfailed (by decide)

end Runs

/-! ## All runs -/

section Schedules

variable (c : Config)

theorem after_append (runs : List Run) (r : Run) : after c (runs ++ [r]) = (main c r (after c runs)).2 := by
  rw [after, after, List.foldl_append, List.foldl_cons, List.foldl_nil]

/-- **All runs**: what is remembered, and from which run each alert is. -/
theorem after_spec (runs : List Run) :
    Remembers c (after c runs) ∧ ∀ a ∈ (after c runs).alerts, ∃ r ∈ runs, a.payload.timestamp = r.now ∧
      a.deliveredAt ∈ [r.first.deliveredAt, r.second.deliveredAt] := by
  induction runs using List.reverseRecOn with
  | nil => exact ⟨⟨fun _ => rfl, Notifications.lawful_nil⟩, fun a ha => absurd ha List.not_mem_nil⟩
  | append_singleton runs r ih =>
    obtain ⟨hremembers, hfrom⟩ := ih
    obtain ⟨hnext, new, ⟨halerts, hnew⟩, -⟩ := main_spec c r hremembers
    rw [after_append]
    refine ⟨hnext, fun a ha => ?_⟩
    rw [halerts] at ha
    rcases List.mem_append.mp ha with ha | ha
    · obtain ⟨r', hr', hread⟩ := hfrom a ha
      exact ⟨r', List.mem_append_left _ hr', hread⟩
    · exact ⟨r, List.mem_append_right _ (List.mem_singleton_self r), hnew a ha⟩

/-- The deliveries of a run lie between its start and the start of any later run. -/
theorem Schedule.deliveredAt_bounds (s : Schedule) {before rest : List Run} {r r' : Run}
    (h : before ++ r :: rest = s.runs) (hr' : r' ∈ before) {t : ℚ}
    (ht : t ∈ [r'.first.deliveredAt, r'.second.deliveredAt]) : r'.now ≤ t ∧ t ≤ r.now := by
  have hclock := s.clock
  rw [← h, List.flatMap_append, List.flatMap_cons, List.pairwise_append] at hclock
  obtain ⟨hbefore, -, hcross⟩ := hclock
  have htimes : t ∈ r'.times := List.mem_append_right _ ht
  constructor
  · have hown : r'.times.Pairwise (· ≤ ·) := (List.pairwise_flatMap.mp hbefore).1 r' hr'
    exact (List.pairwise_cons.mp hown).1 t (List.mem_cons_of_mem _ (List.mem_append_right _ ht))
  · exact hcross t (List.mem_flatMap.mpr ⟨r', hr', htimes⟩) r.now
      (List.mem_append_left _ (List.mem_append_left _ List.mem_cons_self))

/-- **Alerts are delivered at least once, and deduplicated.** A problem that a run finds is delivered in that run, or the
run fails, or an alert with the same reason was delivered less than the cooldown before. A recovery is sent only for a
key whose last alert was a problem, or a recovery that was not saved. After an alert that was saved the next one of the
key with the same reason is no recovery, and the run that sends it starts no sooner than the cooldown after that of the
first one. -/
theorem alerts_delivered_and_deduplicated (s : Schedule) :
    (∀ before r rest, before ++ r :: rest = s.runs → ∀ key reason, Finds c r.now r.observed key reason →
      ∃ new, (after c (before ++ [r])).alerts = (after c before).alerts ++ new ∧
        ((∃ a ∈ new, a.payload.service = key ∧ a.payload.reason = reason) ∨
          (main c r (after c before)).1 ≠ .exited 0 ∨
          ∃ a ∈ (after c before).alerts, a.payload.service = key ∧ a.payload.reason = reason ∧
            a.deliveredAt ≤ r.now ∧ r.now - a.deliveredAt < c.cooldownSeconds)) ∧
    (∀ earlier a later, earlier ++ a :: later = (after c s.runs).alerts → a.payload.reason = .ok →
      ∃ p, alerts.last earlier a.payload.service = some p ∧ (p.payload.reason ≠ .ok ∨ p.saved = false)) ∧
    (∀ earlier a later, earlier ++ a :: later = (after c s.runs).alerts →
      ∀ p, alerts.last earlier a.payload.service = some p → p.saved = true → p.payload.reason = a.payload.reason →
        a.payload.reason ≠ .ok ∧ c.cooldownSeconds ≤ a.payload.timestamp - p.payload.timestamp) := by
  refine ⟨fun before r rest hruns key reason hfinds => ?_, fun earlier a later halerts hok => ?_,
    fun earlier a later halerts p hlast hsaved hreason => ?_⟩
  · obtain ⟨hremembers, hfrom⟩ := after_spec c before
    obtain ⟨-, new, ⟨hnew, -⟩, htold⟩ := main_spec c r hremembers
    refine ⟨new, by rw [after_append, hnew], ?_⟩
    rcases htold key reason hfinds with hfailed | hdelivered | ⟨a, ha, hkey, hreason, hshort⟩
    · exact .inr (.inl hfailed)
    · exact .inl hdelivered
    · obtain ⟨r', hr', htimestamp, hat⟩ := hfrom a ha
      obtain ⟨hstart, hend⟩ := s.deliveredAt_bounds hruns hr' hat
      rw [htimestamp] at hshort
      exact .inr (.inr ⟨a, ha, hkey, hreason, hend, by linarith⟩)
  · exact Notifications.recovery_after_problem ((after_spec c s.runs).1.lawful earlier a later halerts) hok
  · exact Notifications.apart ((after_spec c s.runs).1.lawful earlier a later halerts) hlast hsaved hreason

end Schedules

/-! ## A crash, and a long job -/

def someConfig : Config where
  identity := "homecloud"
  cooldownSeconds := 21600
  attempts := 3
  backupMaxAge := 93600
  certMaxAge := 93600
  cooldownBounds := by decide +kernel
  attemptsBounds := by decide
  backupBounds := by decide +kernel
  certBounds := by decide +kernel

/-- A look at the markers, the one of the backup with a timestamp or not. -/
def freshnessRun (now : ℚ) (backupStamp : Option ℚ) (save : Save) : Run where
  busy := false
  now := now
  runId := 0
  readable := true
  readAt := now
  observed := .freshness ⟨backupStamp, some ⟨some "backup_production_completed", true, none⟩, some now⟩
  first := ⟨fun _ => true, now + 1, save⟩
  second := ⟨fun _ => true, now + 1, .saved⟩

/-- The backup is stale, then it is not; the process is killed after the recovery is delivered, and runs again. -/
def crashed : Schedule where
  runs := [freshnessRun 0 none .saved, freshnessRun 3600 (some 3600) (.killed false), freshnessRun 7200 (some 7200) .saved]
  clock := by decide +kernel

/-- A renewal that fails after some seconds. -/
def renewalRun (now seconds : ℚ) : Run where
  busy := false
  now := now
  runId := 0
  readable := true
  readAt := now
  observed := .certRenew ⟨true, ⟨3, by decide⟩, [⟨none, false, some "failed"⟩], true⟩
  first := ⟨fun _ => true, now + seconds, .saved⟩
  second := ⟨fun _ => true, now + seconds, .saved⟩

/-- The first renewal takes two hours to fail, the next one fails at once. -/
def longJob : Schedule where
  runs := [renewalRun 0 7200, renewalRun 21600 0]
  clock := by decide +kernel

/-- **After a crash a recovery follows a recovery**; and without one, the same alert is delivered again before the
cooldown is over, as it is counted from the start of the run and not from the delivery. -/
theorem recovered_twice_and_repeated_early :
    ((after someConfig crashed.runs).alerts.map fun a => (a.payload.service, a.payload.reason)) =
      [(.backupStale, .stale), (.backupStale, .ok), (.backupStale, .ok)] ∧
    ((after someConfig longJob.runs).alerts.map fun a =>
      (a.payload.service, a.payload.reason, a.deliveredAt, a.saved)) =
      [(.certRenew, .renewalFailed, 7200, true), (.certRenew, .renewalFailed, 21600, true)] ∧
    (21600 : ℚ) - 7200 < someConfig.cooldownSeconds := by
  refine ⟨?_, ?_, ?_⟩ <;> decide +kernel

end Scheduled

end HomeCloud
