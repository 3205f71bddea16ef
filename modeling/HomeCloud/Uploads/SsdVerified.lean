import HomeCloud.Journal.Verified
import HomeCloud.Uploads.Only
import HomeCloud.Uploads.Ssd
import HomeCloud.Uploads.Verified

/-!
# The uploads on the SSD fulfil the contract

* `OnSsd`: a session of which is known, while the SSD is locked, that it is on it; `wp_onSsd`: the
  operations that keep the lock keep that.
* `withLock_safe`: an operation under the lock.
* **`createUploadSession_safe`**, **`uploadChunk_safe`**, **`abortUpload_safe`**,
  `cleanupExpiredSessions_safe`.
-/

namespace HomeCloud.SsdUploads

open Concurrent Sha256

section

variable {t : ℕ} {w w' : World} {id : ℕ} {s : UploadSession} {enabled : Bool} {userId : ℕ}
  {limits : SsdLimits}

/-! ## Sessions on the SSD -/

/-- A statement that leaves the lock on the SSD alone. -/
def keepsLock : Instr → Bool
  | .disk .lockSsd | .disk .unlockSsd => false
  | _ => true

/-- A statement changes no session but by a commit that is in order. -/
theorem sessions_exec {i : Instr} (hi : Inv w) (hp : i.Due t w) (he : i.exec t w = some w') :
    KeepsSessions t w w'.db.uploadSessions := by
  unfold Instr.exec at he
  split_ifs at he with hlost
  · cases he
    cases i <;> exact .refl t _
  · cases i with
    | lock k =>
      obtain ⟨-, rfl⟩ | ⟨-, rfl⟩ := Instr.perform_lock he
      · rw [World.lock_db]
        exact .refl t w
      · exact .refl t _
    | fence session exclusive =>
      obtain ⟨fences, hf⟩ := World.takeFence_eq (w := w) (t := t) session exclusive
      cases (Option.some.inj he).symm.trans hf
      exact .refl t w
    | commit tx =>
      obtain ⟨ha, hw, rfl⟩ | ⟨-, rfl⟩ := Instr.perform_commit he
      · exact (hp (.inl (by simpa using hlost)) ha |>.respects hi ha hw).sessions
      · exact .refl t w
    | _ =>
      cases he
      exact .refl t _

theorem flock_exec {i : Instr} (hk : keepsLock i = true) (he : i.exec t w = some w') :
    w'.disk.flock = w.disk.flock := by
  have hdisk : ∀ {op : DiskOp}, keepsLock (.disk op) = true →
      (w.onDisk op t).disk.flock = w.disk.flock := by
    intro op hop
    cases op with
    | lockSsd => cases hop
    | unlockSsd => cases hop
    | writeChunk =>
      simp only [World.onDisk, DiskOp.apply]
      split_ifs <;> rfl
    | link =>
      simp only [World.onDisk, DiskOp.apply]
      split <;> rfl
    | _ => rfl
  unfold Instr.exec at he
  split_ifs at he
  · cases he
    cases i with
    | disk op => exact hdisk hk
    | _ => rfl
  · cases i with
    | lock k =>
      obtain ⟨-, rfl⟩ | ⟨-, rfl⟩ := Instr.perform_lock he
      · rw [(World.lock_sameFiles (w := w) (t := t) k).disk]
      · rfl
    | fence session exclusive =>
      obtain ⟨fences, hf⟩ := World.takeFence_eq (w := w) (t := t) session exclusive
      cases (Option.some.inj he).symm.trans hf
      rfl
    | disk op =>
      cases he
      exact hdisk hk
    | commit tx =>
      obtain ⟨-, -, rfl⟩ | ⟨-, rfl⟩ := Instr.perform_commit he <;> rfl
    | _ =>
      cases he
      rfl

/-- `t` has the SSD locked, and has read the session `s` on it under the number `id`. -/
structure OnSsd (t : ℕ) (w : World) (id : ℕ) (s : UploadSession) : Prop where
  held : w.disk.flock = some t
  workspace : s.workspaceId = .ssd
  bound : id < w.db.uploadSessions.bound
  same : ∀ q, w.db.uploadSessions.get id = some q → s.SameUpload q

namespace OnSsd

theorem of_row (hl : w.disk.flock = some t) (hr : w.db.uploadSessions.get id = some s)
    (hs : s.workspaceId = .ssd) : OnSsd t w id s where
  held := hl
  workspace := hs
  bound := Table.lt_bound hr
  same q hq := by
    cases hr.symm.trans hq
    exact .refl s

theorem of_issued (h : OnSsd t w id s) (hl : w'.disk.flock = some t)
    (hi : w.db.uploadSessions.Issued UploadSession.SameUpload w'.db.uploadSessions) :
    OnSsd t w' id s where
  held := hl
  workspace := h.workspace
  bound := lt_of_lt_of_le h.bound hi.bound
  same q' hq' := by
    obtain ⟨q, hq, hsame⟩ := hi.old id q' h.bound hq'
    exact (h.same q hq).trans hsame

theorem attached (h : OnSsd t w id s) (ha : Attached t w w') : OnSsd t w' id s :=
  h.of_issued (ha.persists.ssd h.held).1 ha.persists.sessions

theorem onDisk (h : OnSsd t w id s) (op : SsdOp) : OnSsd t (w.onDisk (.ssd op) t) id s :=
  ⟨h.held, h.workspace, h.bound, h.same⟩

theorem onSsd (h : OnSsd t w id s) {q : UploadSession} (hq : w.db.uploadSessions.get id = some q) :
    q.workspaceId = .ssd := (h.same q hq).workspaceId.trans h.workspace

end OnSsd

/-- The session is not active any more. -/
structure Idle (t : ℕ) (w : World) (id : ℕ) (s : UploadSession) : Prop extends OnSsd t w id s where
  inactive : ∀ q, w.db.uploadSessions.get id = some q → q.active = false

/-- The session is not completed. -/
structure Unfinished (t : ℕ) (w : World) (id : ℕ) (s : UploadSession) : Prop extends OnSsd t w id s where
  unfinished : ∀ q, w.db.uploadSessions.get id = some q → q.status ≠ .completed

/-- The session has no row of the chunk, or cannot take chunks any more. -/
def Unrecorded (w : World) (id index : ℕ) : Prop :=
  ∀ q, w.db.uploadSessions.get id = some q → q.Open → index ∉ q.chunks.map (·.chunkIndex)

theorem Idle.of_kept (h : Idle t w id s) (hs : OnSsd t w' id s)
    (hi : w.db.uploadSessions.Issued UploadSession.SameUpload w'.db.uploadSessions)
    (hk : ∀ i q q', w.db.uploadSessions.get i = some q → w'.db.uploadSessions.get i = some q' →
      q.active = false → q'.active = false) : Idle t w' id s where
  toOnSsd := hs
  inactive q' hq' := by
    obtain ⟨q, hq, -⟩ := hi.old id q' h.bound hq'
    exact hk id q q' hq hq' (h.inactive q hq)

theorem Unfinished.attached (h : Unfinished t w id s) (ha : Attached t w w') : Unfinished t w' id s where
  toOnSsd := h.toOnSsd.attached ha
  unfinished q' hq' := by
    obtain ⟨q, hq, -⟩ := ha.persists.sessions.old id q' h.bound hq'
    rw [(ha.persists.uploads id q q' h.held hq hq' (h.onSsd hq)).2]
    exact h.unfinished q hq

/-- A session that has just been created. -/
theorem Unfinished.of_insert (hl : w'.disk.flock = some t) (hs : s.workspaceId = .ssd)
    (hu : s.status ≠ .completed) (hdb : w'.db.uploadSessions = w.db.uploadSessions.insert s) :
    Unfinished t w' w.db.uploadSessions.bound s := by
  have hrow : w'.db.uploadSessions.get w.db.uploadSessions.bound = some s := by
    rw [hdb, Table.get_insert_bound]
  refine ⟨.of_row hl hrow hs, fun q hq => ?_⟩
  cases hrow.symm.trans hq
  exact hu

/-- A chunk without a file has no row. -/
theorem Unrecorded.of_missing {index : ℕ} (hi : Inv w) (hn : w.disk.ssd.chunks id index = none) :
    Unrecorded w id index := by
  intro q hq ho hmem
  obtain ⟨c, hc, rfl⟩ := List.mem_map.mp hmem
  obtain ⟨a, ha, -⟩ := hi.disk.backed.stored id q hq ho c hc
  rw [hn] at ha
  cases ha

/-- Nobody else records chunks while the SSD is locked. -/
theorem Unrecorded.attached {index : ℕ} (h : Unrecorded w id index) (hs : OnSsd t w id s)
    (ha : Attached t w w') : Unrecorded w' id index := by
  intro q' hq' ho
  obtain ⟨q, hq, hsame⟩ := ha.persists.sessions.old id q' hs.bound hq'
  obtain ⟨hchunks, hstatus⟩ := ha.persists.uploads id q q' hs.held hq hq' (hs.onSsd hq)
  rw [hchunks]
  refine h q hq ⟨hs.onSsd hq, ?_⟩
  have hactive := ho.2
  rwa [UploadSession.active, hstatus, ← UploadSession.active] at hactive

section Kept

variable {α : Type} {p : Op α} {Q : α → World → Prop} {E : Err → World → Prop}
  (hp : p.Only fun i => keepsLock i = true) (h : wp contract t p Q E w)

include hp h

/-- **An operation that keeps the lock knows the session to be on the SSD**, also when it fails. -/
theorem wp_onSsd (hs : OnSsd t w id s) :
    wp contract t p (fun a w' => Q a w' ∧ OnSsd t w' id s) (fun e w' => E e w' ∧ OnSsd t w' id s) w :=
  wp_keep hp (fun _ _ ha _ hs => hs.attached ha)
    (fun _ _ _ hk hi hpre he hs => hs.of_issued ((flock_exec hk he).trans hs.held)
      (sessions_exec hi hpre he).issued) h hs

/-- The same for a session that is not active. -/
theorem wp_idle (hs : Idle t w id s) :
    wp contract t p (fun a w' => Q a w' ∧ Idle t w' id s) (fun e w' => E e w' ∧ Idle t w' id s) w :=
  wp_keep hp
    (fun _ _ ha _ hs => hs.of_kept (hs.toOnSsd.attached ha) ha.persists.sessions ha.persists.inactive)
    (fun _ _ _ hk hi hpre he hs => by
      have hkeeps := sessions_exec hi hpre he
      exact hs.of_kept (hs.of_issued ((flock_exec hk he).trans hs.held) hkeeps.issued) hkeeps.issued
        hkeeps.inactive) h hs

end Kept

/-! ## The lock -/

theorem wp_workspace {Q : Unit → World → Prop} (h : ∀ w', Attached t w w' → Inv w' → Q () w') :
    After t (workspace enabled) Q w := by
  unfold workspace
  rw [After, wp_bind]
  refine wp_assert fun _ => ?_
  rw [wp_bind]
  exact wp_query_attached fun w₁ h₁ _ hi₁ => wp_mayFail (h w₁ h₁ hi₁)

theorem wp_lock {Q : Unit → World → Prop}
    (h : ∀ w', Inv w' → w'.disk.flock = some t → Q () w') : After t (lock enabled) Q w := by
  unfold lock
  rw [After, wp_bind]
  refine wp_workspace fun w₁ _ _ => ?_
  rw [wp_bind]
  refine wp_mayFail ?_
  rw [wp_bind]
  intro w₂ _ hi₂ w₃ he
  have hdone : w₂.onDisk .lockSsd t = w₃ := by
    unfold Instr.exec at he
    split_ifs at he <;> exact Option.some.inj he
  subst hdone
  refine ⟨fun _ => trivial, wp_assert fun hfree => h _ (hi₂.onDisk trivial) ?_⟩
  have hnone : w₂.disk.flock = none := Option.isNone_iff_eq_none.mp hfree
  simp only [World.onDisk, DiskOp.apply, if_pos hnone]

theorem wp_release {Q : Unit → World → Prop} (h : ∀ w', Q () w') : After t release Q w :=
  fun _ _ _ w₂ _ => ⟨fun _ => trivial, h w₂⟩

/-- **An operation under the lock on the SSD.** -/
theorem withLock_safe {α : Type} {body : Op α}
    (h : ∀ w', Inv w' → w'.disk.flock = some t → Safe contract t body w') :
    Safe contract t (withLock enabled body) w := by
  unfold withLock
  rw [Safe, wp_bind]
  refine wp_lock fun w₁ hi hl => ?_
  rw [wp_bind, wp_tryCatch]
  refine wp_mono (fun a w₂ _ => ?_) (fun e w₂ _ => ?_) (h w₁ hi hl)
  · rw [wp_bind]
    exact wp_release fun _ => trivial
  · rw [wp_bind]
    exact wp_release fun _ => trivial

/-! ## Access -/

theorem wp_active {Q : Unit → World → Prop}
    (h : ∀ w', Attached t w w' → Inv w' → s.active = true → Q () w') : After t (active s) Q w := by
  unfold active
  rw [After, wp_bind]
  refine wp_assert fun ha => ?_
  rw [wp_bind]
  exact wp_query_attached fun w₁ h₁ _ hi₁ => wp_assert fun _ => h w₁ h₁ hi₁ ha

theorem wp_requireUnreserved {Q : Unit → World → Prop}
    (h : ∀ w', Attached t w w' → Inv w' → Q () w') : After t (requireUnreserved id) Q w := by
  unfold requireUnreserved
  rw [After, wp_bind]
  exact wp_query_attached fun w₁ h₁ _ hi₁ => wp_assert fun _ => h w₁ h₁ hi₁

theorem wp_capacity {Q : Unit → World → Prop} (h : ∀ w', Attached t w w' → Inv w' → Q () w') :
    After t capacity Q w := by
  unfold capacity
  rw [After, wp_bind]
  exact wp_query_attached fun w₁ h₁ _ hi₁ => wp_mayFail (h w₁ h₁ hi₁)

theorem wp_durable {Q : Unit → World → Prop} (h : ∀ w', Attached t w w' → Inv w' → Q () w') :
    After t durable Q w := by
  unfold durable
  rw [After, wp_bind]
  exact wp_query_attached fun w₁ h₁ _ hi₁ => wp_mayFail (h w₁ h₁ hi₁)

/-- The session that is found is on the SSD. -/
theorem wp_getUploadSession {Q : UploadSession → World → Prop} (hl : w.disk.flock = some t)
    (h : ∀ w' s, Inv w' → OnSsd t w' id s → Q s w') :
    After t (getUploadSession enabled userId id) Q w := by
  unfold getUploadSession ownedSession
  rw [After, wp_bind, wp_bind]
  refine wp_assert fun _ => ?_
  rw [wp_bind]
  refine wp_query_attached fun w₁ h₁ _ hi₁ => wp_require fun s hs => ?_
  obtain ⟨hrow, hwhere⟩ := Option.filter_eq_some_iff.mp hs
  have hon : OnSsd t w₁ id s := .of_row (h₁.persists.ssd hl).1 hrow (by
    simp only [Bool.and_eq_true, decide_eq_true_eq] at hwhere
    exact hwhere.1.2)
  rw [wp_bind]
  refine wp_assert fun _ => ?_
  rw [wp_bind]
  refine wp_workspace fun w₂ h₂ hi₂ => ?_
  rw [wp_bind]
  exact wp_mayFail (h w₂ s hi₂ (hon.attached h₂))

/-- The session that `t` locks while it has the SSD locked stays as it is until the commit. -/
theorem wp_lockRow {q : UploadSession} {tx : Tx} (hr : w.db.uploadSessions.get id = some q)
    (hl : w.locks (.session id) = some t) (hs : OnSsd t w id s)
    (h : ∀ w', Inv w' → w'.db.uploadSessions.get id = some q → w'.locks (.session id) = some t →
      OnSsd t w' id s → tx.Ok t w') : Ready t tx w :=
  fun w' ha hlive hi _ => by
    have hk := (ha.rely hlive).keeps
    exact h w' hi (hk.sessions _ _ hl hr) (hk.locks _ hl) (hs.attached ha)

/-- **A session on the SSD can be written without being active.** -/
theorem saveSessionOk_inactive {q q' : UploadSession} (hi : Inv w) (hs : OnSsd t w id s)
    (hrow : w.db.uploadSessions.get id = some q) (hl : w.locks (.session id) = some t)
    (hsame : q.SameUpload q') (hparent : q'.parentId = q.parentId) (hadv : q.Advances w id q')
    (hinit : q'.accountingInitialized = q.accountingInitialized) (hchunks : q.chunks = [] → q'.chunks = [])
    (hactive : q'.active = false) (hdone : q'.status = .completed → q.status = .completed) :
    SaveSessionOk t w id q' q := by
  have hsound := hi.sessions id q hrow
  have hssd : q'.workspaceId = .ssd := hsame.workspaceId.trans (hs.onSsd hrow)
  have hnot : q'.workspaceId ≠ .legacy := fun h => by cases h.symm.trans hssd
  exact
    { row := hrow
      locked := hl
      fenced := fun h => absurd h hnot
      held := fun _ => hs.held
      same := hsame
      parent := hparent
      advances := hadv
      accounted := fun ha => by cases ha.symm.trans hactive
      initialized := fun _ => hinit.trans (hsound.initialized (hs.onSsd hrow))
      uncounted := fun h => hchunks (hsound.uncounted (hinit.symm.trans h))
      stored := fun h => absurd h hnot
      kept := fun ho => by cases ho.2.symm.trans hactive
      unfinished := fun _ => hdone }

/-! ## Creating sessions -/

theorem wp_validateSizes {totalSize chunkSize : ℤ} {Q : ℕ × ℕ × ℕ → World → Prop}
    (h : ∀ n c k, LaidOut n c k → Q (n, c, k) w) :
    After t (validateSizes limits totalSize chunkSize) Q w := by
  unfold validateSizes
  rw [After, wp_bind]
  refine wp_assert fun hsizes => h _ _ _ ⟨?_, ?_, rfl⟩
  all_goals
    simp only [Bool.and_eq_true, decide_eq_true_eq] at hsizes
    omega

theorem wp_checkReservation {user : User} {reserved totalSize : ℕ} {Q : Unit → World → Prop}
    (h : user.storageUsed + reserved + totalSize ≤ user.storageQuota → Q () w) :
    After t (checkReservation limits user reserved totalSize) Q w := by
  unfold checkReservation
  rw [After, wp_bind]
  exact wp_assert fun hfits => wp_assert fun _ => h (of_decide_eq_true hfits)

theorem wp_checkParent {parentId : Option ℕ} {Q : Unit → World → Prop} (hi : Inv w)
    (h : ∀ w', Rely t w w' → Inv w' → Q () w') : After t (checkParent userId parentId) Q w := by
  cases parentId with
  | none => exact h w (.refl t w) hi
  | some p =>
    dsimp only [checkParent]
    rw [After, wp_bind]
    exact wp_query fun w₁ h₁ hi₁ => wp_assert fun _ => h w₁ h₁ hi₁

theorem abandonSession_safe (h : Unfinished t w id s) : Safe contract t (abandonSession id) w := by
  unfold abandonSession
  refine wp_transaction ?_
  rw [After, wp_bind]
  refine wp_lockSession fun w₁ row h₁ _ hrow hl => ?_
  have hs := h.attached h₁.attached
  cases row with
  | none => exact .none
  | some q =>
    refine wp_lockRow hrow (hl rfl) hs.toOnSsd fun w₂ hi₂ hrow₂ hl₂ hs₂ => ⟨q, ?_⟩
    exact saveSessionOk_inactive hi₂ hs₂ hrow₂ hl₂ ⟨rfl, rfl, rfl, rfl, rfl, rfl, rfl, rfl, rfl⟩ rfl
      (.inr (.inr (.inl ⟨hs.unfinished q hrow, rfl⟩))) rfl (fun hn => hn) rfl fun hdone => by cases hdone

theorem prepareDirectory_safe (h : Unfinished t w id s) : Safe contract t (prepareDirectory id) w := by
  have hmake : After t (onFiles (.ssd (.makeDirectory id)) fun _ => ()) (fun _ _ => True) w :=
    wp_onFiles fun w₁ h₁ _ => ⟨⟨(h.attached h₁).held, trivial⟩, trivial⟩
  -- The session is not completed also when its directory could not be made.
  have hkept := wp_keep (K := (· = .disk (.ssd (.makeDirectory id)))) (H := (Unfinished t · id s))
    (only_onFiles rfl) (fun _ _ ha _ hs => hs.attached ha) (fun i w₁ w₂ hi _ _ he hs => by
      subst hi
      have hdone : w₁.onDisk (.ssd (.makeDirectory id)) t = w₂ := by
        unfold Instr.exec at he
        split_ifs at he <;> exact Option.some.inj he
      subst hdone
      exact ⟨hs.toOnSsd.onDisk _, hs.unfinished⟩) hmake h
  unfold prepareDirectory
  rw [Safe, wp_tryCatch]
  refine wp_mono (fun _ _ _ => trivial) (fun e w₁ hs => ?_) hkept
  exact Safe.bind (wp_ignoreFailure (abandonSession_safe hs.2)) fun _ _ => trivial

theorem createUploadSession_safe {filename : JsString} {totalSize chunkSize : ℤ}
    {parentId expectedSha256 : Option ℕ} :
    Safe contract t (createUploadSession enabled limits userId filename totalSize chunkSize parentId
      expectedSha256) w := by
  unfold createUploadSession
  rw [Safe, wp_bind]
  refine wp_assert fun _ => ?_
  rw [wp_bind]
  refine wp_assert fun _ => ?_
  rw [wp_bind]
  refine wp_require fun digest _ => ?_
  rw [wp_bind]
  refine wp_validateSizes fun n c k hlaid => ?_
  dsimp only
  rw [wp_bind]
  refine wp_assert fun _ => withLock_safe fun w₁ _ hheld₁ => ?_
  rw [Safe, wp_bind]
  refine wp_capacity fun w₂ h₂ _ => ?_
  rw [wp_bind]
  refine wp_transactionWith_post ?_
  rw [After, wp_bind]
  refine wp_durable fun w₃ h₃ _ => ?_
  have hheld₃ := ((h₂.trans h₃).persists.ssd hheld₁).1
  rw [wp_bind]
  refine wp_lockUser fun w₄ row h₄ _ hrow hl => ?_
  rw [wp_bind]
  refine wp_require fun user huser => ?_
  rw [huser] at hrow hl
  rw [wp_bind]
  refine wp_query fun w₅ h₅ hi₅ => ?_
  rw [wp_bind]
  refine wp_checkReservation fun hfits => ?_
  rw [wp_bind]
  refine wp_checkParent hi₅ fun w₆ h₆ _ => ?_
  rw [wp_bind]
  refine wp_query fun w₇ h₇ _ => ⟨.intro fun w₈ h₈ _ _ => ?_, fun w₈ h₈ _ _ => ?_⟩
  · have h₅₈ : Keeps t w₅ w₈ := ((h₆.trans h₇).trans h₈).keeps
    have hlocked₅ := h₅.keeps.locks _ (hl rfl)
    exact
      { pending := rfl
        laidOut := hlaid
        unstarted := ⟨rfl, rfl, rfl, rfl⟩
        user := h₅₈.locks _ hlocked₅
        room := by
          refine ⟨user, (h₅.keeps.trans h₅₈).users _ _ (hl rfl) hrow, ?_⟩
          have hle := h₅₈.reserved_le hlocked₅
          dsimp only
          omega
        receipt := fun r hr => by cases hr }
  · have hall : Attached t w₃ w₈ := ((((h₄.trans h₅).trans h₆).trans h₇).trans h₈).attached
    exact Safe.bind (prepareDirectory_safe (Unfinished.of_insert (w := w₈) (hall.persists.ssd hheld₃).1 rfl
      (by simp) rfl)) fun _ _ => trivial

/-! ## Chunks -/

/-- The row that a chunk of the given content has. -/
def chunkRow (index : ℕ) (data : Bytes) : UploadChunk := ⟨index, data.length, sha256 data⟩

/-- **A staged chunk has its file.** -/
theorem wp_stageChunk {index : ℕ} {data : Bytes} {buffered : Bool} {Q : Unit → World → Prop}
    (hs : OnSsd t w id s)
    (h : ∀ w', OnSsd t w' id s → w'.disk.ssd.Stored id (chunkRow index data) → Q () w') :
    After t (stageChunk id index data buffered) Q w := by
  unfold stageChunk
  rw [After, wp_bind]
  refine wp_look fun w₁ h₁ hi₁ => ?_
  have hs₁ := hs.attached h₁
  split
  · rename_i old hold
    rw [wp_bind]
    refine wp_assert fun hsize => wp_assert fun hsha => h w₁ hs₁ ⟨old, hold, ?_, ?_⟩
    · exact of_decide_eq_true hsize
    · exact of_decide_eq_true hsha
  · rename_i hnone
    have hunrecorded := Unrecorded.of_missing hi₁ hnone
    rw [wp_bind]
    refine wp_look fun w₂ h₂ _ => ?_
    have hs₂ := hs₁.attached h₂
    rw [wp_bind]
    refine wp_assert fun _ => ?_
    split_ifs
    · rw [wp_bind]
      refine wp_onFiles fun w₃ h₃ _ => ?_
      have hs₃ := hs₂.attached h₃
      have hunrecorded₃ : Unrecorded w₃ id index := (hunrecorded.attached hs₁ h₂).attached hs₂ h₃
      refine ⟨⟨hs₃.held, hunrecorded₃⟩, wp_onFiles fun w₄ h₄ _ => ?_⟩
      have hs₃' := hs₃.onDisk (.createChunk id index)
      have hcreated : Unrecorded (w₃.onDisk (.ssd (.createChunk id index)) t) id index := hunrecorded₃
      have hs₄ := hs₃'.attached h₄
      refine ⟨⟨hs₄.held, hcreated.attached hs₃' h₄⟩, h _ (hs₄.onDisk _) ?_⟩
      -- The file that was created is still there to be filled.
      have hfiles := (h₄.persists.ssd hs₃'.held).2
      refine ⟨⟨w₃.disk.issued, data⟩, ?_, rfl, rfl⟩
      simp only [World.onDisk, DiskOp.apply, SsdOp.apply] at hfiles ⊢
      simp [hfiles, chunkRow]
    · refine wp_onFiles fun w₃ h₃ _ => ?_
      have hs₃ := hs₂.attached h₃
      refine ⟨⟨hs₃.held, (hunrecorded.attached hs₁ h₂).attached hs₂ h₃⟩, h _ (hs₃.onDisk _) ?_⟩
      refine ⟨⟨w₃.disk.issued, data⟩, ?_, rfl, rfl⟩
      simp [World.onDisk, DiskOp.apply, SsdOp.apply, chunkRow]

/-- **A chunk of the right size can be recorded.** -/
theorem recordChunk_safe {index : ℕ} {data : Bytes} (hs : OnSsd t w id s)
    (hfit : s.Fits (chunkRow index data)) (hstored : w.disk.ssd.Stored id (chunkRow index data)) : Safe contract t (recordChunk id index data) w := by
  unfold recordChunk
  refine wp_transaction ?_
  rw [After, wp_bind]
  refine wp_durable fun w₁ h₁ _ => ?_
  unfold lockOwned
  rw [wp_bind, wp_bind]
  refine wp_lockSession fun w₂ row h₂ hi₂ hrow hl => wp_require fun current hcurrent => ?_
  rw [hcurrent] at hrow hl
  rw [wp_bind]
  refine wp_assert fun _ => ?_
  rw [wp_bind]
  refine wp_active fun w₃ h₃ hi₃ hactive => ?_
  rw [wp_bind]
  refine wp_requireUnreserved fun w₄ h₄ hi₄ => ?_
  rw [wp_bind]
  refine wp_assert fun _ => fun w₅ h₅ hlive hi₅ _ => ⟨current, ?_⟩
  have hall : Attached t w₂ w₅ := (h₃.trans h₄).trans h₅
  have hk := (hall.rely hlive).keeps
  have hrow₅ := hk.sessions _ _ (hl rfl) hrow
  have hall₅ : Attached t w w₅ := (h₁.trans h₂.attached).trans hall
  have hs₅ : OnSsd t w₅ id s := hs.attached hall₅
  have hsound := hi₅.sessions id current hrow₅
  have hssd : current.workspaceId = .ssd := hs₅.onSsd hrow₅
  have hsame := hs₅.same current hrow₅
  have hstatus : ∀ q : UploadSession, q.SameUpload { q with status := .uploading } :=
    fun _ => ⟨rfl, rfl, rfl, rfl, rfl, rfl, rfl, rfl, rfl⟩
  have hsaved := (current.same_withChunk ⟨index, data.length, sha256 data⟩).trans (hstatus _)
  have hnot : (current.withChunk ⟨index, data.length, sha256 data⟩).workspaceId ≠ .legacy := fun h => by
    cases h.symm.trans (hsaved.workspaceId.trans hssd)
  have hinit := (current.withChunk_accountingInitialized ⟨index, data.length, sha256 data⟩).trans
    (hsound.initialized hssd)
  have hfits : current.Fits ⟨index, data.length, sha256 data⟩ := by
    rw [UploadSession.Fits, hsame.totalChunks, hsame.chunkLength]
    exact hfit
  exact
    { row := hrow₅
      locked := hk.locks _ (hl rfl)
      fenced := fun h => absurd h hnot
      held := fun _ => hs₅.held
      same := hsaved
      parent := current.withChunk_parentId _
      advances := .inr (.inl ⟨hactive, rfl⟩)
      accounted := fun _ _ => ((hsound.accounted hactive (hsound.initialized hssd)).withChunk hfits).of_same
        (hstatus _) rfl rfl rfl
      initialized := fun _ => hinit
      uncounted := fun hn => absurd (hn.symm.trans hinit) Bool.false_ne_true
      stored := fun h => absurd h hnot
      kept := fun _ c hc => by
        rcases current.mem_withChunk _ hc with hc | rfl
        · exact .inl hc
        · rw [(hall₅.persists.ssd hs.held).2]
          exact .inr hstored
      unfinished := fun _ hdone => by cases hdone }

theorem uploadChunk_safe {index : ℕ} {data : Bytes} {buffered : Bool} :
    Safe contract t (uploadChunk enabled limits userId id index data buffered) w := by
  unfold uploadChunk
  refine withLock_safe fun w₁ _ hheld₁ => ?_
  rw [Safe, wp_bind]
  refine wp_getUploadSession hheld₁ fun w₂ s₂ _ hs₂ => ?_
  rw [wp_bind]
  refine wp_active fun w₃ h₃ _ _ => ?_
  rw [wp_bind]
  refine wp_requireUnreserved fun w₄ h₄ _ => ?_
  rw [wp_bind]
  refine wp_capacity fun w₅ h₅ _ => ?_
  rw [wp_bind]
  refine wp_mayFail ?_
  rw [wp_bind]
  refine wp_getUploadSession (hs₂.attached ((h₃.trans h₄).trans h₅)).held fun w₆ s _ hs => ?_
  rw [wp_bind]
  refine wp_active fun w₇ h₇ _ _ => ?_
  rw [wp_bind]
  refine wp_requireUnreserved fun w₈ h₈ _ => ?_
  rw [wp_bind]
  refine wp_assert fun hsize => ?_
  rw [wp_bind]
  refine wp_query_attached fun w₉ h₉ _ _ => ?_
  rw [wp_bind]
  refine wp_assert fun _ => ?_
  rw [wp_bind]
  refine wp_stageChunk (hs.attached ((h₇.trans h₈).trans h₉)) fun w' hs' hstored => recordChunk_safe hs' ?_ hstored
  simp only [Bool.and_eq_true, decide_eq_true_eq] at hsize
  exact hsize.1

/-! ## Aborting and expiry -/

section Only

theorem only_transaction {α : Type} {body : Op (Tx × α)} (h : body.Only fun i => keepsLock i = true) :
    (transaction body).Only fun i => keepsLock i = true := by
  have hquiet : ∀ i : Instr, i.quiet = true → keepsLock i = true := by
    intro i hi
    cases i <;> first | rfl | cases hi
  refine .bind (only_orRollback hquiet h) fun r => .bind (only_orRollback hquiet ?_) fun _ => trivial
  refine ⟨rfl, fun t w => ?_⟩
  dsimp only
  split_ifs
  · trivial
  · intro n
    dsimp only
    split_ifs <;> trivial
  · trivial

theorem only_lockSession : (lockSession id).Only fun i => keepsLock i = true := only_statement rfl

theorem only_deleteChunkRow {index : ℕ} : (deleteChunkRow id index).Only fun i => keepsLock i = true :=
  only_transaction (.bind only_lockSession fun _ => trivial)

theorem only_removeChunk {c : UploadChunk} : (removeChunk id c).Only fun i => keepsLock i = true :=
  .tryCatch (.bind (only_onFiles rfl) fun _ => .bind only_require fun _ => .bind only_assert fun _ =>
    .bind only_assert fun _ => .bind (only_onFiles rfl) fun _ => only_deleteChunkRow) fun _ => trivial

theorem only_markAborted {expiredOnly : Bool} :
    (markAborted id expiredOnly).Only fun i => keepsLock i = true := by
  refine only_transaction (.bind (.bind (only_statement rfl) fun _ => only_mayFail) fun _ => .bind
    (.bind only_lockSession fun _ => only_require) fun _ => .bind (only_statement rfl) fun _ => ?_)
  split_ifs
  · trivial
  · exact .bind only_assert fun _ => .bind (.bind (only_statement rfl) fun _ => only_assert) fun _ => trivial

end Only

theorem deleteChunkRow_safe {index : ℕ} (h : Idle t w id s) :
    Safe contract t (deleteChunkRow id index) w := by
  unfold deleteChunkRow
  refine wp_transaction ?_
  rw [After, wp_bind]
  refine wp_lockSession fun w₁ row h₁ _ hrow hl => ?_
  have ha := h₁.attached
  have hs : Idle t w₁ id s := h.of_kept (h.toOnSsd.attached ha) ha.persists.sessions ha.persists.inactive
  cases row with
  | none => exact .none
  | some q =>
    refine wp_lockRow hrow (hl rfl) hs.toOnSsd fun w₂ hi₂ hrow₂ hl₂ hs₂ => ⟨q, ?_⟩
    exact saveSessionOk_inactive hi₂ hs₂ hrow₂ hl₂ ⟨rfl, rfl, rfl, rfl, rfl, rfl, rfl, rfl, rfl⟩ rfl (.inl rfl)
      rfl (fun hn => by rw [hn]; rfl) (hs.inactive q hrow) fun hdone => hdone

theorem removeChunk_safe {c : UploadChunk} (h : Idle t w id s) : Safe contract t (removeChunk id c) w := by
  have hkept : ∀ {w₁ w₂ : World}, Idle t w₁ id s → Attached t w₁ w₂ → Idle t w₂ id s := fun hs ha =>
    hs.of_kept (hs.toOnSsd.attached ha) ha.persists.sessions ha.persists.inactive
  unfold removeChunk
  refine wp_ignoreFailure ?_
  change Safe contract t _ w
  rw [Safe, wp_bind]
  refine wp_look fun w₁ h₁ _ => ?_
  rw [wp_bind]
  refine wp_require fun old _ => ?_
  rw [wp_bind]
  refine wp_assert fun _ => ?_
  rw [wp_bind]
  refine wp_assert fun _ => ?_
  rw [wp_bind]
  refine wp_onFiles fun w₂ h₂ _ => ?_
  have hs₂ := hkept (hkept h h₁) h₂
  exact ⟨⟨hs₂.held, hs₂.inactive⟩, deleteChunkRow_safe ⟨hs₂.toOnSsd.onDisk _, hs₂.inactive⟩⟩

theorem wp_removeChunks {Q : Unit → World → Prop} : ∀ (chunks : List UploadChunk) {w : World},
    Idle t w id s → (∀ w', Idle t w' id s → Q () w') → After t (removeChunks id chunks) Q w
  | [], w, hs, h => h w hs
  | c :: chunks, w, hs, h => by
    rw [removeChunks, After, wp_bind]
    refine wp_mono (fun _ w₁ h₁ => ?_) (fun _ _ _ => trivial) (wp_idle only_removeChunk (removeChunk_safe hs) hs)
    exact wp_removeChunks chunks h₁.2 h

theorem markAborted_safe {expiredOnly : Bool} (h : OnSsd t w id s) :
    Safe contract t (markAborted id expiredOnly) w := by
  unfold markAborted
  refine wp_transaction ?_
  rw [After, wp_bind]
  refine wp_durable fun w₁ h₁ _ => ?_
  unfold lockOwned
  rw [wp_bind, wp_bind]
  refine wp_lockSession fun w₂ row h₂ _ hrow hl => wp_require fun current hcurrent => ?_
  rw [hcurrent] at hrow hl
  rw [wp_bind]
  refine wp_query fun w₃ h₃ _ => ?_
  split_ifs
  · exact .none
  rw [wp_bind]
  refine wp_assert fun hstatus => ?_
  rw [wp_bind]
  refine wp_requireUnreserved fun w₄ h₄ _ => Ready.attached ?_ h₄
  have hs₃ := h.attached ((h₁.trans h₂.attached).trans h₃.attached)
  refine wp_lockRow (h₃.keeps.sessions _ _ (hl rfl) hrow) (h₃.keeps.locks _ (hl rfl)) hs₃
    fun w₅ hi₅ hrow₅ hl₅ hs₅ => ⟨current, ?_⟩
  exact saveSessionOk_inactive hi₅ hs₅ hrow₅ hl₅ ⟨rfl, rfl, rfl, rfl, rfl, rfl, rfl, rfl, rfl⟩ rfl
    (.inr (.inr (.inl ⟨of_decide_eq_true hstatus, rfl⟩))) rfl (fun hn => hn) rfl fun hdone => by cases hdone

theorem abortUpload_safe {expiredOnly : Bool} :
    Safe contract t (abortUpload enabled limits userId id expiredOnly) w := by
  unfold abortUpload
  refine withLock_safe fun w₁ _ hheld₁ => ?_
  rw [Safe, wp_bind]
  refine wp_getUploadSession hheld₁ fun w₂ s _ hs => ?_
  rw [wp_bind]
  refine wp_mono (fun _ w₃ h₃ => ?_) (fun _ _ _ => trivial)
    (wp_onSsd only_markAborted (markAborted_safe hs) hs)
  rw [wp_bind]
  refine wp_query_attached fun w₄ h₄ _ _ => ?_
  have hs₄ := h₃.2.attached h₄
  rw [wp_bind]
  refine wp_require fun current hcurrent => ?_
  split_ifs with hstatus
  · trivial
  have hidle : Idle t w₄ id s := ⟨hs₄, fun q hq => by
    cases hcurrent.symm.trans hq
    rw [UploadSession.active, not_not.mp hstatus]
    rfl⟩
  rw [wp_bind]
  refine wp_query_attached fun w₅ h₅ _ _ => ?_
  rw [wp_bind]
  refine wp_removeChunks _ (hidle.of_kept (hs₄.attached h₅) h₅.persists.sessions h₅.persists.inactive)
    fun w₆ _ => wp_mayFail trivial

theorem cleanupSessions_safe : ∀ (sessions : List (ℕ × ℕ)) {w : World},
    Safe contract t (cleanupSessions enabled limits sessions) w
  | [], _ => trivial
  | (_, _) :: sessions, _ =>
    Safe.bind (wp_ignoreFailure abortUpload_safe) fun _ _ => cleanupSessions_safe sessions

theorem cleanupExpiredSessions_safe : Safe contract t (cleanupExpiredSessions enabled limits) w := by
  unfold cleanupExpiredSessions
  split_ifs
  · trivial
  · rw [Safe, wp_bind]
    exact wp_query_attached fun w₁ _ _ _ => cleanupSessions_safe _

end

end HomeCloud.SsdUploads
