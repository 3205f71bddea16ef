import HomeCloud.Journal.Store
import HomeCloud.Rules

/-!
# The finalization store fulfils the contract

A thread that has the SSD locked knows the files and the row of its operation, and what a method of the
store has made of that row.

* `Journaled`: what it knows; `Journaled.persists`: and goes on to know.
* `wp_outcome`, **`wp_validateOwnerAndParent`**: what the checks establish.
* `lookup_safe`, `wp_lookup`, **`wp_begin`**, `wp_recordTarget`, `wp_recordMimeType`, **`wp_transition`**,
  **`wp_commit`**, `finishCleanup_safe`: the methods.
-/

namespace HomeCloud

open Concurrent

/-- An operation that `t` has locked stays as it is. -/
theorem HeldOperation.keeps {t : ℕ} {w w' : World} {id : ℕ} {state : FinalizationState}
    {op : FinalizationOperation} (h : HeldOperation t w id state op) (hk : Keeps t w w') :
    HeldOperation t w' id state op :=
  ⟨hk.operations _ _ h.locked h.row, hk.locks _ h.locked, h.state⟩

/-- `t` has the SSD locked, and the operation `id` is `op`, with the given temporary file and object. -/
structure Journaled (t : ℕ) (w : World) (id : ℕ) (op : FinalizationOperation)
    (temporary final : Option Artifact) : Prop where
  held : w.disk.flock = some t
  row : w.db.finalizationOperations.get id = some op
  temporary : w.disk.ssd.temporaries id = temporary
  final : w.disk.ssd.finals id = final

namespace Journaled

variable {t : ℕ} {w w' : World} {id : ℕ} {op op' : FinalizationOperation}
  {temporary final : Option Artifact}

/-- Nobody else works on the operation, whether the connection holds or not. -/
theorem persists (h : Journaled t w id op temporary final) (hp : Persists t w w') : Journaled t w' id op temporary final :=
  ⟨(hp.ssd h.held).1, (hp.operations h.held id).trans h.row, by rw [(hp.ssd h.held).2, h.temporary],
    by rw [(hp.ssd h.held).2, h.final]⟩

theorem attached (h : Journaled t w id op temporary final) (ha : Attached t w w') : Journaled t w' id op temporary final :=
  h.persists ha.persists

/-- The operation that is found is the one that is known. -/
theorem op_eq {state : FinalizationState} (h : Journaled t w id op temporary final) (hh : HeldOperation t w id state op') :
    op' = op :=
  Option.some.inj (hh.row.symm.trans h.row)

/-- After a commit the row is a new one. -/
theorem commit {tx : Tx} (h : Journaled t w id op temporary final)
    (hop : (tx.apply w.db).finalizationOperations.get id = some op') :
    Journaled t ((w.write tx t).release t) id op' temporary final :=
  ⟨h.held, hop, h.temporary, h.final⟩

/-- A commit that writes nothing. -/
theorem commit_none (h : Journaled t w id op temporary final) :
    Journaled t ((w.write .none t).release t) id op temporary final := h.commit h.row

end Journaled

/-- There has been a session `s`, and it is not active any more. -/
def World.Closed (w : World) (s : ℕ) : Prop :=
  s < w.db.uploadSessions.bound ∧ ∀ q, w.db.uploadSessions.get s = some q → q.active = false

theorem World.Closed.persists {t : ℕ} {w w' : World} {s : ℕ} (h : w.Closed s) (hp : Persists t w w') :
    w'.Closed s := by
  refine ⟨lt_of_lt_of_le h.1 hp.sessions.bound, fun q' hq' => ?_⟩
  obtain ⟨q, hq, -⟩ := hp.sessions.old s q' h.1 hq'
  exact hp.inactive s q q' hq hq' (h.2 q hq)

theorem World.Closed.of_completed {w : World} {s : ℕ} {q : UploadSession}
    (hq : w.db.uploadSessions.get s = some q) (hs : q.status = .completed) : w.Closed s := by
  refine ⟨Table.lt_bound hq, fun q' hq' => ?_⟩
  cases hq.symm.trans hq'
  exact UploadSession.active_eq_false.mpr (.inl hs)

/-- The trigger lets a cleanup pass only when file and session are there as the operation says. -/
theorem Db.completed_of_cleaned {new : Db} {op op' : FinalizationOperation}
    (h : new.operationUpdated op op' = true) (hne : op'.cleanupState ≠ op.cleanupState) :
    new.completed op' = true := by
  simp only [Db.operationUpdated, Bool.and_eq_true, Bool.or_eq_true, decide_eq_true_eq] at h
  obtain ⟨-, hmime | ⟨-, htarget | ⟨-, hcleaned | hmoved⟩⟩⟩ := h
  · exact absurd hmime.2 hne
  · exact absurd htarget.2 hne
  · exact hcleaned.2
  · exact absurd hmoved.1.1 hne

/-- The session of an operation that can be cleaned is completed. -/
theorem finishCleanup_completed {db : Db} {id : ℕ} {op : FinalizationOperation}
    (hop : db.finalizationOperations.get id = some op) (hpending : op.cleanupState ≠ .cleaned)
    (h : db.triggers ((JournalTx.finishCleanup id op.sessionId).apply db) = true) {s : UploadSession}
    (hs : db.uploadSessions.get op.sessionId = some s) : s.status = .completed := by
  have hnew : ((JournalTx.finishCleanup id op.sessionId).apply db).finalizationOperations.get id =
      some { op with cleanupState := .cleaned } := by
    simp [JournalTx.apply, Db.updateOperation, Db.updateSession, hop]
  have hsession : ((JournalTx.finishCleanup id op.sessionId).apply db).uploadSessions.get op.sessionId =
      some { s with chunks := [] } := by
    simp [JournalTx.apply, Db.updateOperation, Db.updateSession, hs]
  have hguard : db.operationGuard ((JournalTx.finishCleanup id op.sessionId).apply db) id = true :=
    (Db.triggers_operation h).1
  simp only [Db.operationGuard, hop, hnew, Bool.or_eq_true, decide_eq_true_eq] at hguard
  have hne : op ≠ { op with cleanupState := .cleaned } := fun he =>
    hpending (congrArg FinalizationOperation.cleanupState he)
  have hcompleted := Db.completed_of_cleaned (hguard.resolve_left hne) (Ne.symm hpending)
  simp only [Db.completed, hsession, Option.any_some, Bool.and_eq_true, decide_eq_true_eq] at hcompleted
  exact hcompleted.2

namespace FinalizationStore

section

variable {t : ℕ} {w : World} {id : ℕ} {op : FinalizationOperation}
  {temporary final : Option Artifact}

/-! ## Checks -/

theorem wp_lockOperation {Q : Option FinalizationOperation → World → Prop}
    (h : ∀ w' r, Rely t w w' → Inv w' → w'.db.finalizationOperations.get id = r →
      (r.isSome → w'.locks (.operation id) = some t) → Q r w') :
    After t (lockOperation id) Q w :=
  wp_selectForUpdate fun w' hr hi hk =>
    h w' _ hr hi rfl fun hs => hk (by rwa [Db.row, Option.isSome_map])

/-- The operation that is found is locked. -/
theorem wp_findOperation {α : Type} {e : Err} {p : FinalizationOperation → Bool}
    {next : FinalizationOperation → Op α} {Q : α → World → Prop}
    (h : ∀ w' op, Rely t w w' → Inv w' → HeldOperation t w' id op.state op → p op = true →
      After t (next op) Q w') :
    After t (do
      let row ← lockOperation id
      let op ← require e (row.filter p)
      next op) Q w := by
  rw [After, wp_bind]
  refine wp_lockOperation fun w₁ row h₁ hi hrow hl => ?_
  rw [wp_bind]
  refine wp_require fun op hop => ?_
  obtain ⟨rfl, hp⟩ := Option.filter_eq_some_iff.mp hop
  exact h w₁ op h₁ hi ⟨hrow, hl rfl, rfl⟩ hp

theorem wp_requireDurability {Q : Unit → World → Prop} (h : ∀ w', Rely t w w' → Inv w' → Q () w') :
    After t requireDurability Q w := by
  unfold requireDurability
  rw [After, wp_bind]
  exact wp_query fun w₁ h₁ hi => wp_mayFail (h w₁ h₁ hi)

theorem wp_validateBinding {binding : FinalizationBinding} {Q : Unit → World → Prop}
    (h : binding.Valid → Q () w) : After t (validateBinding binding) Q w := by
  unfold validateBinding
  rw [After, wp_bind]
  refine wp_assert fun hlocation => wp_assert fun hplacement => ?_
  simp only [Bool.and_eq_true, decide_eq_true_eq] at hplacement
  exact h ⟨of_decide_eq_true hlocation, hplacement.1.1, hplacement.1.2, hplacement.2⟩

/-- **The rows of an operation that is not cleaned agree**, in particular its session. -/
theorem wp_outcome {Q : Option (ℕ × File) → World → Prop}
    (h : ∀ w' file, Rely t w w' → Inv w' → (op.cleanupState ≠ .cleaned →
      ∃ s, w'.db.uploadSessions.get op.sessionId = some s ∧ sessionAgrees op s = true ∧
        (op.state = .committed → s.status = .completed)) → Q file w') :
    After t (outcome op) Q w := by
  unfold outcome
  rw [After, wp_bind]
  refine wp_validateBinding fun _ => ?_
  rw [wp_bind]
  refine wp_assert fun _ => ?_
  rw [wp_bind]
  refine wp_assert fun _ => ?_
  rw [wp_bind]
  refine wp_query fun w₁ h₁ hi₁ => ?_
  have hfound : ∀ {o : Option UploadSession} {p : UploadSession → Bool},
      o.any (fun s => sessionAgrees op s && p s) = true →
        ∃ s, o = some s ∧ sessionAgrees op s = true ∧ p s = true := by
    intro o p ho
    obtain ⟨s, hs, hagrees⟩ := (Option.any_eq_true ..).mp ho
    exact ⟨s, hs, Bool.and_eq_true_iff.mp hagrees⟩
  split_ifs with hcleaned
  · exact h w₁ _ h₁ hi₁ fun hn => absurd hcleaned hn
  -- What is checked of the session depends on the state, but both checks find it.
  all_goals
    rw [wp_bind]
    refine wp_query fun w₂ h₂ hi₂ => ?_
    rw [wp_bind]
    refine wp_assert fun hagrees => ?_
    obtain ⟨s, hs, ha, hdone⟩ := hfound hagrees
    rw [wp_bind]
    refine wp_assert fun _ => h w₂ _ (h₁.trans h₂) hi₂ fun _ => ⟨s, hs, ha, fun hc => ?_⟩
    first
      | exact of_decide_eq_true hdone
      | exact absurd hc ‹_›

/-- **The owner is locked.** -/
theorem wp_validateOwnerAndParent {userId : ℕ} {parentId : Option ℕ} {Q : User → World → Prop}
    (h : ∀ w' owner, Rely t w w' → Inv w' → w'.db.users.get userId = some owner →
      w'.locks (.user userId) = some t → Q owner w') :
    After t (validateOwnerAndParent userId parentId) Q w := by
  unfold validateOwnerAndParent
  rw [After, wp_bind]
  refine wp_lockUser fun w₁ row h₁ hi₁ hrow hl => ?_
  rw [wp_bind]
  refine wp_require fun owner howner => ?_
  obtain ⟨rfl, -⟩ := Option.filter_eq_some_iff.mp howner
  cases parentId with
  | none => exact h w₁ owner h₁ hi₁ hrow (hl rfl)
  | some p =>
    dsimp only
    rw [wp_bind]
    refine wp_lockFolder fun w₂ r h₂ hi₂ _ _ => ?_
    rw [wp_bind]
    exact wp_assert fun _ => h w₂ owner (h₁.trans h₂) hi₂ (h₂.keeps.users _ _ (hl rfl) hrow)
      (h₂.keeps.locks _ (hl rfl))

theorem sessionAgrees_binds {s : UploadSession} (h : sessionAgrees op s = true) : op.Binds s := by
  simp only [sessionAgrees, Bool.and_eq_true, decide_eq_true_eq] at h
  obtain ⟨⟨⟨⟨⟨⟨⟨⟨⟨huser, hname⟩, hparent⟩, hsize⟩, -⟩, -⟩, -⟩, -⟩, -⟩, -⟩ := h
  exact ⟨huser, hname, hparent, hsize⟩

theorem sessionAgrees_workspace {s : UploadSession} (h : sessionAgrees op s = true) :
    s.workspaceId = .ssd := by
  simp only [sessionAgrees, matchesSessionBinding, Bool.and_eq_true, decide_eq_true_eq] at h
  exact h.2.1.1

theorem sessionAgrees_full {s : UploadSession} (h : sessionAgrees op s = true) :
    s.uploadedCount = s.totalChunks ∧ s.accountingInitialized = true := by
  simp only [sessionAgrees, Bool.and_eq_true, decide_eq_true_eq] at h
  obtain ⟨⟨⟨⟨⟨-, htotal⟩, hcount⟩, -⟩, hinit⟩, -⟩ := h
  exact ⟨hcount.trans htotal.symm, hinit⟩

/-! ## Methods -/

theorem lookup_safe : Safe contract t (lookup id) w := by
  unfold lookup
  refine wp_transaction ?_
  rw [After, wp_bind]
  refine wp_lockOperation fun w₁ row _ _ _ _ => ?_
  rw [wp_bind]
  refine wp_require fun op _ => ?_
  rw [wp_bind]
  exact wp_outcome fun _ _ _ _ _ => .none

/-- **What `lookup` finds** while the SSD is locked. -/
theorem wp_lookup_held (hl : w.disk.flock = some t) :
    After t (lookup id) (fun r w' =>
      Journaled t w' id r.1 (w.disk.ssd.temporaries id) (w.disk.ssd.finals id) ∧
      w.db.finalizationOperations.get id = some r.1 ∧
      (r.1.cleanupState ≠ .cleaned → r.1.state = .committed → w'.Closed r.1.sessionId)) w := by
  unfold lookup
  refine wp_transaction_post ?_
  rw [After, wp_bind]
  refine wp_lockOperation fun w₁ row h₁ _ hrow _ => ?_
  rw [wp_bind]
  refine wp_require fun op hop => ?_
  subst hop
  have hj₁ : Journaled t w₁ id op (w.disk.ssd.temporaries id) (w.disk.ssd.finals id) := by
    obtain ⟨hl₁, hf₁⟩ := h₁.persists.ssd hl
    exact ⟨hl₁, hrow, by rw [hf₁], by rw [hf₁]⟩
  rw [wp_bind]
  refine wp_outcome fun w₂ _ h₂ _ hsession => ⟨.none, fun w₃ h₃ _ _ _ => ?_⟩
  refine ⟨(hj₁.persists (h₂.trans h₃).persists).commit_none, ?_, fun hpending hcommitted => ?_⟩
  · exact (h₁.persists.operations hl id).symm.trans hrow
  · obtain ⟨s, hs, -, hdone⟩ := hsession hpending
    have hclosed : w₃.Closed op.sessionId :=
      World.Closed.persists (.of_completed hs (hdone hcommitted)) h₃.persists
    exact hclosed

/-- It finds the operation that is known. -/
theorem wp_lookup (hj : Journaled t w id op temporary final) :
    After t (lookup id) (fun r w' => Journaled t w' id op temporary final ∧ r.1 = op ∧
      (op.cleanupState ≠ .cleaned → op.state = .committed → w'.Closed op.sessionId)) w := by
  refine wp_mono (fun r w' hr => ?_) (fun _ _ _ => trivial) (wp_lookup_held hj.held)
  obtain ⟨hj', hrow, hclosed⟩ := hr
  obtain rfl : r.1 = op := Option.some.inj (hrow.symm.trans hj.row)
  rw [hj.temporary, hj.final] at hj'
  exact ⟨hj', rfl, hclosed⟩

/-- **The identity of the temporary file is recorded.** -/
theorem wp_recordTarget {a : Artifact} (hj : Journaled t w id op temporary final) (ha : temporary = some a) :
    After t (recordTarget id (op.identify a)) (fun _ w' =>
      op.state = .assembling ∧ Journaled t w' id { op with targetIdentity := some (op.identify a) } temporary final) w := by
  unfold recordTarget
  refine wp_transaction_post ?_
  rw [After, wp_bind]
  refine wp_requireDurability fun w₁ h₁ _ => wp_findOperation fun w₂ found h₂ _ hheld hp => ?_
  have hj₂ := hj.persists (h₁.trans h₂).persists
  obtain rfl := hj₂.op_eq hheld
  simp only [Bool.and_eq_true, decide_eq_true_eq] at hp
  cases hrecorded : found.targetIdentity with
  | none =>
    refine ⟨.intro fun w₃ h₃ _ _ => ?_, fun w₃ h₃ _ _ _ => ⟨hp.1, ?_⟩⟩
    · have hj₃ := hj₂.persists h₃.persists
      exact ⟨hj₃.held, found, a, hp.1 ▸ hheld.keeps h₃.keeps, by rw [hj₃.temporary, ha], rfl⟩
    · have hj₃ := hj₂.persists h₃.persists
      exact hj₃.commit (by simp [Tx.apply, JournalTx.apply, hj₃.row])
  | some recorded =>
    dsimp only
    rw [After, wp_bind]
    refine wp_assert fun hsame => ⟨.none, fun w₃ h₃ _ _ _ => ⟨hp.1, ?_⟩⟩
    obtain rfl := of_decide_eq_true hsame
    have hop : { found with targetIdentity := some (found.identify a) } = found := by rw [← hrecorded]
    rw [hop]
    exact (hj₂.persists h₃.persists).commit_none

/-- **The MIME type is recorded**, which is no part of what the files are. -/
theorem wp_recordMimeType {mimeType : JsString} (hj : Journaled t w id op temporary final) :
    After t (recordMimeType id mimeType) (fun _ w' => op.state = .verified ∧
      ∃ mimeType, Journaled t w' id { op with mimeType := mimeType, mimeTypeCheckpointed := true } temporary final) w := by
  unfold recordMimeType
  rw [After, wp_bind]
  refine wp_assert fun _ => wp_transaction_post ?_
  rw [After, wp_bind]
  refine wp_requireDurability fun w₁ h₁ _ => wp_findOperation fun w₂ found h₂ _ hheld hp => ?_
  have hj₂ := hj.persists (h₁.trans h₂).persists
  obtain rfl := hj₂.op_eq hheld
  have hstate : found.state = .verified := of_decide_eq_true hp
  rw [After, wp_bind]
  refine wp_outcome fun w₃ _ h₃ _ _ => ?_
  split_ifs with hrecorded
  · rw [wp_bind]
    refine wp_assert fun _ => ⟨.none, fun w₄ h₄ _ _ _ => ⟨hstate, found.mimeType, ?_⟩⟩
    have hop : { found with mimeTypeCheckpointed := true } = found := by rw [← hrecorded]
    rw [hop]
    exact (hj₂.persists (h₃.trans h₄).persists).commit_none
  · refine ⟨.intro fun w₄ h₄ _ _ => ?_, fun w₄ h₄ _ _ _ => ⟨hstate, mimeType, ?_⟩⟩
    · exact ⟨(hj₂.persists (h₃.trans h₄).persists).held, found, hstate ▸ hheld.keeps (h₃.trans h₄).keeps⟩
    · have hj₄ := hj₂.persists (h₃.trans h₄).persists
      exact hj₄.commit (by simp [Tx.apply, JournalTx.apply, hj₄.row])

/-- **The operation moves on** when its files are as the new state says. -/
theorem wp_transition {source : FinalizationState} {target : {s : FinalizationState // s ≠ .committed}}
    (hj : Journaled t w id op temporary final)
    (ho : { op with state := target.val }.Objects temporary final) :
    After t (transition id source target) (fun _ w' =>
      op.state = source ∧ Journaled t w' id { op with state := target.val } temporary final) w := by
  unfold transition
  refine wp_transaction_post ?_
  rw [After, wp_bind]
  refine wp_requireDurability fun w₁ h₁ _ => ?_
  rw [wp_bind]
  refine wp_lockOperation fun w₂ row h₂ _ hrow hl => ?_
  have hj₂ := hj.persists (h₁.trans h₂).persists
  obtain rfl := hrow.symm.trans hj₂.row
  rw [wp_bind]
  refine wp_assert fun hsource => ?_
  have hstate : op.state = source := of_decide_eq_true hsource
  refine ⟨.intro fun w₃ h₃ _ _ => ?_, fun w₃ h₃ _ _ _ => ⟨hstate, ?_⟩⟩
  · have hj₃ := hj₂.persists h₃.persists
    refine ⟨hj₃.held, op, source, HeldOperation.keeps ⟨hrow, hl rfl, hstate⟩ h₃.keeps, target.property, ?_⟩
    rw [hj₃.temporary, hj₃.final]
    exact ho
  · have hj₃ := hj₂.persists h₃.persists
    exact hj₃.commit (by simp [Tx.apply, JournalTx.apply, hj₃.row])

theorem finishCleanup_safe (hl : w.disk.flock = some t) : Safe contract t (finishCleanup id) w := by
  unfold finishCleanup
  refine wp_transaction ?_
  rw [After, wp_bind]
  refine wp_requireDurability fun w₁ h₁ _ => wp_findOperation fun w₂ op h₂ _ hheld hp => ?_
  split_ifs with hcleaned
  · exact .none
  rw [After, wp_bind]
  refine wp_outcome fun w₃ _ h₃ _ hsession => ?_
  obtain ⟨s, hs, hagrees, -⟩ := hsession hcleaned
  rw [wp_bind]
  refine wp_lockSession fun w₄ row h₄ _ hrow hlocked => Ready.intro fun w₅ h₅ _ hallowed => ?_
  have hheld₅ : HeldOperation t w₅ id .committed op :=
    of_decide_eq_true hp ▸ hheld.keeps ((h₃.trans h₄).trans h₅).keeps
  have hflock := ((((h₁.trans h₂).trans h₃).trans h₄).trans h₅).persists.ssd hl
  refine ⟨hflock.1, op, hheld₅, rfl, fun hsome => ?_, fun q hq => ?_⟩
  · -- A session that is there now was there when it was locked.
    obtain ⟨q, hq⟩ := Option.isSome_iff_exists.mp hsome
    obtain ⟨q₄, hq₄, -⟩ := h₅.keeps.grows.sessions.old _ _
      (lt_of_lt_of_le (Table.lt_bound hs) h₄.keeps.grows.sessions.bound) hq
    exact h₅.keeps.locks _ (hlocked (by rw [← hrow, hq₄]; rfl))
  · obtain ⟨q₃, hq₃, hsame⟩ := (h₄.trans h₅).keeps.grows.sessions.old _ _ (Table.lt_bound hs) hq
    cases hs.symm.trans hq₃
    refine ⟨hsame.workspaceId.trans (sessionAgrees_workspace hagrees), ?_⟩
    exact finishCleanup_completed hheld₅.row hcleaned (Bool.and_eq_true_iff.mp hallowed).2 hq

/-- **A session is reserved for a new operation.** -/
theorem wp_begin {userId uploadId expectedSha256 : ℕ} {binding : FinalizationBinding}
    (hl : w.disk.flock = some t) :
    After t («begin» id userId uploadId expectedSha256 binding) (fun op w' =>
      Journaled t w' id op none none ∧ op.state = .assembling ∧ op.targetIdentity = none) w := by
  unfold «begin»
  rw [After, wp_bind]
  refine wp_assert fun hrequest => ?_
  rw [wp_bind]
  refine wp_validateBinding fun hvalid => ?_
  rw [wp_bind]
  refine wp_assert fun hpaths => wp_transaction_post ?_
  rw [After, wp_bind]
  refine wp_requireDurability fun w₁ h₁ _ => ?_
  rw [wp_bind]
  refine wp_lockSession fun w₂ row h₂ _ hrow hlocked => ?_
  rw [wp_bind]
  refine wp_require fun session hsession => ?_
  obtain ⟨rfl, hwhere⟩ := Option.filter_eq_some_iff.mp hsession
  rw [wp_bind]
  refine wp_query fun w₃ h₃ _ => ?_
  rw [wp_bind]
  refine wp_assert fun hcomplete => ?_
  rw [wp_bind]
  refine wp_query fun w₄ h₄ _ => ?_
  rw [wp_bind]
  refine wp_assert fun _ => ?_
  rw [wp_bind]
  refine wp_assert fun _ => ?_
  rw [wp_bind]
  refine wp_validateOwnerAndParent fun w₅ _ h₅ _ _ _ => ?_
  have hr₅ : Rely t w₂ w₅ := (h₃.trans h₄).trans h₅
  have hl₅ := (((h₁.trans h₂).trans hr₅).persists.ssd hl).1
  refine ⟨.intro fun w₆ h₆ _ _ => ⟨(h₆.persists.ssd hl₅).1, ?_⟩, fun w₆ h₆ _ hc _ => ?_⟩
  · have hk : Keeps t w₂ w₆ := (hr₅.trans h₆).keeps
    simp only [Bool.and_eq_true, decide_eq_true_eq] at hrequest hwhere hcomplete hpaths
    obtain ⟨⟨hbinding, hmanifest⟩, -⟩ := hcomplete
    simp only [manifestComplete, Bool.and_eq_true, decide_eq_true_eq] at hmanifest
    obtain ⟨⟨⟨⟨⟨⟨⟨⟨hactive, hinit⟩, -⟩, hsafe⟩, -⟩, -⟩, -⟩, hcount⟩, hsize⟩ := hmanifest
    simp only [matchesSessionBinding, Bool.and_eq_true, decide_eq_true_eq] at hbinding
    refine ⟨session, hk.sessions _ _ (hlocked rfl) hrow, hk.locks _ (hlocked rfl), hactive,
      ⟨hwhere.1, rfl, rfl, rfl⟩, ⟨hbinding.1.1, hbinding.1.2, rfl, rfl, hinit, hcount, hsize, rfl⟩,
      ⟨hrequest.1, hrequest.2, hsafe, hvalid, hpaths.1⟩, ?_⟩
    · cases htarget : binding.target with
      | mk location key =>
        have hlocation := hvalid.location
        rw [htarget] at hlocation hpaths
        cases hlocation
        cases hpaths.2
        rfl
  · -- There has been no such operation, so it has no files.
    have hnew := (Bool.and_eq_true_iff.mp (Bool.and_eq_true_iff.mp hc.allowed).1).1
    obtain ⟨htemporary, hfinal⟩ := hc.inv.disk.backed.unused id (Option.isNone_iff_eq_none.mp hnew)
    exact ⟨⟨(h₆.persists.ssd hl₅).1, Table.get_put_self .., htemporary, hfinal⟩, rfl, rfl⟩

/-- **The file of a published operation is committed.** -/
theorem wp_commit (hj : Journaled t w id op temporary final) :
    After t (commit id) (fun _ w' => ∃ op', Journaled t w' id op' temporary final ∧
      op'.cleanupState = op.cleanupState) w := by
  unfold commit
  refine wp_transactionWith_post ?_
  rw [After, wp_bind]
  refine wp_requireDurability fun w₁ h₁ _ => wp_findOperation fun w₂ found h₂ hi₂ hheld hp => ?_
  have hj₂ := hj.persists (h₁.trans h₂).persists
  obtain rfl := hj₂.op_eq hheld
  have htarget := hi₂.operations id found hheld.row
  split_ifs with hcommitted
  · rw [After, wp_bind]
    refine wp_outcome fun w₃ _ h₃ _ _ => ?_
    rw [wp_bind]
    exact wp_require fun _ _ => ⟨.none, fun w₄ h₄ _ _ =>
      ⟨found, (hj₂.persists (h₃.trans h₄).persists).commit_none, rfl⟩⟩
  have hpublished : found.state = .published := by
    simp only [Bool.or_eq_true, decide_eq_true_eq] at hp
    exact hp.resolve_left hcommitted
  rw [After, wp_bind]
  refine wp_assert fun _ => ?_
  rw [wp_bind]
  refine wp_outcome fun w₃ _ h₃ _ _ => ?_
  rw [wp_bind]
  refine wp_lockSession fun w₄ row h₄ _ hrow hl => ?_
  rw [wp_bind]
  refine wp_validateBinding fun _ => ?_
  rw [wp_bind]
  refine wp_assert fun hsession => ?_
  obtain ⟨s, rfl, hs⟩ := (Option.any_eq_true ..).mp hsession
  obtain ⟨hactive, hagrees⟩ := Bool.and_eq_true_iff.mp hs
  rw [wp_bind]
  refine wp_validateOwnerAndParent fun w₅ owner h₅ _ howner hlocked => ?_
  rw [wp_bind]
  refine wp_assert fun hquota => ?_
  rw [wp_bind]
  refine wp_query fun w₆ h₆ _ => ?_
  rw [wp_bind]
  refine wp_assert fun _ => ?_
  rw [wp_bind]
  refine wp_allocateNamespaceName_continues fun w₇ choice hk₇ _ hchosen => ?_
  have hj₇ : Journaled t w₇ id found temporary final :=
    hj₂.persists ((((h₃.trans h₄).trans h₅).trans h₆).persists.trans hk₇.persists)
  refine ⟨.intro fun w₈ h₈ _ _ => ⟨(hj₇.persists h₈.persists).held, ?_⟩, fun w₈ h₈ _ _ => ?_⟩
  swap
  · have hj₈ := hj₇.persists h₈.persists
    exact ⟨{ found with state := .committed, fileId := some w₈.db.files.bound },
      hj₈.commit (by simp [Tx.apply, JournalTx.apply, Db.charge, Db.updateSession, hj₈.row]), rfl⟩
  have hk₅ : Keeps t w₅ w₈ := (h₆.keeps.trans hk₇.keeps).trans h₈.keeps
  have hk₄ : Keeps t w₄ w₈ := h₅.keeps.trans hk₅
  have hk₂ : Keeps t w₂ w₈ := (h₃.trans h₄).keeps.trans hk₄
  have hrow₈ := hk₄.sessions _ _ (hl rfl) hrow
  have hbinds := sessionAgrees_binds hagrees
  have howner₈ := hk₅.users _ _ hlocked howner
  exact ⟨found, s,
    { operation := hpublished ▸ hheld.keeps hk₂
      session := rfl
      row := hrow₈
      locked := hk₄.locks _ (hl rfl)
      active := hactive
      workspace := sessionAgrees_workspace hagrees
      full := sessionAgrees_full hagrees
      binds := hbinds
      added :=
        { plain := ⟨rfl, rfl⟩
          live := rfl
          charged :=
            { user := by rw [show (committedFile found choice).userId = found.userId from rfl, howner₈]; rfl
              locked := fun _ => hk₅.locks _ hlocked
              fits := fun _ => ⟨owner, howner₈, of_decide_eq_true hquota⟩ }
          chosen := hchosen.rely h₈
          placed :=
            { attempt := fun s' a h => by
                rw [show (committedFile found choice).placement = some found.binding.target from rfl,
                  htarget] at h
                simp [finalPlacement] at h
              owner := fun s' h => by
                cases h
                exact ⟨s, hrow₈, hbinds.1.symm⟩ } }
      owner := rfl
      size := rfl
      upload := rfl
      parent := rfl }⟩

end

end FinalizationStore

end HomeCloud
