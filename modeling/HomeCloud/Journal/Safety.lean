import HomeCloud.Journal.Changes

/-!
# The journal is safe

The triggers and the checks of the store together keep the journal in order, and an upload for its operation.

* `FinalizationOperation.Manifest`, `Db.Reserves`, `JournalSafe`: what holds of the journal.
* **`JournalSafe.commit`**: every commit keeps it.
* `FinalizationOperation.Forward`, **`Committing.forward`**: an operation only moves on.
-/

namespace HomeCloud

open Concurrent

/-! ## What holds of the journal -/

/-- The steps of the journal that are done in a state. -/
def FinalizationState.rank : FinalizationState → ℕ
  | .assembling => 0
  | .verified => 1
  | .publishing => 2
  | .published => 3
  | .committed => 4

theorem FinalizationState.rank_step {a b : FinalizationState} (h : a.step b = true) :
    b.rank = a.rank + 1 := by
  cases a <;> cases b <;> first | rfl | cases h

/-- The chunk rows that the operation has taken over are those of its layout, each once. -/
structure FinalizationOperation.Manifest (op : FinalizationOperation) : Prop where
  laidOut : LaidOut op.totalSize op.chunkSize op.totalChunks
  length : op.chunks.length = op.totalChunks
  nodup : (op.chunks.map (·.chunkIndex)).Nodup
  fits : ∀ c ∈ op.chunks, c.chunkIndex < op.totalChunks ∧
    c.byteSize = chunkLength op.totalSize op.chunkSize op.totalChunks c.chunkIndex

/-- The operation has its upload `s` for itself: nobody has touched it before the commit, and after it the
session is completed and the file is there as it was committed. -/
structure Db.Reserves (db : Db) (op : FinalizationOperation) (s : UploadSession) : Prop where
  row : db.uploadSessions.get op.sessionId = some s
  binds : op.Binds s
  takes : op.Takes s
  active : op.state ≠ .committed → s.active = true
  completed : op.state = .committed → s.status = .completed ∧ ∃ f r, op.fileId = some f ∧
    db.files.get f = some r ∧ r.userId = op.userId ∧ r.uploadId = some op.sessionId ∧
      op.describes r = true ∧ r.mimeType = some op.mimeType

/-- The journal is in order. -/
structure JournalSafe (db : Db) : Prop where
  committed : ∀ id op, db.finalizationOperations.get id = some op →
    (op.state = .committed ↔ op.fileId.isSome)
  cleaned : ∀ id op, db.finalizationOperations.get id = some op → op.cleanupState = .cleaned →
    op.state = .committed
  sole : ∀ i j op op', db.finalizationOperations.get i = some op →
    db.finalizationOperations.get j = some op' → op.cleanupState = .pending →
      op'.cleanupState = .pending → i = j
  once : ∀ i j op op', db.finalizationOperations.get i = some op →
    db.finalizationOperations.get j = some op' → op.sessionId = op'.sessionId → i = j
  identified : ∀ id op, db.finalizationOperations.get id = some op → op.state ≠ .assembling →
    op.targetIdentity.isSome
  checkpointed : ∀ id op, db.finalizationOperations.get id = some op → 2 ≤ op.state.rank →
    op.mimeTypeCheckpointed = true
  manifest : ∀ id op, db.finalizationOperations.get id = some op → op.Manifest
  reserved : ∀ id op, db.finalizationOperations.get id = some op → op.cleanupState = .pending →
    ∃ s, db.Reserves op s

theorem JournalSafe.empty (users : Table User) : JournalSafe (.empty users) where
  committed _ _ h := by simp [Db.empty] at h
  cleaned _ _ h := by simp [Db.empty] at h
  sole _ _ _ _ h := by simp [Db.empty] at h
  once _ _ _ _ h := by simp [Db.empty] at h
  identified _ _ h := by simp [Db.empty] at h
  checkpointed _ _ h := by simp [Db.empty] at h
  manifest _ _ h := by simp [Db.empty] at h
  reserved _ _ h := by simp [Db.empty] at h

/-- An operation that is not committed is pending. -/
theorem JournalSafe.pending {db : Db} {id : ℕ} {op : FinalizationOperation} (h : JournalSafe db)
    (hop : db.finalizationOperations.get id = some op) (hs : op.state ≠ .committed) :
    op.cleanupState = .pending := by
  cases hc : op.cleanupState with
  | pending => rfl
  | cleaned => exact absurd (h.cleaned id op hop hc) hs

/-! ## What the indexes say -/

section Indexes

variable {db : Db} {id i j : ℕ} {op op' : FinalizationOperation}

/-- What the indexes and the checks say of the operation `id`. -/
theorem Db.journalIndexes_row (h : db.journalIndexes = true) (hop : db.finalizationOperations.get id = some op) :
    (op.state = .committed ↔ op.fileId.isSome) ∧ (op.cleanupState = .pending ∨ op.state = .committed) ∧
      ∀ j op', db.finalizationOperations.get j = some op' → op'.sessionId = op.sessionId → j = id := by
  simp only [Db.journalIndexes, Bool.and_eq_true, List.all_eq_true] at h
  have hid : id ∈ db.finalizationOperations.ids := by
    simp [Table.ids, hop, Table.lt_bound hop]
  have hrow := h.2 id hid
  simp only [hop, Option.all_some, Bool.and_eq_true, Bool.or_eq_true, decide_eq_true_eq] at hrow
  obtain ⟨⟨⟨hcommitted, hcleaned⟩, -⟩, hunique⟩ := hrow
  refine ⟨?_, hcleaned, fun j op' hop' hs => ?_⟩
  · rw [beq_iff_eq] at hcommitted
    rw [← hcommitted, decide_eq_true_eq]
  · by_contra hne
    have hmem : j ∈ db.finalizationOperations.select fun j op' => j ≠ id &&
        (op'.sessionId = op.sessionId || (op.fileId.isSome && op'.fileId = op.fileId)) :=
      Table.mem_select.mpr ⟨op', hop', by simp [hne, hs]⟩
    rw [List.isEmpty_iff.mp hunique] at hmem
    exact absurd hmem List.not_mem_nil

/-- At most one operation is pending. -/
theorem Db.journalIndexes_sole (h : db.journalIndexes = true) (hi : db.finalizationOperations.get i = some op)
    (hj : db.finalizationOperations.get j = some op') (hpi : op.cleanupState = .pending)
    (hpj : op'.cleanupState = .pending) : i = j := by
  simp only [Db.journalIndexes, Bool.and_eq_true, decide_eq_true_eq] at h
  have hmem : ∀ {i : ℕ} {op : FinalizationOperation}, db.finalizationOperations.get i = some op →
      op.cleanupState = .pending →
        i ∈ db.finalizationOperations.select fun _ op => op.cleanupState = .pending :=
    fun hi hp => Table.mem_select.mpr ⟨_, hi, by simp [hp]⟩
  have hlength := h.1
  have hmi := hmem hi hpi
  have hmj := hmem hj hpj
  match hl : db.finalizationOperations.select fun _ op => op.cleanupState = .pending with
  | [] =>
    rw [hl] at hmi
    exact absurd hmi List.not_mem_nil
  | [k] =>
    rw [hl, List.mem_singleton] at hmi hmj
    exact hmi.trans hmj.symm
  | _ :: _ :: _ =>
    rw [hl] at hlength
    simp at hlength

/-- The pending operation of an upload is the one that is found. -/
theorem Db.pendingOperation_eq (h : db.journalIndexes = true) {p : FinalizationOperation → Bool}
    (hop : db.finalizationOperations.get id = some op) (hpending : op.cleanupState = .pending)
    (hp : p op = true) : db.pendingOperation p = some (id, op) := by
  cases hfind : db.pendingOperation p with
  | none =>
    have hnone := Table.find_none hfind hop
    simp [hpending, hp] at hnone
  | some found =>
    obtain ⟨j, op'⟩ := found
    obtain ⟨hop', hp'⟩ := Table.find_some hfind
    simp only [Bool.and_eq_true, decide_eq_true_eq] at hp'
    obtain rfl := Db.journalIndexes_sole h hop' hop hp'.1 hpending
    cases hop'.symm.trans hop
    rfl

end Indexes

/-! ## An operation moves on -/

/-- What a run makes of an operation: it moves on, and what has once been recorded stays. -/
structure FinalizationOperation.Forward (op op' : FinalizationOperation) : Prop where
  immutable : op'.immutablePart = op.immutablePart
  state : op.state.rank ≤ op'.state.rank
  target : op.targetIdentity.isSome → op'.targetIdentity = op.targetIdentity
  mimeType : op.mimeTypeCheckpointed = true →
    op'.mimeType = op.mimeType ∧ op'.mimeTypeCheckpointed = true
  file : op.fileId.isSome → op'.fileId = op.fileId
  cleaned : op.cleanupState = .cleaned → op' = op

theorem FinalizationOperation.Forward.refl (op : FinalizationOperation) : op.Forward op where
  immutable := rfl
  state := le_rfl
  target _ := rfl
  mimeType h := ⟨rfl, h⟩
  file _ := rfl
  cleaned _ := rfl

theorem FinalizationOperation.Forward.trans {op₁ op₂ op₃ : FinalizationOperation} (h : op₁.Forward op₂)
    (h' : op₂.Forward op₃) : op₁.Forward op₃ where
  immutable := h'.immutable.trans h.immutable
  state := h.state.trans h'.state
  target hs := (h'.target (by rwa [h.target hs])).trans (h.target hs)
  mimeType hm := by
    obtain ⟨h1, hm2⟩ := h.mimeType hm
    obtain ⟨h2, hm3⟩ := h'.mimeType hm2
    exact ⟨h2.trans h1, hm3⟩
  file hs := (h'.file (by rwa [h.file hs])).trans (h.file hs)
  cleaned hc := by
    have h1 := h.cleaned hc
    subst h1
    exact h'.cleaned hc

section Commit

variable {t : ℕ} {w : World} {tx : Tx} {id : ℕ} {op op' : FinalizationOperation}

/-- **An update that the triggers let pass moves the operation on.** -/
theorem Db.operationUpdated_forward {new : Db} (h : new.operationUpdated op op' = true)
    (hcommitted : op.state = .committed ↔ op.fileId.isSome)
    (hcleaned : op.cleanupState = .cleaned → op.state = .committed) : op.Forward op' := by
  simp only [Db.operationUpdated, Bool.and_eq_true, Bool.or_eq_true, decide_eq_true_eq] at h
  have huncommitted : op.state ≠ .committed → ¬op.fileId.isSome := fun hs hf => hs (hcommitted.mpr hf)
  obtain ⟨himmutable, hmime | ⟨⟨⟨hmime, hcheckpoint⟩, -⟩, htarget | ⟨htarget, hcleanup | hmoved⟩⟩⟩ := h
  · obtain ⟨⟨⟨⟨⟨⟨hs, hs'⟩, hnot⟩, -⟩, hfile⟩, htarget⟩, hcleanup⟩ := hmime
    exact
      { immutable := himmutable
        state := by rw [hs, hs']
        target := fun _ => htarget
        mimeType := fun hm => by simp [hm] at hnot
        file := fun _ => hfile
        cleaned := fun hc => by cases hs.symm.trans (hcleaned hc) }
  · obtain ⟨⟨⟨⟨⟨hs, hs'⟩, -⟩, hnone⟩, -⟩, -⟩ := htarget
    exact
      { immutable := himmutable
        state := by rw [hs, hs']
        target := fun hsome => by
          rw [Option.isNone_iff_eq_none.mp hnone] at hsome
          cases hsome
        mimeType := fun hm => ⟨hmime, hcheckpoint.trans hm⟩
        file := fun hf => absurd hf (huncommitted fun hc => by cases hs.symm.trans hc)
        cleaned := fun hc => by cases hs.symm.trans (hcleaned hc) }
  · obtain ⟨⟨⟨⟨⟨⟨hs, hs'⟩, hfile⟩, hpending⟩, -⟩, -⟩, -⟩ := hcleanup
    exact
      { immutable := himmutable
        state := by rw [hs, hs']
        target := fun _ => htarget
        mimeType := fun hm => ⟨hmime, hcheckpoint.trans hm⟩
        file := fun _ => hfile
        cleaned := fun hc => by cases hpending.symm.trans hc }
  · obtain ⟨⟨hcleanup, hstep⟩, -⟩ := hmoved
    have hstate : op.state ≠ .committed := fun hs => by
      rw [hs] at hstep
      cases hstep
    exact
      { immutable := himmutable
        state := by rw [FinalizationState.rank_step hstep]; exact Nat.le_succ _
        target := fun _ => htarget
        mimeType := fun hm => ⟨hmime, hcheckpoint.trans hm⟩
        file := fun hf => absurd hf (huncommitted hstate)
        cleaned := fun hc => absurd (hcleaned hc) hstate }

/-- **A commit moves the operations on**, and deletes none. -/
theorem Committing.forward (hc : Committing t w tx) (hj : JournalSafe w.db)
    (hop : w.db.finalizationOperations.get id = some op) :
    ∃ op', (tx.apply w.db).finalizationOperations.get id = some op' ∧ op.Forward op' := by
  obtain ⟨op', hop'⟩ := hc.operation_there hop
  refine ⟨op', hop', ?_⟩
  rcases hc.operation_kept hop hop' with rfl | hupdated
  · exact .refl op
  · exact Db.operationUpdated_forward hupdated (hj.committed id op hop) (hj.cleaned id op hop)

end Commit

/-! ## Commits keep the journal in order -/

section Safety

variable {t : ℕ} {w : World} {tx : Tx} {id : ℕ} {op op' : FinalizationOperation} {old new : Db} {s : ℕ}
  {q : UploadSession}

theorem FinalizationOperation.Manifest.of_immutable (h : op.Manifest)
    (hi : op'.immutablePart = op.immutablePart) : op'.Manifest := by
  have hsize : op'.totalSize = op.totalSize := (congrArg FinalizationOperation.totalSize hi :)
  have hchunk : op'.chunkSize = op.chunkSize := (congrArg FinalizationOperation.chunkSize hi :)
  have htotal : op'.totalChunks = op.totalChunks := (congrArg FinalizationOperation.totalChunks hi :)
  have hchunks : op'.chunks = op.chunks := (congrArg FinalizationOperation.chunks hi :)
  obtain ⟨hlaid, hlength, hnodup, hfits⟩ := h
  refine ⟨?_, ?_, ?_, fun c hc => ?_⟩
  · rwa [hsize, hchunk, htotal]
  · rwa [hchunks, htotal]
  · rwa [hchunks]
  · rw [hsize, hchunk, htotal]
    exact hfits c (hchunks ▸ hc)

/-- A complete session has a manifest. -/
theorem BeginOk.manifest (h : BeginOk t w id op q) (hs : q.Sound) : op.Manifest := by
  obtain ⟨-, -, hactive, ⟨-, -, -, hsize⟩, htakes, -⟩ := h
  have haccounted := hs.accounted hactive htakes.initialized
  have hfits : ∀ c, q.Fits c ↔ c.chunkIndex < op.totalChunks ∧
      c.byteSize = chunkLength op.totalSize op.chunkSize op.totalChunks c.chunkIndex := fun c => by
    rw [UploadSession.Fits, UploadSession.chunkLength, hsize, htakes.chunkSize, htakes.totalChunks]
  refine ⟨?_, ?_, ?_, fun c hc => (hfits c).mp (haccounted.fits c (htakes.chunks ▸ hc))⟩
  · have hlaid := hs.laidOut
    rwa [UploadSession.LaidOut, hsize, htakes.chunkSize, htakes.totalChunks] at hlaid
  · rw [← htakes.chunks, ← haccounted.count, htakes.count, htakes.totalChunks]
  · rw [← htakes.chunks]
    exact haccounted.nodup

theorem FinalizationOperation.Binds.of_immutable (h : op.Binds q) (hi : op'.immutablePart = op.immutablePart) :
    op'.Binds q := by
  obtain ⟨huser, hname, hparent, hsize⟩ := h
  exact ⟨huser.trans (congrArg FinalizationOperation.userId hi).symm,
    hname.trans (congrArg FinalizationOperation.filename hi).symm,
    hparent.trans (congrArg FinalizationOperation.parentId hi).symm,
    hsize.trans (congrArg FinalizationOperation.totalSize hi).symm⟩

theorem FinalizationOperation.Takes.of_immutable (h : op.Takes q) (hi : op'.immutablePart = op.immutablePart) :
    op'.Takes q where
  workspace := h.workspace
  sha256 := h.sha256.trans (congrArg (fun o => some (FinalizationOperation.expectedSha256 o)) hi).symm
  chunkSize := h.chunkSize.trans (congrArg FinalizationOperation.chunkSize hi).symm
  totalChunks := h.totalChunks.trans (congrArg FinalizationOperation.totalChunks hi).symm
  initialized := h.initialized
  count := h.count
  size := h.size
  chunks := h.chunks.trans (congrArg FinalizationOperation.chunks hi).symm

/-- **The triggers leave the session of a pending operation as it is**, unless the operation is committed, which
completes it. -/
theorem Db.reserved_session (ht : old.triggers new = true)
    (hpending : new.pendingOperation (fun o => o.sessionId = s) = some (id, op'))
    (hq : old.uploadSessions.get s = some q) :
    new.uploadSessions.get s = some q ∨ op'.state = .committed ∧ q.active = true ∧
      ∃ q', new.uploadSessions.get s = some q' ∧ q'.status = .completed ∧
        q'.reservedPart = q.reservedPart ∧ q'.chunks = q.chunks := by
  have hguards : old.sessionGuard new s = true ∧ old.chunkGuard new s = true := Db.triggers_session ht
  obtain ⟨hguard, hchunks⟩ := hguards
  simp only [Db.chunkGuard, hpending, Option.isNone_some, Bool.or_false, decide_eq_true_eq, hq] at hchunks
  cases hq' : new.uploadSessions.get s with
  | none => simp [Db.sessionGuard, hq, hq', hpending] at hguard
  | some q' =>
    have hsame : q'.chunks = q.chunks := by simpa [hq'] using hchunks.symm
    simp only [Db.sessionGuard, hq, hq', hpending, Option.all_some, Bool.or_eq_true, Bool.and_eq_true,
      decide_eq_true_eq] at hguard
    rcases hguard with heq | ⟨-, ⟨⟨⟨hcommitted, hactive⟩, hdone⟩, hpart⟩, -⟩
    · left
      have hcolumns : { q' with chunks := q.chunks } = { q with chunks := q.chunks } :=
        congrArg (fun r : UploadSession => { r with chunks := q.chunks }) heq.symm
      rw [show q' = { q' with chunks := q.chunks } by rw [← hsame], hcolumns]
    · exact .inr ⟨hcommitted, hactive, q', rfl, hdone, hpart, hsame⟩

theorem FinalizationOperation.Binds.of_reserved {q' : UploadSession} (h : op.Binds q)
    (hp : q'.reservedPart = q.reservedPart) : op.Binds q' := by
  obtain ⟨huser, hname, hparent, hsize⟩ := h
  exact ⟨(congrArg UploadSession.userId hp).trans huser, (congrArg UploadSession.filename hp).trans hname,
    (congrArg UploadSession.parentId hp).trans hparent, (congrArg UploadSession.totalSize hp).trans hsize⟩

theorem FinalizationOperation.Takes.of_reserved {q' : UploadSession} (h : op.Takes q)
    (hp : q'.reservedPart = q.reservedPart) (hc : q'.chunks = q.chunks) : op.Takes q' where
  workspace := (congrArg UploadSession.workspaceId hp).trans h.workspace
  sha256 := (congrArg UploadSession.expectedSha256 hp).trans h.sha256
  chunkSize := (congrArg UploadSession.chunkSize hp).trans h.chunkSize
  totalChunks := (congrArg UploadSession.totalChunks hp).trans h.totalChunks
  initialized := (congrArg UploadSession.accountingInitialized hp).trans h.initialized
  count := by
    rw [show q'.uploadedCount = q.uploadedCount from (congrArg UploadSession.uploadedCount hp :),
      show q'.totalChunks = q.totalChunks from (congrArg UploadSession.totalChunks hp :), h.count]
  size := by
    rw [show q'.uploadedSize = q.uploadedSize from (congrArg UploadSession.uploadedSize hp :),
      show q'.totalSize = q.totalSize from (congrArg UploadSession.totalSize hp :), h.size]
  chunks := hc.trans h.chunks

/-- A committed operation is changed only when its cleanup has finished. -/
theorem Db.operationUpdated_of_committed (h : new.operationUpdated op op' = true) (hs : op.state = .committed) :
    op'.cleanupState = .cleaned := by
  simp only [Db.operationUpdated, Bool.and_eq_true, Bool.or_eq_true, decide_eq_true_eq, hs] at h
  obtain ⟨-, hmime | ⟨-, htarget | ⟨-, hcleaned | hmoved⟩⟩⟩ := h
  · cases hmime.1.1.1.1.1.1
  · cases htarget.1.1.1.1.1
  · exact hcleaned.1.1.2
  · cases hmoved.1.2

/-- **The triggers leave the file of a pending operation as it is.** -/
theorem Db.reserved_file (ht : old.triggers new = true) (hop : new.finalizationOperations.get id = some op)
    (hpending : op.cleanupState = .pending) {f : ℕ} {r : File} (hf : op.fileId = some f)
    (hr : old.files.get f = some r) : new.files.get f = some r := by
  have hguard : old.fileGuard new f = true := Db.triggers_file ht
  have hfound : new.pendingOperation (·.reserves f r) = some (id, op) :=
    Db.pendingOperation_eq (Db.triggers_indexes ht) hop hpending (by simp [FinalizationOperation.reserves, hf])
  simp only [Db.fileGuard, hr, Option.all_some, hfound, Option.isNone_some, Bool.false_and, Bool.or_false,
    decide_eq_true_eq] at hguard
  exact hguard.symm

/-- The deferred triggers see a commit to its end. -/
theorem Db.commitCheck_committed (h : old.commitCheck new id = true)
    (hop' : new.finalizationOperations.get id = some op') (hne : old.finalizationOperations.get id ≠ some op')
    (hs : op'.state = .committed) (hpending : op'.cleanupState = .pending) :
    (∃ q, new.uploadSessions.get op'.sessionId = some q ∧ q.status = .completed) ∧
      ∃ f r, op'.fileId = some f ∧ new.files.get f = some r ∧ r.userId = op'.userId ∧
        r.uploadId = some op'.sessionId ∧ op'.describes r = true ∧ r.mimeType = some op'.mimeType := by
  simp only [Db.commitCheck, hop', hne, decide_false, Bool.false_or, Bool.and_eq_true, Bool.or_eq_true, hs,
    hpending, ne_eq, not_true_eq_false, decide_eq_true_eq, Db.completed] at h
  obtain ⟨⟨⟨hfile, hsession⟩, hmime⟩, -⟩ := h
  obtain ⟨q, hq, hdone⟩ := (Option.any_eq_true ..).mp hsession
  obtain ⟨r, hr, hdescribes⟩ := (Option.any_eq_true ..).mp hfile
  obtain ⟨f, hf, hget⟩ := Option.bind_eq_some_iff.mp hr
  obtain ⟨r', hr', hm⟩ := (Option.any_eq_true ..).mp hmime
  cases hr.symm.trans hr'
  simp only [Bool.and_eq_true, decide_eq_true_eq] at hdescribes hm hdone
  exact ⟨⟨q, hq, hdone⟩, f, r, hf, hget, hdescribes.1.1, hdescribes.1.2, hdescribes.2, hm⟩

/-- **A commit leaves a pending operation its upload.** -/
theorem JournalSafe.commit_reserved (hj : JournalSafe w.db) (hc : Committing t w tx)
    (hop' : (tx.apply w.db).finalizationOperations.get id = some op') (hpending : op'.cleanupState = .pending) :
    ∃ s, (tx.apply w.db).Reserves op' s := by
  have ht : w.db.triggers (tx.apply w.db) = true := (Bool.and_eq_true_iff.mp hc.allowed).2
  have hfound : (tx.apply w.db).pendingOperation (fun o => o.sessionId = op'.sessionId) = some (id, op') :=
    Db.pendingOperation_eq (Db.triggers_indexes ht) hop' hpending (by simp)
  cases hop : w.db.finalizationOperations.get id with
  | none =>
    obtain ⟨⟨q, hb⟩, hinserted⟩ := hc.operation_begun hop hop'
    have hstate : op'.state = .assembling := by
      simp only [Db.operationInserted, Bool.and_eq_true, decide_eq_true_eq] at hinserted
      exact hinserted.1.1.1.1.1.1
    rcases Db.reserved_session ht hfound hb.row with hq | ⟨hcommitted, -⟩
    · exact ⟨q, hq, hb.binds, hb.takes, fun _ => hb.active, fun h => by cases hstate.symm.trans h⟩
    · cases hstate.symm.trans hcommitted
  | some op =>
    obtain ⟨op₁, hop₁, hforward⟩ := hc.forward hj hop
    cases hop₁.symm.trans hop'
    have hold : op.cleanupState = .pending := by
      cases hcleanup : op.cleanupState with
      | pending => rfl
      | cleaned =>
        rw [hforward.cleaned hcleanup, hcleanup] at hpending
        cases hpending
    obtain ⟨q, hq, hbinds, htakes, hactive, hcompleted⟩ := hj.reserved id op hop hold
    have hs : op'.sessionId = op.sessionId :=
      (congrArg FinalizationOperation.sessionId hforward.immutable :)
    rw [← hs] at hq
    by_cases hcommitted : op.state = .committed
    · -- Nothing changes until the cleanup has finished.
      obtain rfl : op = op' := by
        rcases hc.operation_kept hop hop' with h | hupdated
        · exact h
        · cases hpending.symm.trans (Db.operationUpdated_of_committed hupdated hcommitted)
      obtain ⟨hdone, f, r, hf, hr, hfile⟩ := hcompleted hcommitted
      rcases Db.reserved_session ht hfound hq with hq' | ⟨-, ha, -⟩
      · exact ⟨q, hq', hbinds, htakes, fun h => absurd hcommitted h,
          fun _ => ⟨hdone, f, r, hf, Db.reserved_file ht hop' hpending hf hr, hfile⟩⟩
      · simp [UploadSession.active, hdone] at ha
    · have hcheck := fun hcommitted' : op'.state = .committed =>
        Db.commitCheck_committed (Db.triggers_operation ht).2 hop' (fun h => by
          cases hop.symm.trans h
          exact hcommitted hcommitted') hcommitted' hpending
      have hbinds' := hbinds.of_immutable hforward.immutable
      have htakes' := htakes.of_immutable hforward.immutable
      rcases Db.reserved_session ht hfound hq with hq' | ⟨hcommitted', -, q', hq', hdone, hpart, hchunks⟩
      · refine ⟨q, hq', hbinds', htakes', fun _ => hactive hcommitted, fun hcommitted' => ?_⟩
        obtain ⟨⟨q₁, hq₁, hdone⟩, -⟩ := hcheck hcommitted'
        cases hq'.symm.trans hq₁
        have ha := hactive hcommitted
        simp [UploadSession.active, hdone] at ha
      · exact ⟨q', hq', hbinds'.of_reserved hpart, htakes'.of_reserved hpart hchunks,
          fun h => absurd hcommitted' h, fun _ => ⟨hdone, (hcheck hcommitted').2⟩⟩

theorem JournalSafe.commit_manifest (hj : JournalSafe w.db) (hc : Committing t w tx)
    (hop' : (tx.apply w.db).finalizationOperations.get id = some op') : op'.Manifest := by
  cases hop : w.db.finalizationOperations.get id with
  | none =>
    obtain ⟨⟨q, hb⟩, -⟩ := hc.operation_begun hop hop'
    exact hb.manifest (hc.inv.sessions _ _ hb.row)
  | some op =>
    obtain ⟨op₁, hop₁, hforward⟩ := hc.forward hj hop
    cases hop₁.symm.trans hop'
    exact (hj.manifest id op hop).of_immutable hforward.immutable

/-- An operation has its target identity when it leaves `assembling`, and its MIME type when it leaves
`verified`. -/
theorem JournalSafe.commit_recorded (hj : JournalSafe w.db) (hc : Committing t w tx)
    (hop' : (tx.apply w.db).finalizationOperations.get id = some op') :
    (op'.state ≠ .assembling → op'.targetIdentity.isSome) ∧
      (2 ≤ op'.state.rank → op'.mimeTypeCheckpointed = true) := by
  cases hop : w.db.finalizationOperations.get id with
  | none =>
    obtain ⟨-, hinserted⟩ := hc.operation_begun hop hop'
    simp only [Db.operationInserted, Bool.and_eq_true, decide_eq_true_eq] at hinserted
    rw [hinserted.1.1.1.1.1.1]
    exact ⟨fun h => absurd rfl h, fun h => absurd h (by decide)⟩
  | some op =>
    have hidentified := hj.identified id op hop
    have hcheckpointed := hj.checkpointed id op hop
    rcases hc.operation_kept hop hop' with rfl | hupdated
    · exact ⟨hidentified, hcheckpointed⟩
    have hreserved := fun hpending => hj.commit_reserved hc hop' hpending
    simp only [Db.operationUpdated, Bool.and_eq_true, Bool.or_eq_true, decide_eq_true_eq] at hupdated
    obtain ⟨-, hmime | ⟨⟨⟨-, hcheckpoint⟩, hrecorded⟩, htarget | ⟨htarget, hcleaned | hmoved⟩⟩⟩ := hupdated
    · obtain ⟨⟨⟨⟨⟨⟨hs, hs'⟩, -⟩, -⟩, -⟩, htarget⟩, -⟩ := hmime
      rw [htarget, hs']
      exact ⟨fun _ => hidentified (by rw [hs]; decide), fun h => absurd h (by decide)⟩
    · rw [htarget.1.1.1.1.2]
      exact ⟨fun h => absurd rfl h, fun h => absurd h (by decide)⟩
    · obtain ⟨⟨⟨⟨⟨⟨hs, -⟩, -⟩, -⟩, -⟩, hsome⟩, -⟩ := hcleaned
      exact ⟨fun _ => hsome, fun _ => hcheckpoint.trans (hcheckpointed (by rw [hs]; decide))⟩
    · obtain ⟨⟨hcleanup, hstep⟩, hsome⟩ := hmoved
      refine ⟨fun _ => hsome, fun hrank => ?_⟩
      by_cases hold : 2 ≤ op.state.rank
      · exact hcheckpoint.trans (hcheckpointed hold)
      -- The rename is announced when the MIME type of the upload on the SSD is recorded.
      have hpublishing : op'.state = .publishing := by
        revert hstep hrank hold
        cases op.state <;> cases op'.state <;> decide
      have hpending : op'.cleanupState = .pending := by
        rw [hcleanup]
        cases hc' : op.cleanupState with
        | pending => rfl
        | cleaned =>
          rw [hj.cleaned id op hop hc'] at hold
          exact absurd (by decide) hold
      obtain ⟨q, hq⟩ := hreserved hpending
      rcases hrecorded with (hnot | hm) | hlegacy
      · exact absurd hpublishing hnot
      · exact hm
      · simp [hq.row, hq.takes.workspace] at hlegacy

/-- **Every commit keeps the journal in order.** -/
theorem JournalSafe.commit (hj : JournalSafe w.db) (hc : Committing t w tx) : JournalSafe (tx.apply w.db) := by
  have hindexes : (tx.apply w.db).journalIndexes = true :=
    Db.triggers_indexes (Bool.and_eq_true_iff.mp hc.allowed).2
  exact
    { committed := fun id op hop => (Db.journalIndexes_row hindexes hop).1
      cleaned := fun id op hop hcleaned => by
        rcases (Db.journalIndexes_row hindexes hop).2.1 with hpending | hcommitted
        · cases hpending.symm.trans hcleaned
        · exact hcommitted
      sole := fun i j op op' hi hj => Db.journalIndexes_sole hindexes hi hj
      once := fun i j op op' hi hj hs => (Db.journalIndexes_row hindexes hj).2.2 i op hi hs
      identified := fun id op hop => (hj.commit_recorded hc hop).1
      checkpointed := fun id op hop => (hj.commit_recorded hc hop).2
      manifest := fun id op hop => hj.commit_manifest hc hop
      reserved := fun id op hop => hj.commit_reserved hc hop }

end Safety

end HomeCloud
