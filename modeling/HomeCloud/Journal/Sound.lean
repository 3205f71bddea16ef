import HomeCloud.Journal.Safety

/-!
# What the journal can be relied on for

The unique indexes hold, the operations are as they were checked when they were begun, and the object of a
finalization is that of its file.

* `JournalSound`, **`JournalSound.commit`**: every commit keeps what has been checked.
* `ObjectsOwned`, **`ObjectsOwned.commit`**: every commit keeps the objects of finalizations with their files.
-/

namespace HomeCloud

open Concurrent Sha256

/-- The indexes hold, and the operations are as they were checked, with digests of 256 bits and the identifiers
of files that have been issued. -/
structure JournalSound (db : Db) : Prop where
  indexes : db.journalIndexes = true
  checked : ∀ id op, db.finalizationOperations.get id = some op → op.Checked
  digests : ∀ id op, db.finalizationOperations.get id = some op → ∀ c ∈ op.chunks, c.sha256 < 2 ^ 256
  issued : ∀ id op f, db.finalizationOperations.get id = some op → op.fileId = some f → f < db.files.bound

theorem JournalSound.empty (users : Table User) : JournalSound (.empty users) where
  indexes := rfl
  checked _ _ h := by simp [Db.empty] at h
  digests _ _ h := by simp [Db.empty] at h
  issued _ _ _ h := by simp [Db.empty] at h

/-- A row that has been there and has the object of a finalization is that of the file of the operation. -/
def ObjectsOwned (w : World) : Prop := ∀ i r u n, w.seen i = some r → r.placement = some ⟨0, .finalized u n⟩ →
  ∃ op, w.db.finalizationOperations.get n = some op ∧ op.userId = u ∧ op.fileId = some i ∧ op.totalSize = r.size ∧
    r.userId = u ∧ r.uploadId = some op.sessionId

section

variable {t : ℕ} {w : World} {tx : Tx} {id : ℕ} {op op' : FinalizationOperation}

theorem FinalizationOperation.Checked.of_immutable (h : op.Checked)
    (hi : op'.immutablePart = op.immutablePart) : op'.Checked := by
  have huser : op'.userId = op.userId := (congrArg FinalizationOperation.userId hi :)
  have hdigest : op'.expectedSha256 = op.expectedSha256 := (congrArg FinalizationOperation.expectedSha256 hi :)
  have hsize : op'.totalSize = op.totalSize := (congrArg FinalizationOperation.totalSize hi :)
  have hbinding : op'.binding = op.binding := (congrArg FinalizationOperation.binding hi :)
  have hsession : op'.sessionId = op.sessionId := (congrArg FinalizationOperation.sessionId hi :)
  exact ⟨huser ▸ h.user, hdigest ▸ h.digest, hsize ▸ h.size, hbinding ▸ h.binding,
    hbinding ▸ hsession ▸ h.source⟩

/-- The chunk rows that an operation takes over have the digests of files. -/
theorem BeginOk.digests {q : UploadSession} (h : BeginOk t w id op q) (hi : Inv w) :
    ∀ c ∈ op.chunks, c.sha256 < 2 ^ 256 := by
  intro c hc
  obtain ⟨a, -, -, hdigest⟩ := hi.disk.backed.stored _ q h.row ⟨h.takes.workspace, h.active⟩ c
    (h.takes.chunks ▸ hc)
  rw [← hdigest]
  exact sha256_lt a.data

/-- An operation after a commit is a new one, or one from before with what it was begun with. -/
theorem Committing.operation_origin (hc : Committing t w tx)
    (hop' : (tx.apply w.db).finalizationOperations.get id = some op') :
    (∃ q, BeginOk t w id op' q) ∨
      ∃ op, w.db.finalizationOperations.get id = some op ∧ op'.immutablePart = op.immutablePart := by
  cases hop : w.db.finalizationOperations.get id with
  | none => exact .inl (hc.operation_begun hop hop').1
  | some op =>
    refine .inr ⟨op, rfl, ?_⟩
    rcases hc.operation_kept hop hop' with rfl | hupdated
    · rfl
    · exact Db.operationUpdated_immutable hupdated

/-- **Every commit keeps what has been checked.** -/
theorem JournalSound.commit (h : JournalSound w.db) (hc : Committing t w tx) : JournalSound (tx.apply w.db) where
  indexes := Db.triggers_indexes (Bool.and_eq_true_iff.mp hc.allowed).2
  checked id op' hop' := by
    obtain ⟨q, hq⟩ | ⟨op, hop, himmutable⟩ := hc.operation_origin hop'
    · exact hq.checked
    · exact (h.checked id op hop).of_immutable himmutable
  digests id op' hop' := by
    obtain ⟨q, hq⟩ | ⟨op, hop, himmutable⟩ := hc.operation_origin hop'
    · exact hq.digests hc.inv
    · have hchunks : op'.chunks = op.chunks := (congrArg FinalizationOperation.chunks himmutable :)
      rw [hchunks]
      exact h.digests id op hop
  issued id op' f hop' hf := by
    have hbound := hc.respects.files_bound
    have hold : ∀ {op : FinalizationOperation}, w.db.finalizationOperations.get id = some op →
        op.fileId = some f → f < (tx.apply w.db).files.bound :=
      fun hop hf => (h.issued id _ f hop hf).trans_le hbound
    cases hc.operation_change hop' with
    | same hop => exact hold hop hf
    | begun hn =>
      have hinserted := (hc.operation_begun hn hop').2
      simp only [Db.operationInserted, Bool.and_eq_true, Option.isNone_iff_eq_none] at hinserted
      obtain ⟨⟨⟨⟨⟨⟨-, hnone⟩, -⟩, -⟩, -⟩, -⟩, -⟩ := hinserted
      rw [hnone] at hf
      cases hf
    | target ho _ hset | mimeType ho hset | moved ho _ _ hset =>
      subst hset
      exact hold ho.row hf
    | @committed s file c op q ho hset =>
      subst hset
      cases hf
      have hinsert : (Tx.apply w.db (.journal (.commit id s file c))).files.bound = w.db.files.bound + 1 :=
        max_eq_right (Nat.le_succ _)
      rw [hinsert]
      exact Nat.lt_succ_self _
    | cleaned ho hset =>
      subst hset
      exact hold ho.operation.row hf

/-- **Every commit keeps the objects of finalizations with their files.** -/
theorem ObjectsOwned.commit (h : ObjectsOwned w) (hj : JournalSafe w.db) (hc : Committing t w tx) :
    ObjectsOwned ((w.write tx t).release t) := by
  intro i r u n hr hp
  change (w.write tx t).seen i = some r at hr
  rcases hc.seen_row hr with ⟨r₀, hr₀, hsame⟩ | hfresh
  · obtain ⟨op, hop, hu, hf, hsize, howner, hupload⟩ := h i r₀ u n hr₀ (hsame.placement.symm.trans hp)
    obtain ⟨op', hop', hforward⟩ := hc.forward hj hop
    have himmutable := hforward.immutable
    refine ⟨op', hop', (congrArg FinalizationOperation.userId himmutable).trans hu,
      (hforward.file (hf ▸ rfl)).trans hf, ?_, hsame.userId.trans howner, ?_⟩
    · exact (congrArg FinalizationOperation.totalSize himmutable).trans (hsize.trans hsame.size.symm)
    · rw [hsame.uploadId, hupload]
      exact (congrArg (fun o => some (FinalizationOperation.sessionId o)) himmutable).symm
  · -- The row is new, so its finalization is committed now.
    obtain ⟨id, s, c, rfl⟩ := hfresh.finalized u n hp
    obtain ⟨-, op, q, ho⟩ := hc.ok
    have hnew : (Tx.apply w.db (.journal (.commit id s r c))).finalizationOperations.get id =
        some { op with state := .committed, fileId := some w.db.files.bound } := by
      have hrow := ho.operation.row
      simp [Tx.apply, JournalTx.apply, Db.updateOperation, Db.updateSession, Db.charge, hrow]
    have hpending := hj.pending ho.operation.row (by rw [ho.operation.state]; decide)
    obtain ⟨-, f, r', hf, hr', -, -, hdescribed, -⟩ :=
      Db.commitCheck_committed (Db.triggers_operation (Bool.and_eq_true_iff.mp hc.allowed).2).2 hnew (fun heq => by
        rw [ho.operation.row] at heq
        cases (ho.operation.state.symm.trans (congrArg FinalizationOperation.state (Option.some.inj heq)))) rfl
        hpending
    cases hf
    obtain rfl : r = r' := by
      have hinserted : (w.db.files.insert r).get w.db.files.bound = some r' := hr'
      rw [Table.get_insert, if_pos rfl] at hinserted
      exact Option.some.inj hinserted
    simp only [FinalizationOperation.describes, Bool.and_eq_true, decide_eq_true_eq] at hdescribed
    have hplacement := hdescribed.2.symm.trans hp
    rw [hc.inv.operations id op ho.operation.row] at hplacement
    cases hplacement
    exact ⟨_, hnew, rfl, hfresh.new ▸ rfl, ho.size.symm, ho.owner, ho.session.symm ▸ ho.upload⟩

end

end HomeCloud
