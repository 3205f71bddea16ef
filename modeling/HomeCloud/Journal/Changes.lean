import HomeCloud.Uploads.Published

/-!
# What commits make of the operations

An operation is changed by the finalization store only, and by one column or state at a time.

* `OperationChange`, **`Committing.operation_change`**: what a commit makes of an operation.
* `Committing.operation_kept`: an operation stays there, and the triggers let only some changes pass.
* **`OperationsInv.commit`**: every finalization has an object of its own.
* **`Db.Backed.commit`**: the files of the SSD are as the new rows say.
-/

namespace HomeCloud

open Concurrent

/-- What a commit of `t` makes of the row of the operation `id`: it is as it was, or begun, or one of its
columns is recorded, or its state has moved on, or it is committed or cleaned. -/
inductive OperationChange (t : ℕ) (w : World) (id : ℕ) (op' : FinalizationOperation) : Tx → Prop
  | same {tx} : w.db.finalizationOperations.get id = some op' → OperationChange t w id op' tx
  | begun {q} : w.db.finalizationOperations.get id = none → BeginOk t w id op' q →
      OperationChange t w id op' (.journal (.begin id op'))
  | target {op a} : HeldOperation t w id .assembling op → w.disk.ssd.temporaries id = some a →
      op' = { op with targetIdentity := some (op.identify a) } →
        OperationChange t w id op' (.journal (.recordTarget id (op.identify a)))
  | mimeType {op mimeType} : HeldOperation t w id .verified op →
      op' = { op with mimeType := mimeType, mimeTypeCheckpointed := true } →
        OperationChange t w id op' (.journal (.recordMimeType id mimeType))
  | moved {op old state} : HeldOperation t w id old op → state ≠ .committed →
      op'.Objects (w.disk.ssd.temporaries id) (w.disk.ssd.finals id) → op' = { op with state := state } →
        OperationChange t w id op' (.journal (.transition id state))
  | committed {s file c op q} : CommitOk t w id s file c op q →
      op' = { op with state := .committed, fileId := some w.db.files.bound } →
        OperationChange t w id op' (.journal (.commit id s file c))
  | cleaned {s op} : FinishCleanupOk t w id s op → op' = { op with cleanupState := .cleaned } →
      OperationChange t w id op' (.journal (.finishCleanup id s))

section

variable {t : ℕ} {w : World} {tx : Tx} {id : ℕ} {op op' : FinalizationOperation}

/-- **What a commit makes of an operation.** -/
theorem Committing.operation_change (hc : Committing t w tx)
    (hop' : (tx.apply w.db).finalizationOperations.get id = some op') : OperationChange t w id op' tx := by
  by_cases hl : w.disk.flock = some t
  swap
  · rw [hc.ok.operations hl] at hop'
    exact .same hop'
  have hok := hc.ok
  have hmap : ∀ {i : ℕ} {f : FinalizationOperation → FinalizationOperation},
      (w.db.finalizationOperations.map fun j r => if j = i then f r else r).get id = some op' →
        (id = i ∧ ∃ op, w.db.finalizationOperations.get id = some op ∧ op' = f op) ∨
          w.db.finalizationOperations.get id = some op' := by
    intro i f h
    obtain ⟨op, hop, rfl⟩ := Option.map_eq_some_iff.mp h
    dsimp only
    split_ifs with hi
    · exact .inl ⟨hi, op, hop, rfl⟩
    · exact .inr hop
  cases tx with
  | none => exact .same hop'
  | auth tx => cases tx <;> exact .same hop'
  | sharing tx => cases tx <;> exact .same hop'
  | uploads tx => cases tx <;> exact .same hop'
  | files tx =>
    cases tx with
    | trashFile i patch =>
      simp only [Tx.apply, FilesTx.apply] at hop'
      cases hf : w.db.files.get i <;> rw [hf] at hop' <;> exact .same hop'
    | _ => exact .same hop'
  | journal tx =>
    replace hok := hok.2
    cases tx with
    | begin i operation =>
      obtain ⟨q, ho⟩ := hok
      have ha : (JournalTx.begin i operation).allowed w.db = true := (Bool.and_eq_true_iff.mp hc.allowed).1
      simp only [JournalTx.allowed, Bool.and_eq_true, Option.isNone_iff_eq_none] at ha
      change (w.db.finalizationOperations.put i operation).get id = some op' at hop'
      rw [Table.get_put] at hop'
      split_ifs at hop' with hi
      · cases hop'
        subst hi
        exact .begun ha.1 ho
      · exact .same hop'
    | recordTarget i identity =>
      obtain ⟨op, a, ho, ha, rfl⟩ := hok
      rcases hmap hop' with ⟨rfl, r, hr, hset⟩ | hop
      · cases hr.symm.trans ho.row
        exact .target ho ha hset
      · exact .same hop
    | recordMimeType i mimeType =>
      obtain ⟨op, ho⟩ := hok
      rcases hmap hop' with ⟨rfl, r, hr, hset⟩ | hop
      · cases hr.symm.trans ho.row
        exact .mimeType ho hset
      · exact .same hop
    | transition i state =>
      obtain ⟨op, old, ho, hne, hobjects⟩ := hok
      rcases hmap hop' with ⟨rfl, r, hr, hset⟩ | hop
      · cases hr.symm.trans ho.row
        exact .moved ho hne (hset ▸ hobjects) hset
      · exact .same hop
    | commit i sessionId file c =>
      obtain ⟨op, q, ho⟩ := hok
      rcases hmap hop' with ⟨rfl, r, hr, hset⟩ | hop
      · cases hr.symm.trans ho.operation.row
        exact .committed ho hset
      · exact .same hop
    | finishCleanup i sessionId =>
      obtain ⟨op, ho⟩ := hok
      rcases hmap hop' with ⟨rfl, r, hr, hset⟩ | hop
      · cases hr.symm.trans ho.operation.row
        exact .cleaned ho hset
      · exact .same hop

/-- A commit that adds an operation begins it. -/
theorem Committing.operation_begun (hc : Committing t w tx) (hn : w.db.finalizationOperations.get id = none)
    (hop : (tx.apply w.db).finalizationOperations.get id = some op) :
    (∃ q, BeginOk t w id op q) ∧ (tx.apply w.db).operationInserted op = true := by
  have hguard : w.db.operationGuard (tx.apply w.db) id = true :=
    (Db.triggers_operation (Bool.and_eq_true_iff.mp hc.allowed).2).1
  simp only [Db.operationGuard, hn, hop] at hguard
  refine ⟨?_, hguard⟩
  cases hc.operation_change hop with
  | same h =>
    rw [hn] at h
    cases h
  | begun _ ho => exact ⟨_, ho⟩
  | target ho | mimeType ho | moved ho =>
    have hrow := ho.row
    rw [hn] at hrow
    cases hrow
  | committed ho | cleaned ho =>
    have hrow := ho.operation.row
    rw [hn] at hrow
    cases hrow

/-- The columns of an operation that a commit changes. -/
theorem Committing.operation_kept (hc : Committing t w tx)
    (hop : w.db.finalizationOperations.get id = some op)
    (hop' : (tx.apply w.db).finalizationOperations.get id = some op') :
    op = op' ∨ (tx.apply w.db).operationUpdated op op' = true := by
  have hguard : w.db.operationGuard (tx.apply w.db) id = true :=
    (Db.triggers_operation (Bool.and_eq_true_iff.mp hc.allowed).2).1
  simpa only [Db.operationGuard, hop, hop', Bool.or_eq_true, decide_eq_true_eq] using hguard

/-- No commit deletes an operation. -/
theorem Committing.operation_there (hc : Committing t w tx)
    (hop : w.db.finalizationOperations.get id = some op) :
    ∃ op', (tx.apply w.db).finalizationOperations.get id = some op' := by
  have hguard : w.db.operationGuard (tx.apply w.db) id = true :=
    (Db.triggers_operation (Bool.and_eq_true_iff.mp hc.allowed).2).1
  cases hop' : (tx.apply w.db).finalizationOperations.get id with
  | none =>
    simp only [Db.operationGuard, hop, hop'] at hguard
    cases hguard
  | some op' => exact ⟨op', rfl⟩

/-- An update of an operation leaves what it was begun with. -/
theorem Db.operationUpdated_immutable {new : Db} (h : new.operationUpdated op op' = true) :
    op'.immutablePart = op.immutablePart := by
  simp only [Db.operationUpdated, Bool.and_eq_true, decide_eq_true_eq] at h
  exact h.1

/-- No update takes back that an operation is committed. -/
theorem Db.operationUpdated_committed {new : Db} (h : new.operationUpdated op op' = true)
    (hs : op.state = .committed) : op'.state = .committed := by
  simp only [Db.operationUpdated, Bool.and_eq_true, Bool.or_eq_true, decide_eq_true_eq, hs] at h
  obtain ⟨-, hmime | ⟨-, htarget | ⟨-, hcleaned | hmoved⟩⟩⟩ := h
  · cases hmime.1.1.1.1.1.1
  · cases htarget.1.1.1.1.1
  · exact hcleaned.1.1.1.1.1.2
  · cases hmoved.1.2

/-- **A committed operation stays committed.** -/
theorem Committing.operation_committed (hc : Committing t w tx)
    (hop : w.db.finalizationOperations.get id = some op) (hs : op.state = .committed) :
    ∃ op', (tx.apply w.db).finalizationOperations.get id = some op' ∧ op'.sessionId = op.sessionId ∧
      op'.state = .committed := by
  obtain ⟨op', hop'⟩ := hc.operation_there hop
  refine ⟨op', hop', ?_⟩
  cases hc.operation_change hop' with
  | same h =>
    cases hop.symm.trans h
    exact ⟨rfl, hs⟩
  | begun hn =>
    rw [hop] at hn
    cases hn
  | target ho _ hset | mimeType ho hset =>
    cases hop.symm.trans ho.row
    cases hs.symm.trans ho.state
  | moved ho _ _ hset =>
    -- The triggers let no state but `committed` pass.
    cases hop.symm.trans ho.row
    rcases hc.operation_kept hop hop' with rfl | hupdated
    · exact ⟨rfl, hs⟩
    · have hsession : op'.immutablePart.sessionId = op.immutablePart.sessionId := by
        rw [Db.operationUpdated_immutable hupdated]
      exact ⟨hsession, Db.operationUpdated_committed hupdated hs⟩
  | committed ho =>
    cases hop.symm.trans ho.operation.row
    cases hs.symm.trans ho.operation.state
  | cleaned ho hset =>
    cases hop.symm.trans ho.operation.row
    exact ⟨hset ▸ rfl, hset ▸ hs⟩

/-- **Every commit keeps the objects of finalizations apart.** -/
theorem OperationsInv.commit (h : OperationsInv w.db) (hc : Committing t w tx) :
    OperationsInv (tx.apply w.db) := by
  intro id op' hop'
  cases hop : w.db.finalizationOperations.get id with
  | none =>
    obtain ⟨⟨q, hbegin⟩, -⟩ := hc.operation_begun hop hop'
    exact hbegin.target
  | some op =>
    rcases hc.operation_kept hop hop' with rfl | hupdated
    · exact h id op hop
    · have himmutable := Db.operationUpdated_immutable hupdated
      have hbinding : op'.immutablePart.binding = op.immutablePart.binding := by rw [himmutable]
      have huser : op'.immutablePart.userId = op.immutablePart.userId := by rw [himmutable]
      change op'.binding = op.binding at hbinding
      change op'.userId = op.userId at huser
      rw [hbinding, huser]
      exact h id op hop

/-! ## The files of the SSD -/

/-- The files of an operation are as its new row says. -/
theorem Db.Backed.commit_objects (h : w.db.Backed w.disk.ssd) (hc : Committing t w tx)
    (hop' : (tx.apply w.db).finalizationOperations.get id = some op') :
    op'.Objects (w.disk.ssd.temporaries id) (w.disk.ssd.finals id) := by
  cases hc.operation_change hop' with
  | same hop => exact h.objects id op' hop
  | begun hn _ =>
    have hinserted := (hc.operation_begun hn hop').2
    simp only [Db.operationInserted, Bool.and_eq_true, decide_eq_true_eq, Option.isNone_iff_eq_none] at hinserted
    obtain ⟨⟨⟨⟨⟨⟨hstate, -⟩, htarget⟩, -⟩, -⟩, -⟩, -⟩ := hinserted
    refine FinalizationOperation.objects_assembling hstate (h.unused id hn).2 fun identity hi => ?_
    rw [htarget] at hi
    cases hi
  | target ho ha hset =>
    subst hset
    obtain ⟨hfinal, -⟩ := (h.objects id _ ho.row).of_assembling ho.state
    refine FinalizationOperation.objects_assembling ho.state hfinal fun identity hi => ?_
    cases hi
    exact ⟨_, ha, rfl⟩
  | mimeType ho hset =>
    subst hset
    exact (h.objects id _ ho.row).of_same ⟨rfl, rfl, rfl, rfl⟩ rfl
  | moved _ _ hobjects => exact hobjects
  | committed ho hset =>
    subst hset
    exact (h.objects id _ ho.operation.row).committed ho.operation.state ⟨rfl, rfl, rfl, rfl⟩ rfl
  | cleaned ho hset =>
    subst hset
    exact (h.objects id _ ho.operation.row).of_same ⟨rfl, rfl, rfl, rfl⟩ rfl

/-- The chunk rows of an upload on the way have their files. -/
theorem Db.Backed.commit_stored (h : w.db.Backed w.disk.ssd) (hc : Committing t w tx) {s : ℕ}
    {q' : UploadSession} (hq' : (tx.apply w.db).uploadSessions.get s = some q') (ho : q'.Open) :
    ∀ c ∈ q'.chunks, w.disk.ssd.Stored s c := by
  cases hc.session_change hq' with
  | unmoved hq hu =>
    intro c hmem
    exact h.stored s _ hq ⟨hu.workspaceId.symm.trans ho.1, hu.active.symm.trans ho.2⟩ c (hu.chunks ▸ hmem)
  | created _ hok =>
    rw [hok.unstarted.1]
    exact fun c hmem => absurd hmem List.not_mem_nil
  | saved hok =>
    intro c hmem
    rcases hok.kept ho c hmem with hold | hnew
    · exact h.stored s _ hok.row ⟨hok.same.workspaceId.symm.trans ho.1, hok.advances.active ho.2⟩ c hold
    · exact hnew
  | published hok => exact absurd ho.1 (hok.same.not_ssd hok.workspace)
  | finalized _ hset =>
    have hactive := ho.2
    rw [hset] at hactive
    cases hactive
  | cleaned _ _ hset =>
    rw [hset]
    exact fun c hmem => absurd hmem List.not_mem_nil

/-- **Every commit keeps the files of the SSD as the rows say.** -/
theorem Db.Backed.commit (h : w.db.Backed w.disk.ssd) (hc : Committing t w tx) :
    (tx.apply w.db).Backed w.disk.ssd where
  unused id hn := by
    refine h.unused id ?_
    cases hop : w.db.finalizationOperations.get id with
    | none => rfl
    | some op =>
      obtain ⟨op', hop'⟩ := hc.operation_there hop
      rw [hn] at hop'
      cases hop'
  objects id op' hop' := h.commit_objects hc hop'
  stored s q' hq' ho := h.commit_stored hc hq' ho
  finalized s q' hq' hw hdone := by
    have hold : ∀ {q : UploadSession}, w.db.uploadSessions.get s = some q → q.workspaceId = .ssd →
        q.status = .completed → ∃ id op, (tx.apply w.db).finalizationOperations.get id = some op ∧
          op.sessionId = s ∧ op.state = .committed := by
      intro q hq hw hdone
      obtain ⟨id, op, hop, hs, hcommitted⟩ := h.finalized s q hq hw hdone
      obtain ⟨op', hop', hs', hcommitted'⟩ := hc.operation_committed hop hcommitted
      exact ⟨id, op', hop', hs'.trans hs, hcommitted'⟩
    cases hc.session_change hq' with
    | unmoved hq hu => exact hold hq (hu.workspaceId.symm.trans hw) (hu.status.symm.trans hdone)
    | created _ hok =>
      rw [hok.pending] at hdone
      cases hdone
    | saved hok => exact hold hok.row (hok.same.workspaceId.symm.trans hw) (hok.unfinished hw hdone)
    | published hok => exact absurd hw (hok.same.not_ssd hok.workspace)
    | @finalized id file c op q hok hset =>
      refine ⟨id, { op with state := .committed, fileId := some w.db.files.bound }, ?_, hok.session, rfl⟩
      have hrow := hok.operation.row
      simp [Tx.apply, JournalTx.apply, Db.updateOperation, Db.updateSession, Db.charge, hrow]
    | cleaned hok hq hset => exact hold hq (hok.completed _ hq).1 (hok.completed _ hq).2

end

end HomeCloud
