import HomeCloud.System
import HomeCloud.Uploads.Only

/-!
# An upload is published once

* `World.Publishes`: a step commits the file of an upload; `PublishesOnce`: what goes with it.
* `Instr.OfUploads`: what the upload operations run; `Call.only_ofUploads`.
* **`upload_published_once`**.
-/

namespace HomeCloud

open Concurrent

/-! ## Steps -/

/-- The step from `w` to `w'` commits the file of the upload `s`. -/
def World.Publishes (w w' : World) (s : ℕ) : Prop :=
  ∃ i r, w.seen i = none ∧ w'.seen i = some r ∧ r.uploadId = some s

/-- The session `s` is completed. -/
def Db.Completed (db : Db) (s : ℕ) : Prop :=
  ∃ q, db.uploadSessions.get s = some q ∧ q.status = .completed

/-- A step completes the upload `s` if and only if it commits its file, and then charges the size to the
owner; a session that is not active, or gone, stays so. -/
structure PublishesOnce (w w' : World) (s : ℕ) : Prop where
  completed : w'.db.Completed s ∧ ¬ w.db.Completed s ↔ w.Publishes w' s
  charged : w.Publishes w' s → ∃ q, w.db.uploadSessions.get s = some q ∧
    ∀ u, w'.db.users.get u = (w.db.users.get u).map fun r =>
      if u = q.userId then { r with storageUsed := r.storageUsed + q.totalSize } else r
  settled : s < w.db.uploadSessions.bound →
    ∀ q', w'.db.uploadSessions.get s = some q' → q'.active = true →
      ∃ q, w.db.uploadSessions.get s = some q ∧ q.active = true

theorem PublishesOnce.of_eq {w w' : World} (hdb : w'.db = w.db) (hs : w'.seen = w.seen) (s : ℕ) :
    PublishesOnce w w' s := by
  have hno : ¬ w.Publishes w' s := fun ⟨i, r, hn, hr, _⟩ => by
    rw [hs, hn] at hr
    cases hr
  refine ⟨⟨fun ⟨h, hn⟩ => absurd (hdb ▸ h) hn, fun h => absurd h hno⟩, fun h => absurd h hno, ?_⟩
  intro _ q' hq' ha
  exact ⟨q', hdb ▸ hq', ha⟩

section Commit

variable {t : ℕ} {w : World} {tx : Tx} {s : ℕ}

/-- A commit publishes what its writes say. -/
theorem Committing.publishes (hc : Committing t w tx) :
    w.Publishes ((w.write tx t).release t) s ↔ tx.published = some s := by
  refine ⟨fun ⟨i, r, hn, hr, hs⟩ => ?_, fun h => ?_⟩
  · rcases hc.seen_row hr with ⟨r₀, hr₀, -⟩ | hfresh
    · rw [hn] at hr₀
      cases hr₀
    · exact hfresh.upload.symm.trans hs
  · have hnew : w.seen w.db.files.bound = none := Option.eq_none_iff_forall_not_mem.mpr fun _ hr =>
      hc.inv.not_seen hr
    have hrow : ∀ file : File, (tx.apply w.db).files.get w.db.files.bound = some file →
        file.uploadId = some s → w.Publishes ((w.write tx t).release t) s := fun file hfile hup =>
      ⟨w.db.files.bound, file, hnew, Option.or_eq_some_iff.mpr (.inl hfile), hup⟩
    have hok := hc.ok
    cases tx with
    | uploads tx =>
      cases tx with
      | publish id session file c =>
        cases h
        obtain ⟨old, attempt, ho⟩ := hok
        exact hrow file (w.db.files.get_insert_bound file) ho.upload
      | _ => cases h
    | journal tx =>
      cases tx with
      | commit id sessionId file c =>
        cases h
        obtain ⟨-, op, q, ho⟩ := hok
        exact hrow file (w.db.files.get_insert_bound file) ho.upload
      | _ => cases h
    | _ => cases h

/-- A commit completes a session only with its file. -/
theorem Committing.published_of_completed (hc : Committing t w tx)
    (h : (tx.apply w.db).Completed s) (hn : ¬ w.db.Completed s) : tx.published = some s := by
  obtain ⟨q', hq', hdone⟩ := h
  have hstatus : ∀ q, w.db.uploadSessions.get s = some q → q'.status ≠ q.status := fun q hq he =>
    hn ⟨q, hq, he ▸ hdone⟩
  cases hc.session_change hq' with
  | unmoved hq hu => exact absurd hu.status (hstatus _ hq)
  | created _ ho => exact nomatch ho.pending.symm.trans hdone
  | saved ho =>
    rcases ho.advances with h | ⟨-, h⟩ | ⟨-, h⟩ | ⟨hactive, -, i, r, hr, hup⟩
    · exact absurd h (hstatus _ ho.row)
    · exact nomatch h.symm.trans hdone
    · exact nomatch h.symm.trans hdone
    · exact absurd hup (hc.inv.published.not_seen ho.row hactive hr)
  | published => rfl
  | finalized => rfl
  | cleaned _ hq hset => exact absurd (hset ▸ rfl) (hstatus _ hq)

/-- A commit that publishes completes the session. -/
theorem Committing.completes (hc : Committing t w tx) (h : tx.published = some s) :
    (tx.apply w.db).Completed s := by
  have hok := hc.ok
  cases tx with
  | uploads tx =>
    cases tx with
    | publish id session file c =>
      cases h
      obtain ⟨old, attempt, ho⟩ := hok
      exact ⟨session, Table.get_put_self .., ho.completed⟩
    | _ => cases h
  | journal tx =>
    cases tx with
    | commit id sessionId file c =>
      cases h
      obtain ⟨-, op, q, ho⟩ := hok
      refine ⟨{ q with status := .completed }, ?_, rfl⟩
      simp only [Tx.apply, JournalTx.apply, Db.updateSession_self]
      exact congrArg (Option.map _) ho.row
    | _ => cases h
  | _ => cases h

/-- A commit that publishes charges the size of the upload to its owner. -/
theorem Committing.charged (hc : Committing t w tx) (h : tx.published = some s) :
    ∃ q, w.db.uploadSessions.get s = some q ∧ ∀ u, (tx.apply w.db).users.get u =
      (w.db.users.get u).map fun r =>
        if u = q.userId then { r with storageUsed := r.storageUsed + q.totalSize } else r := by
  have hok := hc.ok
  cases tx with
  | uploads tx =>
    cases tx with
    | publish id session file c =>
      cases h
      obtain ⟨old, attempt, ho⟩ := hok
      refine ⟨old, ho.row, fun u => ?_⟩
      rw [← ho.owner, ← ho.size]
      exact Table.get_map ..
    | _ => cases h
  | journal tx =>
    cases tx with
    | commit id sessionId file c =>
      cases h
      obtain ⟨-, op, q, ho⟩ := hok
      refine ⟨q, ho.row, fun u => ?_⟩
      rw [ho.binds.1, ho.binds.2.2.2, ← ho.owner, ← ho.size]
      exact Table.get_map ..
    | _ => cases h
  | _ => cases h

/-- **A commit publishes an upload once.** -/
theorem Committing.publishesOnce (hc : Committing t w tx) :
    PublishesOnce w ((w.write tx t).release t) s where
  completed := by
    rw [hc.publishes]
    refine ⟨fun ⟨h, hn⟩ => hc.published_of_completed h hn, fun h => ?_⟩
    obtain ⟨q, hq, hactive⟩ := hc.published_active h
    refine ⟨hc.completes h, fun ⟨q', hq', hdone⟩ => ?_⟩
    cases hq.symm.trans hq'
    simp [UploadSession.active, hdone] at hactive
  charged h := hc.charged (hc.publishes.mp h)
  settled hb q' hq' ha := by
    obtain ⟨q, hq, hset⟩ := hc.sessions.old s q' hb hq'
    refine ⟨q, hq, ?_⟩
    by_contra hn
    rw [hset.2 (eq_false_of_ne_true hn)] at ha
    cases ha

end Commit

/-! ## What the upload operations run -/

/-- A statement that commits nothing, or what an upload operation writes. -/
def Instr.OfUploads : Instr → Prop
  | .commit (.uploads _) | .commit (.journal _) | .commit .none => True
  | .commit _ => False
  | _ => True

theorem Instr.ofUploads_of_quiet : ∀ i : Instr, i.quiet = true → i.OfUploads := by
  intro i h
  cases i with
  | commit tx => cases h
  | _ => trivial

section Programs

variable {α : Type} {body : Op (Tx × α)} {id userId : ℕ} {s : UploadSession} {ssd : Bool}
  {access : Option PublicAccess}

theorem only_commitWith {tx : Tx} {f : World → α} (h : (Instr.commit tx).OfUploads) :
    (commitWith tx f).Only Instr.OfUploads :=
  ⟨h, fun t w => by
    dsimp only
    split_ifs
    · trivial
    · intro n
      dsimp only
      split_ifs <;> trivial
    · trivial⟩

/-- A body that runs only what an upload operation runs, and writes so. -/
def OfUploads (body : Op (Tx × α)) : Prop :=
  body.Runs Instr.OfUploads fun r => (Instr.commit r.1).OfUploads

theorem only_transaction (h : OfUploads body) : (transaction body).Only Instr.OfUploads :=
  .bind_of_runs (runs_orRollback Instr.ofUploads_of_quiet h) fun _ hr =>
    .bind (only_orRollback Instr.ofUploads_of_quiet (only_commitWith hr)) fun _ => trivial

theorem only_transactionWith {body : Op (Tx × (World → α))} (h : OfUploads body) :
    (transactionWith body).Only Instr.OfUploads :=
  .bind_of_runs (runs_orRollback Instr.ofUploads_of_quiet h) fun _ hr =>
    only_orRollback Instr.ofUploads_of_quiet (only_commitWith hr)

theorem only_withTransaction (h : OfUploads body) :
    (withTransaction id body).Only Instr.OfUploads :=
  only_transaction (.bind (only_statement trivial) fun _ => .bind only_assert fun _ => h)

theorem only_authorize {a : PublicAccess} {parentId : ℕ} {lock : Bool} :
    (a.authorize parentId lock).Only Instr.OfUploads :=
  only_authorizeUpload Instr.ofUploads_of_quiet

theorem only_assertLegacyUnreserved : (assertLegacyUnreserved id).Only Instr.OfUploads :=
  .bind (only_statement trivial) fun _ => only_assert

theorem only_findSession : (findSession userId id access).Only Instr.OfUploads :=
  .bind (only_statement trivial) fun _ => only_require

theorem only_removeAttempts {committed : Option Placement} :
    ∀ attempts, (removeAttempts id committed attempts).Only Instr.OfUploads
  | [] => trivial
  | a :: attempts => by
    have hrest : (do
        onFiles (.removeAttempt id a) fun _ => ()
        removeAttempts id committed attempts).Only Instr.OfUploads :=
      .bind (only_onFiles trivial) fun _ => only_removeAttempts attempts
    unfold removeAttempts
    split_ifs
    · exact .bind (only_onFiles trivial) fun _ => hrest
    · exact hrest

theorem only_cleanupUnpublishedAssembly :
    (cleanupUnpublishedAssembly id s).Only Instr.OfUploads := by
  refine .bind only_assertLegacyUnreserved fun _ => .bind (only_onFiles trivial) fun _ =>
    .bind (only_statement trivial) fun committed => .bind (only_removeAttempts _) fun _ => ?_
  dsimp only
  split_ifs
  · exact .bind (only_onFiles trivial) fun _ => trivial
  · trivial

theorem only_deleteTempFiles : (deleteTempFiles id).Only Instr.OfUploads := fun n => by
  dsimp only
  split_ifs
  · exact only_onFiles trivial
  · exact .bind (only_onFiles trivial) fun _ => trivial

theorem only_ignoreFailure {p : Op Unit} (h : p.Only Instr.OfUploads) :
    (ignoreFailure p).Only Instr.OfUploads :=
  .tryCatch h fun _ => trivial

/-! ### Chunks -/

theorem only_hydrateChunks : ∀ n i, (hydrateChunks id n i).Only Instr.OfUploads
  | 0, _ => trivial
  | n + 1, i => .bind (only_onFiles trivial) fun _ =>
    .bind (only_hydrateChunks n (i + 1)) fun _ => trivial

theorem only_ensureAccounting : (ensureAccounting id s).Only Instr.OfUploads := by
  unfold ensureAccounting
  split_ifs
  · trivial
  · exact .bind (only_resolveSessionWorkspace Instr.ofUploads_of_quiet) fun _ =>
      .bind (only_hydrateChunks _ _) fun _ => .bind (only_onFiles trivial) fun _ =>
      .bind only_assert fun _ => .bind only_parseDatabaseSize fun _ => trivial

theorem only_stageChunk {index : ℕ} {data : Bytes} :
    (stageChunk id index data).Only Instr.OfUploads := by
  refine .bind (only_onFiles trivial) fun existing => ?_
  cases existing with
  | some old => exact only_assert
  | none => exact .bind (only_onFiles trivial) fun _ => only_assert

theorem only_uploadChunk {index : ℕ} {data : Bytes} :
    (uploadChunk ssd userId id index data access).Only Instr.OfUploads := by
  have hK := Instr.ofUploads_of_quiet
  exact .bind (only_onFiles trivial) fun _ => only_withTransaction <|
    .bind only_findSession fun s => .bind (only_authorizeSession hK) fun _ =>
    .bind only_assertLegacyUnreserved fun _ => .bind (only_resolveSessionWorkspace hK) fun _ =>
    .bind (only_query hK) fun _ => .bind only_assert fun _ => .bind only_assert fun _ =>
    .bind only_assert fun _ => .bind only_assert fun _ => .bind only_assert fun _ =>
    .bind only_ensureAccounting fun _ => .bind only_assert fun _ => .bind only_stageChunk fun _ =>
    .bind only_parseDatabaseSize fun _ => .bind (only_authorizeSession hK) fun _ => trivial

/-! ### Reconciling, aborting and expiry -/

theorem only_cleanup {α : Type} {P : α → Prop} {p : Op α} (hp : p.Runs Instr.OfUploads P) :
    (do
      let _ ← cleanupUnpublishedAssembly id s
      deleteTempFiles id
      p).Runs Instr.OfUploads P :=
  .bind only_cleanupUnpublishedAssembly fun _ => .bind only_deleteTempFiles fun _ => hp

theorem only_reconcileUploadSession :
    (reconcileUploadSession ssd userId id access).Only Instr.OfUploads := by
  have hK := Instr.ofUploads_of_quiet
  refine only_withTransaction <| .bind only_findSession fun s =>
    .bind (only_authorizeSession hK) fun _ => .bind (only_resolveSessionWorkspace hK) fun _ =>
    .bind (only_query hK) fun _ => .bind only_assert fun _ => ?_
  have hopen : OfUploads (do
      let saved ← ensureAccounting id s
      return (if s.accountingInitialized then .none else .uploads (.saveSession id saved),
        saved.chunks)) :=
    .bind only_ensureAccounting fun saved => by
      change Instr.OfUploads _
      dsimp only
      split_ifs <;> trivial
  cases s.status with
  | pending => exact hopen
  | uploading => exact hopen
  | aborted => trivial
  | completed =>
    refine .bind (only_query hK) fun file => ?_
    cases access with
    | none => exact .bind only_assert fun _ => trivial
    | some a =>
      cases file with
      | none => exact .bind only_assert fun _ => trivial
      | some file =>
        exact .bind only_require fun _ => .bind only_authorize fun _ => .bind only_assert fun _ =>
          .bind only_assert fun _ => trivial

theorem only_abortUpload : (abortUpload ssd userId id access).Only Instr.OfUploads :=
  only_withTransaction <| .bind only_findSession fun _ =>
    .bind (only_authorizeSession Instr.ofUploads_of_quiet) fun _ =>
    .bind (only_resolveSessionWorkspace Instr.ofUploads_of_quiet) fun _ =>
    .bind only_assert fun _ => only_cleanup trivial

theorem only_cleanupSession : (cleanupSession id).Only Instr.OfUploads := by
  refine only_transaction <| .bind (only_statement trivial) fun locked => ?_
  split_ifs
  · refine .bind (only_statement trivial) fun row => ?_
    cases row with
    | none => trivial
    | some s =>
      refine .bind (only_resolveSessionWorkspace Instr.ofUploads_of_quiet) fun _ =>
        .bind (only_statement trivial) fun now => ?_
      split_ifs
      · trivial
      · exact only_cleanup trivial
      · exact only_cleanup trivial
  · trivial

theorem only_cleanupExpiredSessions : cleanupExpiredSessions.Only Instr.OfUploads := by
  have hall : ∀ ids, (cleanupSessions ids).Only Instr.OfUploads := fun ids => by
    induction ids with
    | nil => trivial
    | cons id ids ih => exact .bind only_cleanupSession fun _ => ih
  exact .bind (only_statement trivial) hall

/-! ### Creating -/

theorem only_checkReservation {limits : UploadLimits} {user : User} {active totalSize : ℕ} :
    (checkReservation limits user active totalSize).Only Instr.OfUploads := by
  refine .bind only_parseDatabaseSize fun active => ?_
  have hrest : (do
      let quota ← parseDatabaseSize "Invalid storage size metadata" user.storageQuota
      let used ← parseDatabaseSize "Invalid storage size metadata" user.storageUsed
      let reserved ← parseDatabaseSize "Invalid storage size metadata" (used + active : ℕ)
      let nextUsed ← parseDatabaseSize "Invalid storage size metadata" (reserved + totalSize : ℕ)
      assert (.forbidden "Storage quota exceeded") (nextUsed ≤ quota)).Only Instr.OfUploads :=
    .bind only_parseDatabaseSize fun _ => .bind only_parseDatabaseSize fun _ =>
      .bind only_parseDatabaseSize fun _ => .bind only_parseDatabaseSize fun _ => only_assert
  dsimp only
  split_ifs
  · exact .bind only_parseDatabaseSize fun _ => .bind only_assert fun _ => hrest
  · exact hrest

theorem only_checkResult {a : PublicAccess} : (checkResult a id s).Only Instr.OfUploads := by
  unfold checkResult
  split_ifs
  · exact .bind (only_statement trivial) fun _ => .bind only_require fun _ =>
      .bind only_authorize fun _ => only_assert
  · exact .bind (only_statement trivial) fun _ => only_assert

theorem only_replay {a : PublicCreation} : (replay a).Only Instr.OfUploads := by
  refine .bind (only_statement trivial) fun prior => ?_
  cases prior with
  | none =>
    exact .bind (only_statement trivial) fun _ => .bind (only_statement trivial) fun _ =>
      .bind only_assert fun _ => trivial
  | some prior =>
    exact .bind (only_statement trivial) fun _ => .bind only_assert fun _ =>
      .bind (only_statement trivial) fun _ => .bind only_require fun _ =>
      .bind only_checkResult fun _ => trivial

theorem only_priorCreation {parentId : Option ℕ} {access : Option PublicCreation} :
    (priorCreation ssd parentId access).Only Instr.OfUploads := by
  cases access with
  | none => trivial
  | some a =>
    refine .bind only_require fun _ => .bind only_authorize fun _ => .bind only_replay fun prior =>
      .bind ?_ fun _ => trivial
    cases prior with
    | none => trivial
    | some s =>
      rw [Option.elim_some]
      exact only_authorizeSession Instr.ofUploads_of_quiet

theorem only_receiptOf {parentId : Option ℕ} {access : Option PublicCreation} :
    (receiptOf parentId access).Only Instr.OfUploads := by
  cases access with
  | none => trivial
  | some a =>
    exact .bind only_require fun _ => .bind only_authorize fun _ =>
      .bind (only_statement trivial) fun _ => trivial

theorem only_prepareDirectory {access : Option PublicCreation} :
    (prepareDirectory id s access).Only Instr.OfUploads := by
  refine .tryCatch (.bind (only_resolveSessionWorkspace Instr.ofUploads_of_quiet) fun _ =>
    only_onFiles trivial) fun _ => ?_
  have hdelete : (deleteSessionRow id).Only Instr.OfUploads :=
    only_transaction <| .bind (only_statement trivial) fun row => by
      change Instr.OfUploads _
      dsimp only
      split_ifs <;> trivial
  dsimp only
  split_ifs
  · exact .bind hdelete fun _ => trivial
  · trivial

theorem only_createUploadSession {limits : UploadLimits} {filename : JsString}
    {totalSize chunkSize : ℤ} {parentId expectedSha256 : Option ℕ} {access : Option PublicCreation} :
    (createUploadSession ssd limits userId filename totalSize chunkSize parentId expectedSha256
      access).Only Instr.OfUploads := by
  have hfolder : (assertFolderOwnership userId parentId).Only Instr.OfUploads := by
    unfold assertFolderOwnership
    split
    · trivial
    · trivial
    · exact .bind (only_statement trivial) fun _ => only_assert
  have hsizes : (validateSizes limits totalSize chunkSize).Only Instr.OfUploads :=
    .bind (.bind only_assert fun _ => .bind only_assert fun _ => trivial) fun _ =>
      .bind (.bind only_assert fun _ => .bind only_assert fun _ => trivial) fun _ =>
      .bind only_assert fun _ => .bind only_assert fun _ => .bind only_assert fun _ =>
      .bind only_assert fun _ => trivial
  refine .bind only_assert fun _ => .bind only_assert fun _ => .bind only_assert fun _ =>
    .bind hfolder fun _ => .bind hsizes fun _ => .bind (only_statement trivial) fun _ =>
    .bind (only_transactionWith <| .bind (only_statement trivial) fun _ => .bind only_mayFail fun _ =>
      .bind (only_statement trivial) fun _ => .bind only_require fun _ =>
      .bind only_priorCreation fun prior => ?_) fun r => ?_
  · cases prior with
    | some prior => trivial
    | none =>
      exact .bind (only_statement trivial) fun _ => .bind only_checkReservation fun _ =>
        .bind only_receiptOf fun _ => trivial
  · dsimp only
    split_ifs
    · exact .bind only_prepareDirectory fun _ => trivial
    · trivial

/-! ### Completing -/

theorem only_completeRecovered {fileId : ℕ} :
    (completeRecovered ssd userId id s fileId access).Only Instr.OfUploads :=
  have hK := Instr.ofUploads_of_quiet
  only_transaction <| .bind (only_statement trivial) fun _ => .bind only_assert fun _ =>
    .bind (only_authorizeSession hK) fun _ => .bind (only_lockPublicationDestination hK) fun _ =>
    .bind (only_statement trivial) fun _ => .bind (only_statement trivial) fun _ =>
    .bind only_require fun _ => .bind only_assert fun _ => .bind (only_statement trivial) fun _ =>
    .bind only_assert fun _ => .bind only_assertLegacyUnreserved fun _ =>
    .bind (only_authorizeSession hK) fun _ => trivial

theorem only_openUpload {detect : Bytes → JsString} :
    (do
      let recovered ← cleanupUnpublishedAssembly id s
      match recovered with
      | some (fileId, _) => do
        completeRecovered ssd userId id s fileId access
        ignoreFailure (deleteTempFiles id)
      | none => do
        let (attempt, there) ← Prog.ask (.disk (.createAttempt id)) fun _ w =>
          (w.disk.issued, w.disk.directories id)
        let tx ← tryCatch
          (assembleAndPublish ssd detect userId id attempt there s access) fun e => do
            discardAttempt id attempt
            throw e
        orRollback (commit tx)
        ignoreFailure (deleteTempFiles id)).Only Instr.OfUploads := by
  have hK := Instr.ofUploads_of_quiet
  have hdelete : (ignoreFailure (deleteTempFiles id)).Only Instr.OfUploads :=
    only_ignoreFailure only_deleteTempFiles
  have hassembles : ∀ n (i : Instr), i.Assembles id n → i.OfUploads := by
    rintro n i (hq | rfl | rfl | rfl | rfl | ⟨data, rfl⟩)
    · exact hK i hq
    all_goals trivial
  refine .bind only_cleanupUnpublishedAssembly fun recovered => ?_
  cases recovered with
  | some found => exact .bind only_completeRecovered fun _ => hdelete
  | none =>
    refine .bind ⟨trivial, fun _ _ => trivial⟩ fun a => .bind_of_runs (.tryCatch
      ((runs_assembleAndPublish fun _ _ _ => trivial).mono (hassembles _)) fun _ => .bind ?_ fun _ =>
        trivial) fun tx htx => .bind (only_orRollback hK (only_commitWith htx)) fun _ => hdelete
    exact .bind (only_ignoreFailure (only_onFiles trivial)) fun _ =>
      only_ignoreFailure (only_onFiles trivial)

theorem only_completeUpload {detect : Bytes → JsString} :
    (completeUpload ssd detect userId id access).Only Instr.OfUploads := by
  have hK := Instr.ofUploads_of_quiet
  have hfence : ∀ {fn : Op Unit}, fn.Only Instr.OfUploads →
      (withAssemblyFence id fn).Only Instr.OfUploads := fun hfn =>
    .bind only_mayFail fun _ => .bind (only_statement trivial) fun _ => .bind only_assert fun _ =>
      .bind (.tryCatch hfn fun _ => .bind ⟨trivial, fun _ _ => trivial⟩ fun _ => trivial) fun _ =>
        ⟨trivial, fun _ _ => trivial⟩
  refine hfence <| .bind (only_query hK) fun _ => .bind only_require fun s =>
    .bind (only_authorizeSession hK) fun _ => .bind only_assertLegacyUnreserved fun _ =>
    .bind (only_resolveSessionWorkspace hK) fun _ => .bind (only_query hK) fun _ =>
    .bind only_assert fun _ => ?_
  have hremove : (ignoreFailure do
      let _ ← cleanupUnpublishedAssembly id s
      deleteTempFiles id).Only Instr.OfUploads :=
    only_ignoreFailure (.bind only_cleanupUnpublishedAssembly fun _ => only_deleteTempFiles)
  cases s.status with
  | pending => exact only_openUpload
  | uploading => exact only_openUpload
  | aborted => trivial
  | completed =>
    refine .bind (only_query hK) fun _ => .bind only_require fun file => ?_
    cases access with
    | none => exact hremove
    | some a =>
      exact .bind only_require fun _ => .bind only_authorize fun _ => .bind only_assert fun _ =>
        hremove

end Programs

/-- The calls of the upload operations. -/
def Call.isUpload : Call → Bool
  | .upload .. | .cleanupUploads _ | .publicUpload .. => true
  | _ => false

theorem Call.only_ofUploads (s : Settings) (c : Call) (h : c.isUpload = true) :
    (c.prog s).Only Instr.OfUploads := by
  have hsilent : ∀ {α : Type} {p : Op α}, p.Only Instr.OfUploads →
      (silent p).Only Instr.OfUploads := fun hp => .bind hp fun _ => trivial
  have haccess : ∀ {ssd token proof}, (PublicUploads.access ssd token proof).Only Instr.OfUploads :=
    .bind only_assert fun _ => .bind (.bind (only_statement trivial) fun _ => only_assert) fun _ =>
      trivial
  cases c with
  | upload ssd u request =>
    cases request with
    | create => exact hsilent only_createUploadSession
    | chunk => exact only_uploadChunk
    | reconcile => exact hsilent only_reconcileUploadSession
    | complete => exact only_completeUpload
    | abort => exact only_abortUpload
  | cleanupUploads ssd => exact only_cleanupExpiredSessions
  | publicUpload ssd token proof request =>
    cases request with
    | create =>
      exact hsilent (.bind haccess fun _ => .bind only_assert fun _ => .bind only_authorize fun _ =>
        only_createUploadSession)
    | chunk => exact .bind haccess fun _ => only_uploadChunk
    | status => exact hsilent (.bind haccess fun _ => only_reconcileUploadSession)
    | complete => exact .bind haccess fun _ => only_completeUpload
    | abort => exact .bind haccess fun _ => only_abortUpload
  | _ => cases h

/-! ## Runs -/

/-- Nothing but a publication changes a user among the writes of the upload operations. -/
theorem Committing.users_eq {t : ℕ} {w : World} {tx : Tx} (hc : Committing t w tx)
    (h : (Instr.commit tx).OfUploads) :
    (tx.apply w.db).users = w.db.users ∨ ∃ id, w.Publishes ((w.write tx t).release t) id := by
  cases htx : tx.published with
  | some id => exact .inr ⟨id, hc.publishes.mpr htx⟩
  | none =>
    left
    cases tx with
    | none => rfl
    | uploads tx => cases tx <;> first | rfl | cases htx
    | journal tx => cases tx <;> first | rfl | cases htx
    | files tx => cases h
    | auth tx => cases h
    | sharing tx => cases h

/-- **An upload is published once.** In every run of the server at most one file of an upload is ever
committed, a session is completed by the commit of its file and by no other step, and that charges its
size to the owner; no session becomes active again. And nothing else that the upload operations do
changes a user. -/
theorem upload_published_once (s : Settings) (users : Table User) :
    (∀ c, Reachable s anyStep users c →
      (∀ i j r r' id, c.state.seen i = some r → c.state.seen j = some r' → r.uploadId = some id →
        r'.uploadId = some id → i = j) ∧
      ∀ m c', c.next (system s) m = some c' → ∀ id, PublishesOnce c.state c'.state id) ∧
    ∀ c₀, Reachable s anyStep users c₀ →
      ∀ c, Reach ((system s).only Call.isUpload) anyStep c₀.state c →
        ∀ m c', c.next ((system s).only Call.isUpload) m = some c' →
          c'.state.db.users = c.state.db.users ∨ ∃ id, c.state.Publishes c'.state id := by
  refine ⟨fun c hc => ⟨hc.published.unique, fun m c' hn id => ?_⟩, fun c₀ hc₀ c hc m c' hn => ?_⟩
  · have heffect := Reach.effect (verified s) inv_initial hc (meets_anyStep c m) hn
    obtain ⟨hdb, hs⟩ | ⟨t, tx, hcommit, heq⟩ := Effect.db hc.inv heffect
    · exact .of_eq hdb hs id
    · rw [heq]
      exact hcommit.publishesOnce
  · have hV : Verified ((system s).only Call.isUpload) contract := (verified s).only _
    have honly : ∀ t p, c.threads.get t = some p → p.Only Instr.OfUploads :=
      hc.only fun a w ha => a.only_ofUploads s (Bool.and_eq_true_iff.mp ha).1
    have heffect := (hc.effect hV hc₀.inv (.of_only honly m) hn).of_only
    obtain ⟨hdb, -⟩ | ⟨t, tx, hcommit, heq⟩ := Effect.db (hc.safe hV hc₀.inv).1 heffect
    · exact .inl (by rw [hdb])
    · rw [heq]
      exact hcommit.users_eq hcommit.cond

theorem upload_published_once_commit :
    ∃ c c', Reachable plainSettings anyStep oneUser c ∧
      c.next (system plainSettings) (.run 3 0) = some c' ∧ c.state.Publishes c'.state 1 ∧
      PublishesOnce c.state c'.state 1 ∧
      (c'.state.db.users = c.state.db.users ∨ ∃ id, c.state.Publishes c'.state id) := by
  have hrun : (Config.nexts ((system plainSettings).only Call.isUpload) unchecked
      ⟨World.initial (.empty oneUser), .empty⟩ upToCommit).any (fun c =>
        (c.next (system plainSettings) (.run 3 0)).any fun c' =>
          c.state.seen 1 = none && (c'.state.seen 1).any (·.uploadId = some 1)) = true := by
    decide +kernel
  obtain ⟨c, hc, hp⟩ := (Option.any_eq_true ..).mp hrun
  obtain ⟨c', hn, hp⟩ := (Option.any_eq_true ..).mp hp
  simp only [Bool.and_eq_true, decide_eq_true_eq] at hp
  obtain ⟨r, hr, hup⟩ := (Option.any_eq_true ..).mp hp.2
  have hreach : Reach ((system plainSettings).only Call.isUpload) anyStep
      (World.initial (.empty oneUser)) c := Reach.start.nexts (fun _ _ _ _ _ => trivial) hc
  have h := upload_published_once plainSettings oneUser
  exact ⟨c, c', hreach.of_only, hn, ⟨1, r, hp.1, hr, of_decide_eq_true hup⟩,
    (h.1 c hreach.of_only).2 _ c' hn 1, h.2 _ .start c hreach (.run 3 0) c' hn⟩

end HomeCloud
