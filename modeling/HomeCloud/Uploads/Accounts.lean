import HomeCloud.Server

/-!
# The accounts of the uploads

What the server counts for uploads that are on the way, on either disk: the chunks of each, and what they have
reserved of the quota of their owner.

* **`chunks_accounted`**: the counters of an active upload are those of its chunk rows.
* `ReservationsFit`, **`ReservationsFit.commit`**: usage and reservations fit the quota.
* **`reservations_respected`**: in every run in which the files that are not uploaded leave room for them.
-/

namespace HomeCloud

open Concurrent

/-! ## Chunks -/

section Chunks

variable {s : Settings} {ssd : SsdSettings} {cond : Instr → ℕ → World → Prop} {users : Table User}
  {c : Config World Instr Err Unit}

/-- **The counters of an active upload are those of its chunk rows**, each of which fits the layout and is there
once; all bytes are there exactly when every chunk is. A recorded chunk of an upload on the SSD has its file, of
the size and with the digest of its row. -/
theorem chunks_accounted (h : ServerReachable s ssd cond users c) {id : ℕ} {q : UploadSession}
    (hq : c.state.db.uploadSessions.get id = some q) (ha : q.active = true)
    (hi : q.accountingInitialized = true) :
    q.Accounted ∧ q.uploadedSize ≤ q.totalSize ∧
      (q.uploadedSize = q.totalSize ↔ ∀ i < q.totalChunks, (q.chunk i).isSome) ∧
      (q.workspaceId = .ssd → ∀ part ∈ q.chunks, c.state.disk.ssd.Stored id part) := by
  have hsound := h.inv.sessions id q hq
  have haccounted := hsound.accounted ha hi
  exact ⟨haccounted, haccounted.size_le hsound.laidOut, haccounted.size_eq_iff hsound.laidOut,
    fun hw => h.inv.disk.backed.stored id q hq ⟨hw, ha⟩⟩

/-- After the first chunk. -/
theorem chunks_accounted_stored : ∃ (c : Config World Instr Err Unit) (q : UploadSession),
    ServerReachable mimeSettings ssdSettings anyStep oneUser c ∧
      c.state.db.uploadSessions.get 1 = some q ∧ q.Accounted ∧ q.uploadedSize = 1 := by
  obtain ⟨c, hc, hs⟩ := exists_serverReachable mimeSettings ssdSettings oneUser unchecked_server (uploadOnSsd 0)
    (fun c => (c.state.db.uploadSessions.get 1).any fun q =>
      q.active && q.accountingInitialized && q.uploadedSize = 1) (by decide +kernel)
  obtain ⟨q, hq, hrest⟩ := (Option.any_eq_true ..).mp hs
  simp only [Bool.and_eq_true, decide_eq_true_eq] at hrest
  exact ⟨c, q, hc, hq, (chunks_accounted hc hq hrest.1.1 hrest.1.2).1, hrest.2⟩

end Chunks

/-! ## Reservations -/

/-- What users have used and what their active uploads have reserved fits their quotas. -/
def ReservationsFit (db : Db) : Prop :=
  ∀ u r, db.users.get u = some r → r.storageUsed + db.reserved u ≤ r.storageQuota

/-- A file that is not uploaded leaves room for what is reserved, and no usage and no quota is written that is not
the current one. -/
def leavesReserved : Instr → ℕ → World → Bool
  | .commit (.files (.addFile file _)), _, w => (w.db.users.get file.userId).all fun r =>
    decide (r.storageUsed + w.db.reserved file.userId + file.size ≤ (r.storageQuota : ℤ))
  | .commit (.auth (.saveUser id patch)), _, w => (w.db.users.get id).all fun r =>
    patch.storageUsed.all (fun v => r.storageUsed = v) && patch.storageQuota.all fun v => r.storageQuota = v
  | _, _, _ => true

/-- The same, as a condition on statements. -/
def LeavesReserved (i : Instr) (t : ℕ) (w : World) : Prop := leavesReserved i t w = true

/-- What a session has reserved for `u`. -/
def UploadSession.reserves (s : UploadSession) (u : ℕ) : ℕ := if s.userId = u ∧ s.active then s.totalSize else 0

section Reservations

variable {t : ℕ} {w : World} {tx : Tx} {db db' : Db} {u id : ℕ} {q q' : UploadSession}

theorem UploadSession.reserves_of_inactive (h : q.active = false) : q.reserves u = 0 := by
  simp [UploadSession.reserves, h]

/-- A session that does not become active reserves no more than before. -/
theorem UploadSession.SameUpload.reserves_le (h : q.SameUpload q') (ha : q'.active = true → q.active = true) :
    q'.reserves u ≤ q.reserves u := by
  unfold UploadSession.reserves
  rw [h.userId, h.totalSize]
  split_ifs with h1 h2 h2
  · exact le_rfl
  · exact absurd ⟨h1.1, ha h1.2⟩ h2
  all_goals exact Nat.zero_le _

/-- An active session has reserved its size. -/
theorem Db.totalSize_le_reserved (hq : db.uploadSessions.get id = some q) (ha : q.active = true) :
    q.totalSize ≤ db.reserved q.userId := by
  have herase := db.uploadSessions.total_erase (fun _ (s : UploadSession) => s.reserves q.userId) id
  rw [hq] at herase
  have hterm : q.reserves q.userId = q.totalSize := by simp [UploadSession.reserves, ha]
  simp only [Option.elim_some, hterm] at herase
  change q.totalSize ≤ db.uploadSessions.total fun _ (s : UploadSession) => s.reserves q.userId
  omega

/-- A session that is settled gives its reservation back. -/
theorem Db.reserved_settled (hq : db.uploadSessions.get id = some q) (hq' : db'.uploadSessions.get id = some q')
    (hother : ∀ i, i ≠ id → db'.uploadSessions.get i = db.uploadSessions.get i) (ha : q'.active = false) :
    db'.reserved u + q.reserves u = db.reserved u := by
  have hput := db.uploadSessions.total_put (fun _ (s : UploadSession) => s.reserves u) id q'
  have hsame : db'.uploadSessions.total (fun _ (s : UploadSession) => s.reserves u) =
      (db.uploadSessions.put id q').total fun _ (s : UploadSession) => s.reserves u := by
    refine Table.total_eq_of_get _ fun i => ?_
    by_cases hi : i = id
    · rw [hi, hq', Table.get_put_self]
    · rw [hother i hi, Table.get_put_ne _ _ hi]
  rw [hq, UploadSession.reserves_of_inactive ha] at hput
  simp only [Option.elim_some, Nat.add_zero] at hput
  change db'.uploadSessions.total (fun _ (s : UploadSession) => s.reserves u) + q.reserves u =
    db.uploadSessions.total fun _ (s : UploadSession) => s.reserves u
  rw [hsame, hput]

/-- No commit but that of a new session reserves more. -/
theorem Committing.reserved_le (hc : Committing t w tx)
    (hnew : ∀ session receipt, tx ≠ .uploads (.createSession session receipt)) :
    (tx.apply w.db).reserved u ≤ w.db.reserved u := by
  refine Table.total_le (f := fun _ (s : UploadSession) => s.reserves u) (g := fun _ (s : UploadSession) => s.reserves u) fun i q' hq' => ?_
  cases hc.session_change hq' with
  | unmoved hq hu => exact .inr ⟨_, hq, hu.toSameUpload.reserves_le fun ha => hu.active ▸ ha⟩
  | created => exact absurd rfl (hnew _ _)
  | saved hok => exact .inr ⟨_, hok.row, hok.same.reserves_le hok.advances.active⟩
  | published hok =>
    exact .inl (UploadSession.reserves_of_inactive (UploadSession.active_eq_false.mpr (.inl hok.completed)))
  | finalized hok hset =>
    exact .inl (UploadSession.reserves_of_inactive (UploadSession.active_eq_false.mpr (.inl (hset ▸ rfl))))
  | cleaned _ hq hset =>
    refine .inr ⟨_, hq, ?_⟩
    rw [hset]
    exact le_rfl

/-- Usage and reservations together grow for nobody. -/
theorem ReservationsFit.of_le (h : ReservationsFit db) (hu : ∀ u r', db'.users.get u = some r' →
    ∃ r, db.users.get u = some r ∧ r'.storageQuota = r.storageQuota ∧
      r'.storageUsed + db'.reserved u ≤ r.storageUsed + db.reserved u) : ReservationsFit db' := by
  intro u r' hr'
  obtain ⟨r, hr, hquota, hle⟩ := hu u r' hr'
  rw [hquota]
  exact hle.trans (h u r hr)

/-- The users stay as they are and nothing new is reserved. -/
theorem ReservationsFit.of_users (h : ReservationsFit db) (hu : db'.users = db.users)
    (hle : ∀ u, db'.reserved u ≤ db.reserved u) : ReservationsFit db' :=
  h.of_le fun u r hr => ⟨r, hu ▸ hr, rfl, by have hu := hle u; omega⟩

/-- A row after a charge. -/
theorem Db.charge_row {v : ℕ} {b : ℤ} {r' : User} (hu : db'.users = (db.charge v b).users)
    (hr' : db'.users.get u = some r') : ∃ r, db.users.get u = some r ∧ r'.storageQuota = r.storageQuota ∧
      r'.storageUsed = r.storageUsed + if u = v then b else 0 := by
  rw [hu] at hr'
  obtain ⟨r, hr, rfl⟩ := Option.map_eq_some_iff.mp hr'
  refine ⟨r, hr, ?_⟩
  dsimp only
  split_ifs
  · exact ⟨rfl, rfl⟩
  · exact ⟨rfl, (Int.add_zero _).symm⟩

/-- **The file of an upload takes the place of its reservation.** -/
theorem ReservationsFit.publish (h : ReservationsFit db) (hq : db.uploadSessions.get id = some q)
    (hq' : db'.uploadSessions.get id = some q')
    (hother : ∀ i, i ≠ id → db'.uploadSessions.get i = db.uploadSessions.get i) (hactive : q.active = true)
    (hdone : q'.active = false) (hu : db'.users = (db.charge q.userId q.totalSize).users) :
    ReservationsFit db' := by
  refine h.of_le fun u r' hr' => ?_
  obtain ⟨r, hr, hquota, hused⟩ := Db.charge_row hu hr'
  refine ⟨r, hr, hquota, ?_⟩
  have hsettled := Db.reserved_settled (u := u) hq hq' hother hdone
  rw [hused]
  split_ifs with hv
  · have hterm : q.reserves u = q.totalSize := by simp [UploadSession.reserves, hactive, hv]
    omega
  · omega

/-- A deletion charges nothing. -/
theorem ReservationsFit.discharge {v bytes : ℕ} (h : ReservationsFit db)
    (hu : db'.users = (db.charge v (-bytes)).users) (hle : ∀ u, db'.reserved u ≤ db.reserved u) :
    ReservationsFit db' := by
  refine h.of_le fun u r' hr' => ?_
  obtain ⟨r, hr, hquota, hused⟩ := Db.charge_row hu hr'
  refine ⟨r, hr, hquota, ?_⟩
  have hres := hle u
  rw [hused]
  split_ifs <;> omega

/-- A file that is not uploaded leaves room for what is reserved. -/
theorem ReservationsFit.addFile {file : File} (h : ReservationsFit db)
    (hcond : (db.users.get file.userId).all (fun r =>
      decide (r.storageUsed + db.reserved file.userId + file.size ≤ (r.storageQuota : ℤ))) = true)
    (hu : db'.users = (db.charge file.userId file.size).users) (hres : ∀ u, db'.reserved u = db.reserved u) :
    ReservationsFit db' := by
  intro u r' hr'
  obtain ⟨r, hr, hquota, hused⟩ := Db.charge_row hu hr'
  rw [hquota, hused, hres]
  have hfit := h u r hr
  split_ifs with hv
  · subst hv
    simp only [hr, Option.all_some, decide_eq_true_eq] at hcond
    omega
  · omega

/-- A user that is saved keeps the usage and the quota. -/
theorem ReservationsFit.saveUser {patch : UserPatch} (h : ReservationsFit db)
    (hcond : (db.users.get id).all (fun r =>
      patch.storageUsed.all (fun v => r.storageUsed = v) && patch.storageQuota.all fun v => r.storageQuota = v) =
        true) : ReservationsFit (Tx.apply db (.auth (.saveUser id patch))) := by
  refine h.of_le fun u r' hr' => ?_
  simp only [Tx.apply, AuthTx.apply, Table.get_map, Option.map_eq_some_iff] at hr'
  obtain ⟨r, hr, rfl⟩ := hr'
  refine ⟨r, hr, ?_⟩
  have hres : (Tx.apply db (.auth (.saveUser id patch))).reserved u = db.reserved u := rfl
  rw [hres]
  split_ifs with hu
  · subst hu
    simp only [hr, Option.all_some, Bool.and_eq_true] at hcond
    obtain ⟨hused, hquota⟩ := hcond
    have hused' : patch.storageUsed.getD r.storageUsed = r.storageUsed := by
      cases hp : patch.storageUsed with
      | none => rfl
      | some v =>
        rw [hp, Option.all_some, decide_eq_true_eq] at hused
        exact hused.symm
    have hquota' : patch.storageQuota.getD r.storageQuota = r.storageQuota := by
      cases hp : patch.storageQuota with
      | none => rfl
      | some v =>
        rw [hp, Option.all_some, decide_eq_true_eq] at hquota
        exact hquota.symm
    exact ⟨hquota', by rw [UserPatch.apply, hused']⟩
  · exact ⟨rfl, le_rfl⟩

/-- A session is begun within what is left of the quota. -/
theorem ReservationsFit.createSession {session : UploadSession} {receipt : Option PublicShareOperation}
    {owner : User} (h : ReservationsFit db) (howner : db.users.get session.userId = some owner)
    (hroom : owner.storageUsed + db.reserved session.userId + session.totalSize ≤ (owner.storageQuota : ℤ)) :
    ReservationsFit (Tx.apply db (.uploads (.createSession session receipt))) := by
  intro u r hr
  have hinsert : (Tx.apply db (.uploads (.createSession session receipt))).reserved u =
      db.reserved u + session.reserves u := Table.total_insert _ _ _
  have hfit := h u r hr
  rw [hinsert]
  unfold UploadSession.reserves
  split_ifs with hu
  · obtain ⟨rfl, -⟩ := hu
    obtain rfl : owner = r := Option.some.inj (howner.symm.trans hr)
    push_cast
    omega
  · push_cast
    omega

/-- **A commit keeps the reservations**, when a file that is not uploaded leaves room for them. -/
theorem ReservationsFit.commit (h : ReservationsFit w.db) (hc : Commits LeavesReserved t w tx) :
    ReservationsFit (tx.apply w.db) := by
  have hok := hc.ok
  have hcond : leavesReserved (.commit tx) t w = true := hc.cond
  have hle : (∀ session receipt, tx ≠ .uploads (.createSession session receipt)) →
      ∀ u, (tx.apply w.db).reserved u ≤ w.db.reserved u := fun hnew u => hc.toCommitting.reserved_le hnew
  have huncharged : (∀ session receipt, tx ≠ .uploads (.createSession session receipt)) →
      (tx.apply w.db).users = w.db.users → ReservationsFit (tx.apply w.db) := fun hnew hu =>
    h.of_users hu (hle hnew)
  cases tx with
  | none => exact h
  | auth tx =>
    cases tx with
    | saveUser id patch => exact h.saveUser hcond
    | _ => exact huncharged (fun _ _ he => by cases he) rfl
  | sharing tx => cases tx <;> exact huncharged (fun _ _ he => by cases he) rfl
  | uploads tx =>
    cases tx with
    | createSession session receipt =>
      obtain ⟨owner, howner, hroom⟩ := hok.room
      exact h.createSession howner hroom
    | publish id session file c =>
      obtain ⟨old, attempt, ho⟩ := hok
      refine h.publish ho.row (Table.get_put_self ..) (fun i hi => Table.get_put_ne _ _ hi) ho.active
        (UploadSession.active_eq_false.mpr (.inl ho.completed)) ?_
      change (Db.charge _ file.userId file.size).users = _
      rw [ho.owner, ho.size]
      rfl
    | saveSession | deleteSession => exact huncharged (fun _ _ he => by cases he) rfl
  | journal tx =>
    cases tx with
    | commit id sessionId file c =>
      obtain ⟨-, op, q, ho⟩ := hok
      have hdone : { q with status := .completed }.active = false := rfl
      refine h.publish ho.row ?_ (fun i hi => ?_) ho.active hdone ?_
      · simp [Tx.apply, JournalTx.apply, Db.updateSession, Db.updateOperation, Db.charge, ho.row]
      · simp [Tx.apply, JournalTx.apply, Db.updateSession, Db.updateOperation, Db.charge, hi]
      · change (Db.charge _ file.userId file.size).users = _
        rw [ho.owner, ho.size, ← ho.binds.1, ← ho.binds.2.2.2]
        rfl
    | _ => exact huncharged (fun _ _ he => by cases he) rfl
  | files tx =>
    cases tx with
    | addFile file c => exact h.addFile hcond rfl fun _ => rfl
    | trashFile i patch =>
      refine huncharged (fun _ _ he => by cases he) ?_
      simp only [Tx.apply, FilesTx.apply]
      cases w.db.files.get i <;> rfl
    | deleteFile i v bytes => exact h.discharge rfl (hle fun _ _ he => by cases he)
    | deleteTree view v folders files mirrors bytes => exact h.discharge rfl (hle fun _ _ he => by cases he)
    | _ => exact huncharged (fun _ _ he => by cases he) rfl

end Reservations

/-- **Reservations are respected**: in every run in which the files that are not uploaded leave room for them,
usage and reservations fit the quota, and an active upload is never refused its publication for lack of quota. -/
theorem reservations_respected {s : Settings} {ssd : SsdSettings} {users : Table User}
    {c : Config World Instr Err Unit} (h0 : ∀ u r, users.get u = some r → r.storageUsed ≤ r.storageQuota)
    (h : ServerReachable s ssd LeavesReserved users c) :
    ReservationsFit c.state.db ∧ ∀ id q r, c.state.db.uploadSessions.get id = some q → q.active = true →
      c.state.db.users.get q.userId = some r → r.storageUsed + q.totalSize ≤ r.storageQuota := by
  have hfit : ReservationsFit c.state.db := by
    refine h.invariant (fun u r hr => ?_) fun _ _ _ hc hp => hp.commit hc
    have hnone : (Db.empty users).reserved u = 0 := Table.total_empty _
    rw [hnone]
    simpa using h0 u r hr
  refine ⟨hfit, fun id q r hq ha hr => ?_⟩
  have hle := Db.totalSize_le_reserved hq ha
  have hroom := hfit q.userId r hr
  omega

/-- An upload on the way to the SSD. -/
theorem reservations_respected_upload : ∃ (c : Config World Instr Err Unit) (q : UploadSession),
    ServerReachable mimeSettings ssdSettings LeavesReserved oneUser c ∧
      c.state.db.uploadSessions.get 1 = some q ∧ q.active = true ∧ ReservationsFit c.state.db := by
  have hok : ∀ c, ServerReachable mimeSettings ssdSettings LeavesReserved oneUser c → ∀ i t,
      (fun i t (c : Config World Instr Err Unit) => leavesReserved i t c.state : Check) i t c = true →
        LeavesReserved i t c.state := fun _ _ _ _ h => h
  obtain ⟨c, hc, hs⟩ := exists_serverReachable mimeSettings ssdSettings oneUser hok (uploadOnSsd 60)
    (fun c => (c.state.db.uploadSessions.get 1).any (·.active)) (by decide +kernel)
  obtain ⟨q, hq, ha⟩ := (Option.any_eq_true ..).mp hs
  refine ⟨c, q, hc, hq, ha, (reservations_respected (fun u r hr => ?_) hc).1⟩
  rw [oneUser, Table.get_insert] at hr
  split_ifs at hr
  · cases hr
    decide
  · cases hr

end HomeCloud
