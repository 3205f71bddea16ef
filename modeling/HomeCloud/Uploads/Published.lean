import HomeCloud.Commits

/-!
# An upload is published once

The file of an upload is made by one kind of commit, which needs an active session and completes it,
and a session that is not active stays so.

* `Tx.published`: the upload that a commit publishes.
* `UploadSession.Settles`: what no commit does to a session.
* `SessionChange`, **`Committing.session_change`**: what a commit makes of a session.
* **`Published.commit`**: at most one file of an upload has ever been there, and its session is completed.
* **`SessionsInv.commit`**: the counters of the sessions stay right.
-/

namespace HomeCloud

open Concurrent

/-! ## Publications -/

/-- The upload whose file the writes add. -/
def Tx.published : Tx → Option ℕ
  | .uploads (.publish id _ _ _) => some id
  | .journal (.commit _ sessionId _ _) => some sessionId
  | _ => Option.none

/-- A completed session stays completed, and one that is not active does not become active. -/
def UploadSession.Settles (s s' : UploadSession) : Prop :=
  (s.status = .completed → s'.status = .completed) ∧ (s.active = false → s'.active = false)

theorem UploadSession.Settles.of_status {s s' : UploadSession} (h : s'.status = s.status) :
    s.Settles s' := by
  simp [Settles, active, h]

theorem UploadSession.active_eq_false {s : UploadSession} :
    s.active = false ↔ s.status = .completed ∨ s.status = .aborted := by
  unfold active
  cases s.status <;> simp

theorem UploadSession.Settles.of_completed {s s' : UploadSession} (h : s'.status = .completed) :
    s.Settles s' := ⟨fun _ => h, fun _ => active_eq_false.mpr (.inl h)⟩

theorem UploadSession.Advances.settles {w : World} {id : ℕ} {s s' : UploadSession}
    (h : s.Advances w id s') : s.Settles s' := by
  rcases h with h | ⟨h, -⟩ | ⟨h, h'⟩ | ⟨-, h', -⟩
  · exact .of_status h
  · refine ⟨fun hc => ?_, fun hn => ?_⟩
    · simp [UploadSession.active, hc] at h
    · rw [h] at hn
      cases hn
  · exact ⟨fun hc => absurd hc h, fun _ => active_eq_false.mpr (.inr h')⟩
  · exact .of_completed h'

/-! ## Sessions -/

/-- What a commit of `t` makes of the row of the session `s`: it is as it was but for its references,
or new, or saved by an upload operation, or completed with its file, or its chunk rows are deleted. -/
inductive SessionChange (t : ℕ) (w : World) (s : ℕ) (q' : UploadSession) : Tx → Prop
  | unmoved {tx q} : w.db.uploadSessions.get s = some q → q.Unmoved q' → SessionChange t w s q' tx
  | created {receipt} : s = w.db.uploadSessions.bound → CreateSessionOk t w q' receipt →
      SessionChange t w s q' (.uploads (.createSession q' receipt))
  | saved {q} : SaveSessionOk t w s q' q → SessionChange t w s q' (.uploads (.saveSession s q'))
  | published {file c q attempt} : PublishOk t w s q' file c q attempt →
      SessionChange t w s q' (.uploads (.publish s q' file c))
  | finalized {id file c op q} : CommitOk t w id s file c op q → q' = { q with status := .completed } →
      SessionChange t w s q' (.journal (.commit id s file c))
  | cleaned {id op q} : FinishCleanupOk t w id s op → w.db.uploadSessions.get s = some q →
      q' = { q with chunks := [] } → SessionChange t w s q' (.journal (.finishCleanup id s))

section Commit

variable {t : ℕ} {w : World} {tx : Tx} {s : ℕ} {q' : UploadSession}

/-- **What a commit makes of a session.** -/
theorem Committing.session_change (hc : Committing t w tx)
    (hq' : (tx.apply w.db).uploadSessions.get s = some q') : SessionChange t w s q' tx := by
  have hkept : ∀ {tx : Tx}, w.db.uploadSessions.get s = some q' → SessionChange t w s q' tx :=
    fun h => .unmoved h (.refl q')
  have hok := hc.ok
  cases tx with
  | none => exact hkept hq'
  | auth tx => cases tx <;> exact hkept hq'
  | sharing tx => cases tx <;> exact hkept hq'
  | files tx =>
    cases tx with
    | deleteFile id u bytes =>
      obtain ⟨q, hq, hu⟩ := Db.unmoved_dropFiles hq'
      exact .unmoved hq hu
    | deleteTree view u folders files mirrors bytes =>
      obtain ⟨q, hq, hu⟩ := Db.unmoved_deleted hq'
      exact .unmoved hq hu
    | trashFile id patch =>
      simp only [Tx.apply, FilesTx.apply] at hq'
      cases hf : w.db.files.get id <;> rw [hf] at hq' <;> exact hkept hq'
    | _ => exact hkept hq'
  | uploads tx =>
    cases tx with
    | createSession session receipt =>
      change (w.db.uploadSessions.insert session).get s = some q' at hq'
      rw [Table.get_insert] at hq'
      split_ifs at hq' with hs
      · cases hq'
        exact .created hs hok
      · exact hkept hq'
    | saveSession id session =>
      obtain ⟨old, ho⟩ := hok
      change (w.db.uploadSessions.put id session).get s = some q' at hq'
      rw [Table.get_put] at hq'
      split_ifs at hq' with hs
      · cases hq'
        subst hs
        exact .saved ho
      · exact hkept hq'
    | deleteSession id =>
      change (w.db.uploadSessions.erase id).get s = some q' at hq'
      rw [Table.get_erase] at hq'
      split_ifs at hq'
      exact hkept hq'
    | publish id session file c =>
      obtain ⟨old, attempt, ho⟩ := hok
      change (w.db.uploadSessions.put id session).get s = some q' at hq'
      rw [Table.get_put] at hq'
      split_ifs at hq' with hs
      · cases hq'
        subst hs
        exact .published ho
      · exact hkept hq'
  | journal tx =>
    have hmap : ∀ {id : ℕ} {g : UploadSession → UploadSession},
        (w.db.uploadSessions.map fun i r => if i = id then g r else r).get s = some q' →
          (s = id ∧ ∃ q, w.db.uploadSessions.get s = some q ∧ q' = g q) ∨
            w.db.uploadSessions.get s = some q' := by
      intro id g h
      obtain ⟨q, hq, rfl⟩ := Option.map_eq_some_iff.mp h
      dsimp only
      split_ifs with hs
      · exact .inl ⟨hs, q, hq, rfl⟩
      · exact .inr hq
    cases tx with
    | commit id sessionId file c =>
      obtain ⟨-, op, q, ho⟩ := hok
      rcases hmap hq' with ⟨rfl, q₀, hq₀, hset⟩ | hq
      · cases hq₀.symm.trans ho.row
        exact .finalized ho hset
      · exact hkept hq
    | finishCleanup id sessionId =>
      obtain ⟨-, op, ho⟩ := hok
      rcases hmap hq' with ⟨rfl, q, hq, hset⟩ | hq
      · exact .cleaned ho hq hset
      · exact hkept hq
    | _ => exact hkept hq'

/-- **No commit makes a session active again**, or takes back that it is completed. -/
theorem Committing.sessions (hc : Committing t w tx) :
    w.db.uploadSessions.Issued UploadSession.Settles (tx.apply w.db).uploadSessions := by
  refine ⟨hc.respects.grows.sessions.bound, fun i q hb hq => ?_⟩
  cases hc.session_change hq with
  | unmoved hq₀ hu => exact ⟨_, hq₀, .of_status hu.status⟩
  | created hs => exact absurd hb (hs ▸ lt_irrefl _)
  | saved ho => exact ⟨_, ho.row, ho.advances.settles⟩
  | published ho => exact ⟨_, ho.row, .of_completed ho.completed⟩
  | finalized ho hset => exact ⟨_, ho.row, .of_completed (hset ▸ rfl)⟩
  | cleaned _ hq₀ hset => exact ⟨_, hq₀, .of_status (hset ▸ rfl)⟩

/-- A commit that publishes an upload finds its session active. -/
theorem Committing.published_active (hc : Committing t w tx) (h : tx.published = some s) :
    ∃ q, w.db.uploadSessions.get s = some q ∧ q.active = true := by
  have hok := hc.ok
  cases tx with
  | uploads tx =>
    cases tx with
    | publish id session file c =>
      cases h
      obtain ⟨old, attempt, ho⟩ := hok
      exact ⟨old, ho.row, ho.active⟩
    | _ => cases h
  | journal tx =>
    cases tx with
    | commit id sessionId file c =>
      cases h
      obtain ⟨-, op, q, ho⟩ := hok
      exact ⟨q, ho.row, ho.active⟩
    | _ => cases h
  | _ => cases h

/-- A commit that publishes an upload leaves its session completed. -/
theorem Committing.published_completed (hc : Committing t w tx) (h : tx.published = some s)
    (hq' : (tx.apply w.db).uploadSessions.get s = some q') : q'.status = .completed := by
  have hok := hc.ok
  cases tx with
  | uploads tx =>
    cases tx with
    | publish id session file c =>
      cases h
      obtain ⟨old, attempt, ho⟩ := hok
      have hput : (w.db.uploadSessions.put s session).get s = some q' := hq'
      rw [Table.get_put_self] at hput
      cases hput
      exact ho.completed
    | _ => cases h
  | journal tx =>
    cases tx with
    | commit id sessionId file c =>
      cases h
      simp only [Tx.apply, JournalTx.apply, Db.updateSession_self, Option.map_eq_some_iff] at hq'
      obtain ⟨q, -, rfl⟩ := hq'
      rfl
    | _ => cases h
  | _ => cases h

/-- A row that has not been there before: it is the file of an upload only when that is published,
by the owner of the session, a mirror is empty, and only a finalization commits the object of one. -/
structure FreshRow (w : World) (tx : Tx) (i : ℕ) (r : File) : Prop where
  new : i = w.db.files.bound
  upload : r.uploadId = tx.published
  owner : ∀ s q, tx.published = some s → w.db.uploadSessions.get s = some q → r.userId = q.userId
  empty : r.isFolder = true → r.size = 0
  finalized : ∀ u n, r.placement = some ⟨0, .finalized u n⟩ → ∃ id s c, tx = .journal (.commit id s r c)

theorem FreshRow.of_plain {i : ℕ} {r file : File} (hb : i = w.db.files.bound ∧ r = file)
    (hu : file.uploadId = tx.published) (hp : file.isFolder = false)
    (hf : ∀ u n, file.placement = some ⟨0, .finalized u n⟩ → ∃ id s c, tx = .journal (.commit id s file c))
    (ho : ∀ s q, tx.published = some s → w.db.uploadSessions.get s = some q →
      file.userId = q.userId) : FreshRow w tx i r where
  new := hb.1
  upload := hb.2 ▸ hu
  owner := hb.2 ▸ ho
  empty hf := by
    rw [hb.2, hp] at hf
    cases hf
  finalized := hb.2 ▸ hf

theorem Committing.fresh_row (hc : Committing t w tx) {i : ℕ} {r : File}
    (hr : (tx.apply w.db).files.get i = some r) (hs : w.seen i = none) : FreshRow w tx i r := by
  have hok := hc.ok
  -- A row that was there has been seen.
  have hold : w.db.files.get i ≠ some r := fun h => by
    rw [hc.inv.seen i r h] at hs
    cases hs
  have hinsert : ∀ {file : File}, (w.db.files.insert file).get i = some r →
      i = w.db.files.bound ∧ r = file := by
    intro file h
    rw [Table.get_insert] at h
    split_ifs at h with hb
    · exact ⟨hb, (Option.some.inj h).symm⟩
    · exact absurd h hold
  have hput : ∀ {j : ℕ} {file r' : File}, w.seen j = some r' →
      (w.db.files.put j file).get i ≠ some r := by
    intro j file r' hj h
    rw [Table.get_put] at h
    split_ifs at h with hb
    · rw [hb, hj] at hs
      cases hs
    · exact hold h
  cases tx with
  | none => exact absurd hr hold
  | auth tx => cases tx <;> exact absurd hr hold
  | sharing tx => cases tx <;> exact absurd hr hold
  | uploads tx =>
    cases tx with
    | publish id session file c =>
      obtain ⟨old, attempt, ho⟩ := hok
      refine .of_plain (hinsert hr) ho.upload ho.added.plain.1 (fun u n hp => ?_) fun s q hs hq => ?_
      · cases ho.placement.symm.trans hp
      · cases hs
        cases hq.symm.trans ho.row
        exact ho.owner
    | _ => exact absurd hr hold
  | journal tx =>
    cases tx with
    | commit id sessionId file c =>
      obtain ⟨-, op, q, ho⟩ := hok
      refine .of_plain (hinsert hr) ho.upload ho.added.plain.1 (fun _ _ _ => ⟨id, sessionId, c, rfl⟩)
        fun s q' hs hq => ?_
      cases hs
      cases hq.symm.trans ho.row
      exact ho.owner.trans ho.binds.1.symm
    | _ => exact absurd hr hold
  | files tx =>
    cases tx with
    | addFile file c =>
      obtain ⟨hadded, hupload, k, hplacement⟩ := hok
      refine .of_plain (hinsert hr) hupload hadded.plain.1 (fun u n hp => ?_) fun _ _ hs => nomatch hs
      cases hplacement.symm.trans hp
    | addFolder folder receipt c =>
      obtain ⟨hb, rfl⟩ := hinsert hr
      exact ⟨hb, rfl, (fun _ _ hs => nomatch hs), (fun _ => rfl), fun u n hp => by cases hp⟩
    | placeFile id file choice =>
      obtain ⟨old, ho⟩ := hok
      exact absurd hr (hput (hc.inv.seen id old ho.row))
    | setFolder id mirrorId folder mirror choice =>
      obtain ⟨old, oldMirror, ho⟩ := hok
      exact absurd hr (hput (hc.inv.seen mirrorId oldMirror ho.mirrorRow))
    | trashFile id patch =>
      obtain ⟨old, ho⟩ := hok
      simp only [Tx.apply, FilesTx.apply, ho.row] at hr
      exact absurd hr (hput (hc.inv.seen id old ho.row))
    | reinsertFile id file =>
      obtain ⟨r', hr', -⟩ := hok.seen
      exact absurd hr (hput hr')
    | deleteFile id u bytes =>
      exact absurd (Table.get_eraseAll_eq_some.mp hr).2 hold
    | deleteTree view u folders files mirrors bytes =>
      have ha := (Bool.and_eq_true_iff.mp hc.allowed).1
      change ((FilesTx.deleteTree view u folders files mirrors bytes).apply w.db).files.get i = _ at hr
      rw [DeleteTreeOk.get_files hok hc.inv ha] at hr
      split_ifs at hr
      exact absurd hr hold

/-- **A row seen after a commit** is of an object seen before, or is new. -/
theorem Committing.seen_row (hc : Committing t w tx) {i : ℕ} {r : File}
    (hr : (w.write tx t).seen i = some r) :
    (∃ r₀, w.seen i = some r₀ ∧ r₀.SameObject r) ∨ FreshRow w tx i r :=
  (World.seen_write hc.respects rfl hr).imp_right fun h => hc.fresh_row h.2 h.1

end Commit

/-! ## The invariants -/

/-- The mirrors that have been there are empty. -/
def MirrorsEmpty (seen : ℕ → Option File) : Prop :=
  ∀ i r, seen i = some r → r.isFolder = true → r.size = 0

section

variable {t : ℕ} {w : World} {tx : Tx}

/-- **Every commit keeps at most one file for an upload.** -/
theorem Published.commit (h : Published w.db w.seen) (hc : Committing t w tx) :
    Published (tx.apply w.db) (w.write tx t).seen := by
  -- The upload of a new row is published by this commit, so its session was active.
  have hnew : ∀ {i r s}, (w.write tx t).seen i = some r → r.uploadId = some s →
      (∃ r₀, w.seen i = some r₀ ∧ r₀.uploadId = some s ∧ r.userId = r₀.userId) ∧
        tx.published ≠ some s ∨
      i = w.db.files.bound ∧ tx.published = some s ∧
        ∀ q, w.db.uploadSessions.get s = some q → r.userId = q.userId := by
    intro i r s hr hs
    rcases hc.seen_row hr with ⟨r₀, hr₀, hsame⟩ | hfresh
    · have he : r₀.uploadId = some s := hsame.uploadId.symm.trans hs
      refine .inl ⟨⟨r₀, hr₀, he, hsame.userId⟩, fun hp => ?_⟩
      obtain ⟨q, hq, ha⟩ := hc.published_active hp
      exact h.not_seen hq ha hr₀ he
    · have hp := hfresh.upload.symm.trans hs
      exact .inr ⟨hfresh.new, hp, fun q => hfresh.owner s q hp⟩
  refine ⟨fun i j r r' s hi hj hr hr' => ?_, fun i r s hi hr => ?_, fun i r s q hi hr hq => ?_⟩
  · rcases hnew hi hr with ⟨⟨r₁, hr₁, he₁, -⟩, hn₁⟩ | ⟨hb₁, hp₁, -⟩
    · rcases hnew hj hr' with ⟨⟨r₂, hr₂, he₂, -⟩, -⟩ | ⟨-, hp₂, -⟩
      · exact h.unique i j r₁ r₂ s hr₁ hr₂ he₁ he₂
      · exact absurd hp₂ hn₁
    · rcases hnew hj hr' with ⟨-, hn₂⟩ | ⟨hb₂, -, -⟩
      · exact absurd hp₁ hn₂
      · rw [hb₁, hb₂]
  · refine lt_of_lt_of_le ?_ hc.sessions.bound
    rcases hnew hi hr with ⟨⟨r₀, hr₀, he, -⟩, -⟩ | ⟨-, hp, -⟩
    · exact h.issued i r₀ s hr₀ he
    · obtain ⟨q, hq, -⟩ := hc.published_active hp
      exact Table.lt_bound hq
  · have hgrows := hc.respects.grows.sessions
    rcases hnew hi hr with ⟨⟨r₀, hr₀, he, hu⟩, -⟩ | ⟨-, hp, hu⟩
    · have hb := h.issued i r₀ s hr₀ he
      obtain ⟨q₀, hq₀, hset⟩ := hc.sessions.old s q hb hq
      obtain ⟨hdone, howner⟩ := h.completed i r₀ s q₀ hr₀ he hq₀
      obtain ⟨q₁, hq₁, hsame⟩ := hgrows.old s q hb hq
      cases hq₀.symm.trans hq₁
      exact ⟨hset.1 hdone, hu.trans (howner.trans hsame.userId.symm)⟩
    · obtain ⟨q₀, hq₀, -⟩ := hc.published_active hp
      obtain ⟨q₁, hq₁, hsame⟩ := hgrows.old s q (Table.lt_bound hq₀) hq
      exact ⟨hc.published_completed hp hq, (hu q₁ hq₁).trans hsame.userId.symm⟩

theorem MirrorsEmpty.commit (h : MirrorsEmpty w.seen) (hc : Committing t w tx) :
    MirrorsEmpty (w.write tx t).seen := by
  intro i r hr hf
  rcases hc.seen_row hr with ⟨r₀, hr₀, hsame⟩ | hfresh
  · rw [hsame.size]
    exact h i r₀ hr₀ (hsame.isFolder ▸ hf)
  · exact hfresh.empty hf

/-- **Every commit keeps the sessions in order.** -/
theorem SessionsInv.commit (h : SessionsInv w.db) (hc : Committing t w tx) :
    SessionsInv (tx.apply w.db) := by
  intro s q' hq'
  have hidle : ∀ {q : UploadSession}, q.Sound → q.SameUpload q' →
      (q'.workspaceId = .ssd → q'.accountingInitialized = true) →
      (q'.accountingInitialized = false → q'.chunks = []) → q'.status = .completed → q'.Sound :=
    fun hq hsame hi hn hdone => ⟨hsame.laidOut hq.laidOut, hi, hn, fun ha => by
      rw [UploadSession.active, hdone] at ha
      cases ha⟩
  cases hc.session_change hq' with
  | unmoved hq hu => exact hu.sound (h s _ hq)
  | created _ ho =>
    obtain ⟨hchunks, hcount, hsize, hinit⟩ := ho.unstarted
    refine ⟨ho.laidOut, fun _ => hinit, fun _ => hchunks, fun _ _ => ?_⟩
    exact ⟨by rw [hcount, hchunks]; rfl, by rw [hsize, hchunks]; rfl,
      by rw [hchunks]; exact List.nodup_nil, by rw [hchunks]; exact fun c hc => absurd hc List.not_mem_nil⟩
  | saved ho => exact ⟨ho.same.laidOut (h s _ ho.row).laidOut, ho.initialized, ho.uncounted, ho.accounted⟩
  | published ho =>
    exact hidle (h s _ ho.row) ho.same (fun hssd => absurd hssd (ho.same.not_ssd ho.workspace))
      (fun _ => ho.chunks) ho.completed
  | finalized ho hset =>
    have hq := h s _ ho.row
    subst hset
    exact hidle hq ⟨rfl, rfl, rfl, rfl, rfl, rfl, rfl, rfl, rfl⟩ hq.initialized hq.uncounted rfl
  | cleaned ho hq hset =>
    subst hset
    have hsound := h s _ hq
    exact hidle hsound ⟨rfl, rfl, rfl, rfl, rfl, rfl, rfl, rfl, rfl⟩ hsound.initialized (fun _ => rfl)
      (ho.completed _ hq).2

end

end HomeCloud
