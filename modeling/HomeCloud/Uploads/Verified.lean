import HomeCloud.Files.Verified
import HomeCloud.Sharing.Verified
import HomeCloud.Uploads.Fenced

/-!
# The legacy uploads fulfil the contract

* `wp_withTransaction`, **`wp_findSession`**: a transaction on a session.
* **`wp_ensureAccounting`**, **`wp_stageChunk`**: the chunk rows agree with the files.
* **`uploadChunk_safe`**, **`abortUpload_safe`**, `reconcileUploadSession_safe`,
  `cleanupExpiredSessions_safe`, **`createUploadSession_safe`**.
-/

namespace HomeCloud

open Concurrent Sha256

section

variable {t : ℕ} {w w' : World} {id : ℕ} {s : UploadSession} {enabled : Bool} {userId : ℕ}
  {access : Option PublicAccess}

/-! ## Transactions on a session -/

theorem wp_trySessionFence {exclusive : Bool} {Q : Bool → World → Prop}
    (h : ∀ w', Rely t w w' → Inv w' → w'.lost t = false → Inv (w'.takeFence id exclusive t) →
      Q (w'.fenceFree id exclusive t) (w'.takeFence id exclusive t)) :
    After t (trySessionFence id exclusive) Q w :=
  wp_statement_attached rfl fun w₁ ha hl hi w₂ he => by
    cases he
    exact ⟨trivial, h w₁ (ha.rely hl) hi hl (hi.takeFence hl id exclusive)⟩

/-- Who gets the lock for a transaction has it. -/
theorem World.mem_shared_takeFence (h : w.fenceFree id false t = true) :
    t ∈ ((w.takeFence id false t).fences id).shared := by
  simp only [World.takeFence, if_pos h, Bool.false_eq_true, if_false, if_true]
  exact List.mem_cons_self

theorem World.takeFence_disk (exclusive : Bool) : (w.takeFence id exclusive t).disk = w.disk := by
  obtain ⟨fences, hf⟩ := World.takeFence_eq (w := w) (t := t) id exclusive
  rw [hf]

/-- **A transaction on a session shares the lock on it.** -/
theorem wp_withTransaction {α : Type} {body : Op (Tx × α)}
    (h : ∀ w', (∀ x ∈ w.disk.received, x ∈ w'.disk.received) → Inv w' →
      t ∈ (w'.fences id).shared → After t body (fun r w'' => Ready t r.1 w'') w') :
    Safe contract t (withTransaction id body) w := by
  refine wp_transaction ?_
  rw [After, wp_bind]
  refine wp_trySessionFence fun w₁ h₁ _ _ hi₂ => ?_
  rw [wp_bind]
  refine wp_assert fun hfree => h _ (fun x hx => ?_) hi₂ (World.mem_shared_takeFence hfree)
  rw [World.takeFence_disk]
  exact h₁.persists.received x hx

/-- **The session that is found is locked.** -/
theorem wp_findSession {Q : UploadSession → World → Prop} (hf : t ∈ (w.fences id).shared)
    (h : ∀ w' s, Rely t w w' → Inv w' → Engaged t w' id s → sessionWhere userId access s = true →
      Q s w') :
    After t (findSession userId id access) Q w := by
  unfold findSession
  rw [After, wp_bind]
  refine wp_lockSession fun w₁ row h₁ hi hrow hl => wp_require fun s hs => ?_
  obtain ⟨hsome, hwhere⟩ := Option.filter_eq_some_iff.mp hs
  rw [hsome] at hrow hl
  exact h w₁ s h₁ hi ⟨hrow, hl rfl, h₁.held.shared id hf⟩ hwhere

theorem wp_authorizeSession {lock : Bool} {Q : Unit → World → Prop} (hi : Inv w)
    (h : ∀ w', Follows t w w' → Inv w' → Q () w') :
    After t (authorizeSession enabled s access lock) Q w := by
  cases access with
  | none => exact h w (.refl t w) hi
  | some a =>
    dsimp only [authorizeSession]
    rw [After, wp_bind]
    refine wp_assert fun _ => ?_
    rw [wp_bind]
    refine wp_assert fun _ => ?_
    rw [wp_bind]
    exact wp_require fun _ _ => wp_authorizeUpload fun w₁ h₁ hi₁ _ _ => h w₁ h₁ hi₁

theorem wp_resolveSessionWorkspace {Q : Unit → World → Prop}
    (h : ∀ w', Rely t w w' → Inv w' → s.workspaceId = .legacy → Q () w') :
    After t (resolveSessionWorkspace s) Q w := by
  unfold resolveSessionWorkspace
  rw [After, wp_bind]
  refine wp_query fun w₁ h₁ hi => ?_
  rw [wp_bind]
  refine wp_mayFail (wp_assert fun hs => h w₁ h₁ hi ?_)
  simpa using hs

/-! ## Chunks -/

theorem World.Stored.continues {c : UploadChunk} (h : w.torn id = true ∨ w.Stored id c)
    (hc : w.controls id t = true) (hr : Continues t w w') : w'.torn id = true ∨ w'.Stored id c := by
  rcases h with ht | ⟨data, hd, hdata⟩
  · exact .inl (hr.persists.torn id ht)
  · refine (hr.held.chunkFiles id hc).imp_right fun heq => ⟨data, ?_, hdata⟩
    rw [heq, hd]

/-- The session is locked and the files of the chunks are there, unless they are torn. -/
structure Staged (t : ℕ) (w : World) (id : ℕ) (s : UploadSession) (chunks : List UploadChunk) :
    Prop where
  engaged : Engaged t w id s
  stored : ∀ c ∈ chunks, w.torn id = true ∨ w.Stored id c

theorem Staged.continues {chunks : List UploadChunk} (h : w.lost t = false → Staged t w id s chunks)
    (hl : w'.lost t = false) (hr : Continues t w w') : Staged t w' id s chunks := by
  have hs := h (hr.live hl)
  exact ⟨Engaged.goes (fun h₀ => (h h₀).engaged) hr.goes hl,
    fun c hc => (hs.stored c hc).elim (fun ht => .inl (hr.persists.torn id ht)) fun hst =>
      World.Stored.continues (.inr hst) hs.engaged.controls hr⟩

/-- The rows of chunks with distinct indices, one after the other. -/
theorem foldl_upsertChunk : ∀ (found chunks : List UploadChunk),
    ((chunks ++ found).map (·.chunkIndex)).Nodup → found.foldl upsertChunk chunks = chunks ++ found
  | [], chunks, _ => (List.append_nil chunks).symm
  | c :: found, chunks, h => by
    have hne : ∀ c' ∈ chunks, c'.chunkIndex ≠ c.chunkIndex := by
      intro c' hc' heq
      rw [List.map_append] at h
      exact List.disjoint_of_nodup_append h (List.mem_map_of_mem hc')
        (heq ▸ List.mem_map_of_mem List.mem_cons_self)
    have hkeep : upsertChunk chunks c = chunks ++ [c] := by
      rw [upsertChunk, List.filter_eq_self.mpr fun c' hc' => decide_eq_true (hne c' hc')]
    rw [List.foldl_cons, hkeep, foldl_upsertChunk found, List.append_assoc, List.singleton_append]
    rwa [List.append_assoc, List.singleton_append]

/-- **The rows made from the files have their sizes**, one for each file. -/
theorem wp_hydrateChunks {Q : List UploadChunk → World → Prop} : ∀ (n i : ℕ) {w : World}, Inv w →
    (w.lost t = false → Engaged t w id s) →
    (∀ w' found, Attached t w w' → Inv w' → (∀ c ∈ found, i ≤ c.chunkIndex) →
      (found.map (·.chunkIndex)).Nodup →
      (w'.lost t = false → Staged t w' id s found ∧ ∀ c ∈ found, s.Fits c) → Q found w') →
    After t (hydrateChunks id n i) Q w
  | 0, i, w, hi, hs, h => h w [] (.refl t w) hi (by exact nofun) List.nodup_nil fun hl =>
    ⟨⟨hs hl, nofun⟩, nofun⟩
  | n + 1, i, w, hi, hs, h => by
    unfold hydrateChunks
    rw [After, wp_bind]
    refine wp_look fun w₁ h₁ hi₁ => ?_
    rw [wp_bind]
    have hs₁ : w₁.lost t = false → Engaged t w₁ id s := Engaged.goes hs h₁.goes
    refine wp_hydrateChunks n (i + 1) hi₁ hs₁ fun w₂ found h₂ hi₂ hle hnodup hst => ?_
    cases hfile : w₁.disk.chunkFiles id i with
    | none =>
      exact h w₂ found (h₁.trans h₂) hi₂ (fun c hc => (Nat.le_succ i).trans (hle c hc)) hnodup hst
    | some data =>
      refine h w₂ _ (h₁.trans h₂) hi₂ (fun c hc => ?_) ?_ fun hl => ⟨⟨(hst hl).1.engaged, ?_⟩, ?_⟩
      · rcases List.mem_cons.mp hc with rfl | hc
        · exact le_rfl
        · exact (Nat.le_succ i).trans (hle c hc)
      · refine List.nodup_cons.mpr ⟨fun hmem => ?_, hnodup⟩
        obtain ⟨c, hc, hci⟩ := List.mem_map.mp hmem
        exact absurd (hle c hc) (by rw [hci]; exact Nat.not_succ_le_self i)
      · intro c hc
        rcases List.mem_cons.mp hc with rfl | hc
        · exact World.Stored.continues (.inr ⟨data, hfile, rfl, rfl⟩)
            (hs₁ (h₂.live hl)).controls (h₂.continues hl)
        · exact (hst hl).1.stored c hc
      · intro c hc
        rcases List.mem_cons.mp hc with rfl | hc
        · exact (hi₁.disk.sized id i data hfile).2 s (hs₁ (h₂.live hl)).row
        · exact (hst hl).2 c hc

/-- What is known of a session whose chunks are counted. -/
structure Counted (t : ℕ) (w : World) (id : ℕ) (s saved : UploadSession) : Prop where
  same : s.SameUpload saved
  status : saved.status = s.status
  parent : saved.parentId = s.parentId
  init : saved.accountingInitialized = true
  accounted : w.lost t = false → saved.Accounted
  staged : w.lost t = false → Staged t w id s (saved.chunks.filter (· ∉ s.chunks))

theorem Counted.continues {saved : UploadSession} (h : Counted t w id s saved)
    (hr : w'.lost t = false → Continues t w w') : Counted t w' id s saved :=
  ⟨h.same, h.status, h.parent, h.init, fun hl => h.accounted ((hr hl).live hl),
    fun hl => Staged.continues h.staged hl (hr hl)⟩

theorem wp_hydrateLegacyAccounting {Q : UploadSession → World → Prop} (hs : Engaged t w id s)
    (hchunks : s.chunks = [])
    (h : ∀ w' saved, Attached t w w' → Inv w' → Counted t w' id s saved → Q saved w') :
    After t (hydrateLegacyAccounting id s) Q w := by
  unfold hydrateLegacyAccounting
  rw [After, wp_bind]
  refine wp_resolveSessionWorkspace fun w₁ h₁ hi₁ _ => ?_
  rw [wp_bind]
  have hs₁ : w₁.lost t = false → Engaged t w₁ id s := Engaged.goes (fun _ => hs) h₁.toContinues.goes
  refine wp_hydrateChunks s.totalChunks 0 hi₁ hs₁ fun w₂ found h₂ _ _ hnodup hst => ?_
  rw [wp_bind]
  refine wp_look fun w₃ h₃ hi₃ => ?_
  rw [wp_bind]
  refine wp_assert fun _ => ?_
  rw [wp_bind]
  refine wp_parseDatabaseSize fun bytes hbytes => ?_
  have hfold : found.foldl upsertChunk s.chunks = found := by
    rw [hchunks]
    exact foldl_upsertChunk found [] hnodup
  have hatt : Attached t w w₃ := h₁.attached.trans (h₂.trans h₃)
  refine h w₃ _ hatt hi₃ ⟨⟨rfl, rfl, rfl, rfl, rfl, rfl, rfl, rfl, rfl⟩, rfl, rfl, rfl, fun hl => ?_,
    fun hl => ?_⟩
  · exact
      { count := (congrArg List.length hfold).symm
        size := by
          dsimp only
          rw [hfold]
          exact Int.ofNat.inj hbytes
        nodup := hfold.symm ▸ hnodup
        fits := hfold.symm ▸ (hst (h₃.live hl)).2 }
  · have hstaged := Staged.continues (fun h₀ => (hst h₀).1) hl (h₃.continues hl)
    refine ⟨hstaged.engaged, fun c hc => hstaged.stored c ?_⟩
    exact hfold ▸ List.mem_of_mem_filter hc

/-- **After `ensureAccounting` the chunks are counted**, each of the size the layout gives it. -/
theorem wp_ensureAccounting {Q : UploadSession → World → Prop} (hi : Inv w) (hs : Engaged t w id s)
    (hactive : s.active = true)
    (h : ∀ w' saved, Attached t w w' → Inv w' → Counted t w' id s saved → Q saved w') :
    After t (ensureAccounting id s) Q w := by
  have hsound := hi.sessions id s hs.row
  unfold ensureAccounting
  split_ifs with hinit
  · refine h w s (.refl t w) hi ⟨.refl s, rfl, rfl, hinit, fun _ => hsound.accounted hactive hinit,
      fun _ => ⟨hs, fun c hc => ?_⟩⟩
    exact absurd (List.mem_of_mem_filter hc) (of_decide_eq_true (List.mem_filter.mp hc).2)
  · exact wp_hydrateLegacyAccounting hs (hsound.uncounted (by simpa using hinit)) h

/-- **The file of a chunk is there after it has been staged**, and those of the other chunks still
are. -/
theorem wp_stageChunk {index : ℕ} {data : Bytes} {chunks : List UploadChunk}
    {Q : Unit → World → Prop} (hi : Inv w) (hk : Known w id s)
    (hfit : index < s.totalChunks ∧ data.length = s.chunkLength index)
    (hreceived : (id, index, data) ∈ w.disk.received)
    (hs : w.lost t = false → Staged t w id s chunks)
    (h : ∀ w', Goes t w w' → Inv w' →
      (w'.lost t = false → Staged t w' id s (⟨index, data.length, sha256 data⟩ :: chunks)) →
      Q () w') :
    After t (stageChunk id index data) Q w := by
  unfold stageChunk
  rw [After, wp_bind]
  refine wp_look fun w₁ h₁ hi₁ => ?_
  have hs₁ : w₁.lost t = false → Staged t w₁ id s chunks :=
    fun hl => Staged.continues hs hl (h₁.continues hl)
  split
  · rename_i old hold
    refine wp_assert fun hsame => h w₁ h₁.goes hi₁ fun hl => ⟨(hs₁ hl).engaged, fun c hc => ?_⟩
    rcases List.mem_cons.mp hc with rfl | hc
    · simp only [Bool.and_eq_true, decide_eq_true_eq] at hsame
      exact .inr ⟨old, hold, hsame⟩
    · exact (hs₁ hl).stored c hc
  · rename_i hnone
    rw [wp_bind]
    refine wp_onFiles_goes rfl fun w₂ h₂ hi₂ => ⟨?_, fun hg₃ hi₃ => wp_assert fun hthere => ?_⟩
    · have hk₂ := hk.persists (h₁.trans h₂).persists
      refine ⟨(h₁.trans h₂).persists.received _ hreceived, hk₂.bound, fun q hq => ?_, fun hc => ?_⟩
      · have hsame := hk₂.same q hq
        rw [hsame.totalChunks, hsame.chunkLength]
        exact hfit
      · have hl : w₂.lost t = false := by
          by_contra hl
          rw [World.controls_of_lost hi₂.disk (by simpa using hl)] at hc
          cases hc
        have hc₁ := (hs₁ (h₂.live hl)).engaged.controls
        exact ((h₂.continues hl).held.chunkFiles id hc₁).imp_right fun heq => by rw [heq, hnone]
    · refine h _ (h₁.goes.trans hg₃) hi₃ fun hl => ?_
      have hl₂ : w₂.lost t = false := hl
      have hs₂ := Staged.continues hs₁ hl₂ (h₂.continues hl₂)
      have hfile : (w₂.onDisk (.writeChunk id index data) t).disk.chunkFiles id =
          setAt (w₂.disk.chunkFiles id) index (some data) := by
        simp only [World.onDisk, DiskOp.apply, hthere, if_true, setAt_self]
      have htorn : w₂.torn id = true → (w₂.onDisk (.writeChunk id index data) t).torn id = true :=
        fun ht => Bool.or_eq_true_iff.mpr (.inl ht)
      refine ⟨Engaged.goes (fun h₀ => (hs₁ h₀).engaged) hg₃ hl, fun c hc => ?_⟩
      rcases List.mem_cons.mp hc with rfl | hc
      · exact .inr ⟨data, by rw [hfile, setAt_self], rfl, rfl⟩
      · by_cases hci : c.chunkIndex = index
        · -- The file of the row would have been found.
          refine .inl (htorn (h₂.persists.torn id ?_))
          refine ((hs₁ (h₂.live hl₂)).stored c hc).resolve_right fun hst => ?_
          obtain ⟨old, hold, -⟩ := hst
          rw [hci, hnone] at hold
          cases hold
        · refine (hs₂.stored c hc).imp htorn fun hst => ?_
          obtain ⟨old, hold, hdata⟩ := hst
          exact ⟨old, by rw [hfile, setAt_ne _ _ hci, hold], hdata⟩

section WithChunk

variable (s) (c : UploadChunk)

theorem UploadSession.same_withChunk : s.SameUpload (s.withChunk c) := by
  unfold withChunk
  split_ifs
  · exact .refl s
  · exact ⟨rfl, rfl, rfl, rfl, rfl, rfl, rfl, rfl, rfl⟩

theorem UploadSession.withChunk_parentId : (s.withChunk c).parentId = s.parentId := by
  unfold withChunk
  split_ifs <;> rfl

theorem UploadSession.withChunk_accountingInitialized :
    (s.withChunk c).accountingInitialized = s.accountingInitialized := by
  unfold withChunk
  split_ifs <;> rfl

theorem UploadSession.mem_withChunk {c' : UploadChunk} (h : c' ∈ (s.withChunk c).chunks) :
    c' ∈ s.chunks ∨ c' = c := by
  unfold withChunk at h
  split_ifs at h
  · exact .inl h
  · exact (List.mem_append.mp h).imp_right List.mem_singleton.mp

end WithChunk

/-- A chunk that fits is counted once. -/
theorem UploadSession.Accounted.withChunk {c : UploadChunk} (h : s.Accounted) (hc : s.Fits c) :
    (s.withChunk c).Accounted := by
  unfold UploadSession.withChunk
  split_ifs with hsome
  · exact h
  · exact h.add ⟨rfl, rfl, rfl, rfl, rfl, rfl, rfl, rfl, rfl⟩ hc
      (Option.not_isSome_iff_eq_none.mp hsome) rfl rfl rfl

theorem uploadChunk_safe {index : ℕ} {data : Bytes} :
    Safe contract t (uploadChunk enabled userId id index data access) w := by
  unfold uploadChunk
  rw [Safe, wp_bind]
  refine wp_onFiles_goes rfl fun w₀ _ hi₀ => ⟨trivial, fun _ hi₁ => ?_⟩
  refine wp_withTransaction fun w₁ hrec hi₁ hf => ?_
  have hreceived : (id, index, data) ∈ w₁.disk.received := hrec _ List.mem_cons_self
  rw [After, wp_bind]
  refine wp_findSession hf fun w₂ s h₂ hi₂ hs _ => ?_
  rw [wp_bind]
  refine wp_authorizeSession hi₂ fun w₃ h₃ _ => ?_
  rw [wp_bind]
  refine wp_assertLegacyUnreserved fun w₄ h₄ _ => ?_
  rw [wp_bind]
  refine wp_resolveSessionWorkspace fun w₅ h₅ _ hlegacy => ?_
  rw [wp_bind]
  refine wp_query fun w₆ h₆ hi₆ => ?_
  rw [wp_bind]
  refine wp_assert fun _ => ?_
  rw [wp_bind]
  refine wp_assert fun hactive => ?_
  rw [wp_bind]
  refine wp_assert fun hindex => ?_
  rw [wp_bind]
  refine wp_assert fun _ => ?_
  rw [wp_bind]
  refine wp_assert fun hlength => ?_
  rw [wp_bind]
  have h₂₆ := (h₃.trans (h₄.trans (h₅.trans h₆)).toFollows).toContinues
  have hs₆ := hs.continues h₂₆
  refine wp_ensureAccounting hi₆ hs₆ hactive fun w₇ saved h₇ hi₇ hcount => ?_
  rw [wp_bind]
  refine wp_assert fun hsame => ?_
  rw [wp_bind]
  have hgo₆ : Goes t w₁ w₆ := (h₂.toContinues.trans h₂₆).goes
  have hrec₇ := h₇.persists.received _ (hgo₆.persists.received _ hreceived)
  have hfit : index < s.totalChunks ∧ data.length = s.chunkLength index :=
    ⟨of_decide_eq_true hindex, of_decide_eq_true hlength⟩
  have hk₇ : Known w₇ id s := (Known.of_row hi₆ hs₆.row).persists h₇.persists
  refine wp_stageChunk hi₇ hk₇ hfit hrec₇ hcount.staged fun w₈ h₈ hi₈ hstaged => ?_
  rw [wp_bind]
  refine wp_parseDatabaseSize fun _ _ => ?_
  rw [wp_bind]
  refine wp_authorizeSession hi₈ fun w₉ h₉ _ w' ha hl _ _ => ⟨s, ?_⟩
  have hc₈ : Continues t w₈ w' := h₉.toContinues.trans (ha.continues hl)
  have hst := Staged.continues hstaged hl hc₈
  have hacc := hcount.accounted (h₈.live (hc₈.live hl))
  have hstatus : ∀ q : UploadSession, q.SameUpload { q with status := .uploading } :=
    fun _ => ⟨rfl, rfl, rfl, rfl, rfl, rfl, rfl, rfl, rfl⟩
  have hfits : saved.Fits ⟨index, data.length, sha256 data⟩ := by
    rw [UploadSession.Fits, hcount.same.totalChunks, hcount.same.chunkLength]
    exact hfit
  have hsame₉ := (hcount.same.trans (saved.same_withChunk ⟨index, data.length, sha256 data⟩)).trans (hstatus _)
  exact
    { row := hst.engaged.row
      locked := hst.engaged.locked
      fenced := fun _ => .inl hst.engaged.fenced
      held := fun hssd => absurd hssd (hsame₉.not_ssd hlegacy)
      same := hsame₉
      parent := (saved.withChunk_parentId _).trans hcount.parent
      advances := .inr (.inl ⟨hactive, rfl⟩)
      accounted := fun _ _ => (hacc.withChunk hfits).of_same (hstatus _) rfl rfl rfl
      initialized := fun hssd => absurd hssd (hsame₉.not_ssd hlegacy)
      uncounted := fun hn =>
        absurd (hn.symm.trans ((saved.withChunk_accountingInitialized _).trans hcount.init)) Bool.false_ne_true
      stored := fun _ _ c hc => by
        rcases saved.mem_withChunk _ hc with hc | rfl
        · by_cases hold : c ∈ s.chunks
          · exact .inl hold
          · exact .inr (hst.stored c (List.mem_cons_of_mem _
              (List.mem_filter.mpr ⟨hc, decide_eq_true hold⟩)))
        · exact .inr (hst.stored _ List.mem_cons_self)
      kept := fun ho => absurd ho.1 (hsame₉.not_ssd hlegacy)
      unfinished := fun hssd => absurd hssd (hsame₉.not_ssd hlegacy) }

/-! ## Reconciling, aborting and expiry -/

theorem wp_authorize {a : PublicAccess} {parentId : ℕ} {lock : Bool} {Q : Unit → World → Prop}
    (h : ∀ w', Follows t w w' → Inv w' → Q () w') : After t (a.authorize parentId lock) Q w :=
  wp_authorizeUpload fun w₁ h₁ hi₁ _ _ => h w₁ h₁ hi₁

theorem reconcileUploadSession_safe :
    Safe contract t (reconcileUploadSession enabled userId id access) w := by
  unfold reconcileUploadSession
  refine wp_withTransaction fun w₁ _ _ hf => ?_
  rw [After, wp_bind]
  refine wp_findSession hf fun w₂ s h₂ hi₂ hs _ => ?_
  rw [wp_bind]
  refine wp_authorizeSession hi₂ fun w₃ h₃ _ => ?_
  rw [wp_bind]
  refine wp_resolveSessionWorkspace fun w₄ h₄ _ hlegacy => ?_
  rw [wp_bind]
  refine wp_query fun w₅ h₅ hi₅ => ?_
  rw [wp_bind]
  refine wp_assert fun _ => ?_
  have hs₅ := hs.continues (h₃.trans (h₄.trans h₅).toFollows).toContinues
  -- A session that is still open is counted, the others are left as they are.
  have hopen : s.active = true → After t (do
      let saved ← ensureAccounting id s
      return (if s.accountingInitialized then Tx.none else .uploads (.saveSession id saved),
        saved.chunks)) (fun r w'' => Ready t r.1 w'') w₅ := by
    intro hactive
    rw [After, wp_bind]
    refine wp_ensureAccounting hi₅ hs₅ hactive fun w₆ saved h₆ _ hcount => ?_
    dsimp only [wp_ret, pure]
    split_ifs with hinit
    · exact .none
    · refine fun w' ha hl _ _ => ⟨s, ?_⟩
      have hc := hcount.continues fun hl => ha.continues hl
      have hst := hc.staged hl
      exact
        { row := hst.engaged.row
          locked := hst.engaged.locked
          fenced := fun _ => .inl hst.engaged.fenced
          held := fun hssd => absurd hssd (hc.same.not_ssd hlegacy)
          same := hc.same
          parent := hc.parent
          advances := .inl hc.status
          accounted := fun _ _ => hc.accounted hl
          initialized := fun _ => hc.init
          uncounted := fun hn => nomatch hn.symm.trans hc.init
          stored := fun _ _ c hmem => by
            by_cases hold : c ∈ s.chunks
            · exact .inl hold
            · exact .inr (hst.stored c (List.mem_filter.mpr ⟨hmem, decide_eq_true hold⟩))
          kept := fun ho => absurd ho.1 (hc.same.not_ssd hlegacy)
          unfinished := fun hssd => absurd hssd (hc.same.not_ssd hlegacy) }
  cases hstatus : s.status with
  | completed =>
    dsimp only
    rw [wp_bind]
    refine wp_query fun w₆ h₆ _ => ?_
    have hfound : ∀ (found : Option (ℕ × File)) (w₇ : World), After t (do
        assert (.notFound "Completed upload file not found") (found.any fun f => !f.2.isDeleted)
        return (Tx.none, ([] : List UploadChunk))) (fun r w'' => Ready t r.1 w'') w₇ := by
      intro found w₇
      rw [After, wp_bind]
      exact wp_assert fun _ => .none
    cases access with
    | none => exact hfound _ w₆
    | some a =>
      cases hfile : w₆.db.files.find _ with
      | none => exact hfound none w₆
      | some f =>
        dsimp only
        rw [wp_bind]
        refine wp_require fun _ _ => ?_
        rw [wp_bind]
        refine wp_authorize fun w₇ _ _ => ?_
        rw [wp_bind]
        exact wp_assert fun _ => hfound _ w₇
  | aborted => exact .none
  | pending => exact hopen (by simp [UploadSession.active, hstatus])
  | uploading => exact hopen (by simp [UploadSession.active, hstatus])

/-- **A session whose attempts are removed can be written** without its chunks, when it is not active
then. -/
theorem saveSessionOk_cleared {s' : UploadSession} (hs : Engaged t w id s) (hlegacy : s.workspaceId = .legacy)
    (hsame : s.SameUpload s')
    (hparent : s'.parentId = s.parentId) (hchunks : s'.chunks = []) (hadv : s.Advances w id s')
    (hactive : s'.active = false) : SaveSessionOk t w id s' s where
  row := hs.row
  locked := hs.locked
  fenced _ := .inl hs.fenced
  held hssd := absurd hssd (hsame.not_ssd hlegacy)
  same := hsame
  parent := hparent
  advances := hadv
  accounted ha := nomatch ha.symm.trans hactive
  initialized hssd := absurd hssd (hsame.not_ssd hlegacy)
  uncounted _ := hchunks
  stored _ ha := nomatch ha.symm.trans hactive
  kept ho := absurd ho.1 (hsame.not_ssd hlegacy)
  unfinished hssd := absurd hssd (hsame.not_ssd hlegacy)

/-- The cleanup of a session and the removal of its directory, and what comes after them. -/
theorem wp_cleanup {α : Type} {p : Op α} {Q : α → World → Prop} (hi : Inv w) (hs : Engaged t w id s)
    (h : ∀ w', Goes t w w' → Inv w' → (w'.lost t = false → Engaged t w' id s) → After t p Q w') :
    After t (do
      let _ ← cleanupUnpublishedAssembly id s
      deleteTempFiles id
      p) Q w := by
  rw [After, wp_bind]
  refine wp_cleanupUnpublishedAssembly (.of_row hi hs.row) (fun _ => hs.controls)
    fun w₁ _ h₁ hi₁ htidy => ?_
  rw [wp_bind]
  refine wp_deleteTempFiles hi₁ htidy fun w₂ h₂ hi₂ => ?_
  exact h w₂ (h₁.trans h₂) hi₂ (Engaged.goes (fun _ => hs) (h₁.trans h₂))

theorem abortUpload_safe : Safe contract t (abortUpload enabled userId id access) w := by
  unfold abortUpload
  refine wp_withTransaction fun w₁ _ _ hf => ?_
  rw [After, wp_bind]
  refine wp_findSession hf fun w₂ s h₂ hi₂ hs _ => ?_
  rw [wp_bind]
  refine wp_authorizeSession hi₂ fun w₃ h₃ _ => ?_
  rw [wp_bind]
  refine wp_resolveSessionWorkspace fun w₄ h₄ hi₄ hlegacy => ?_
  rw [wp_bind]
  refine wp_assert fun hnot => ?_
  have hs₄ := hs.continues (h₃.trans h₄.toFollows).toContinues
  refine wp_cleanup hi₄ hs₄ fun w₅ _ _ hs₅ w' ha hl _ _ => ⟨s, ?_⟩
  refine saveSessionOk_cleared (Engaged.goes hs₅ ha.goes hl) hlegacy
    ⟨rfl, rfl, rfl, rfl, rfl, rfl, rfl, rfl, rfl⟩ rfl rfl (.inr (.inr (.inl ⟨?_, rfl⟩))) rfl
  simpa using hnot

theorem cleanupSession_safe : Safe contract t (cleanupSession id) w := by
  unfold cleanupSession
  refine wp_transaction ?_
  rw [After, wp_bind]
  refine wp_trySessionFence fun w₁ _ _ _ _ => ?_
  split_ifs with hfree
  · have hf := World.mem_shared_takeFence hfree
    rw [wp_bind]
    refine wp_lockSession fun w₂ row h₂ hi₂ hrow hl => ?_
    cases row with
    | none => exact .none
    | some s =>
      have hs : Engaged t w₂ id s := ⟨hrow, hl rfl, h₂.held.shared id hf⟩
      dsimp only
      rw [wp_bind]
      refine wp_resolveSessionWorkspace fun w₃ h₃ _ hlegacy => ?_
      rw [wp_bind]
      refine wp_query fun w₄ h₄ hi₄ => ?_
      have hs₄ := hs.continues (h₃.trans h₄).toContinues
      split_ifs with _ hactive
      · exact .none
      · exact wp_cleanup hi₄ hs₄ fun w₅ _ _ hs₅ w' ha hlive _ _ =>
          (Engaged.goes hs₅ ha.goes hlive).locked
      · exact wp_cleanup hi₄ hs₄ fun w₅ _ _ hs₅ w' ha hlive _ _ =>
          ⟨s, saveSessionOk_cleared (Engaged.goes hs₅ ha.goes hlive) hlegacy
            ⟨rfl, rfl, rfl, rfl, rfl, rfl, rfl, rfl, rfl⟩ rfl rfl (.inl rfl)
            (eq_false_of_ne_true hactive : s.active = false)⟩
  · exact .none

theorem cleanupSessions_safe : ∀ (ids : List ℕ) {w : World}, Safe contract t (cleanupSessions ids) w
  | [], _ => trivial
  | _ :: ids, _ => Safe.bind cleanupSession_safe fun _ _ => cleanupSessions_safe ids

theorem cleanupExpiredSessions_safe : Safe contract t cleanupExpiredSessions w := by
  unfold cleanupExpiredSessions
  rw [Safe, wp_bind]
  exact wp_query fun _ _ _ => cleanupSessions_safe _

/-! ## Creating sessions -/

/-- Others reserve nothing for a user that is locked. -/
theorem Keeps.reserved_le (h : Keeps t w w') (hl : w.locks (.user userId) = some t) :
    w'.db.reserved userId ≤ w.db.reserved userId := by
  refine Table.total_le fun i q' hq' => ?_
  split_ifs with hmine
  · right
    obtain ⟨q, hq, hactive⟩ := h.reservations i q' hq' hmine.2 (hmine.1 ▸ hl)
    obtain ⟨q₀, hq₀, hsame⟩ := h.grows.sessions.old i q' (Table.lt_bound hq) hq'
    cases hq.symm.trans hq₀
    exact ⟨q, hq, by rw [if_pos ⟨hsame.userId ▸ hmine.1, hactive⟩, hsame.totalSize]⟩
  · exact .inl rfl

theorem wp_validateSafePositiveInteger {label : String} {value : ℤ} {Q : ℕ → World → Prop}
    (h : ∀ n, 0 < n → Q n w) : After t (validateSafePositiveInteger label value) Q w := by
  unfold validateSafePositiveInteger
  rw [After, wp_bind]
  refine wp_assert fun _ => ?_
  rw [wp_bind]
  refine wp_assert fun hpos => h value.toNat ?_
  have := of_decide_eq_true hpos
  omega

/-- The sizes of a request are those of a layout. -/
theorem wp_validateSizes {limits : UploadLimits} {totalSize chunkSize : ℤ}
    {Q : ℕ × ℕ × ℕ → World → Prop} (h : ∀ n c k, LaidOut n c k → Q (n, c, k) w) :
    After t (validateSizes limits totalSize chunkSize) Q w := by
  unfold validateSizes
  rw [After, wp_bind]
  refine wp_validateSafePositiveInteger fun n hn => ?_
  rw [wp_bind]
  refine wp_validateSafePositiveInteger fun c hc => ?_
  rw [wp_bind]
  refine wp_assert fun _ => ?_
  rw [wp_bind]
  refine wp_assert fun _ => ?_
  rw [wp_bind]
  refine wp_assert fun _ => ?_
  rw [wp_bind]
  exact wp_assert fun _ => h n c _ ⟨hn, hc, rfl⟩

/-- **A reservation that is admitted fits the quota.** -/
theorem wp_checkReservation {limits : UploadLimits} {user : User} {active totalSize : ℕ}
    {Q : Unit → World → Prop} (h : user.storageUsed + active + totalSize ≤ user.storageQuota → Q () w) :
    After t (checkReservation limits user active totalSize) Q w := by
  unfold checkReservation
  rw [After, wp_bind]
  refine wp_parseDatabaseSize fun activeTotal hactive => ?_
  have hrest : After t (do
      let quota ← parseDatabaseSize "Invalid storage size metadata" user.storageQuota
      let used ← parseDatabaseSize "Invalid storage size metadata" user.storageUsed
      let reserved ← parseDatabaseSize "Invalid storage size metadata" (used + activeTotal : ℕ)
      let nextUsed ← parseDatabaseSize "Invalid storage size metadata" (reserved + totalSize : ℕ)
      assert (.forbidden "Storage quota exceeded") (nextUsed ≤ quota)) Q w := by
    rw [After, wp_bind]
    refine wp_parseDatabaseSize fun quota hquota => ?_
    rw [wp_bind]
    refine wp_parseDatabaseSize fun used hused => ?_
    rw [wp_bind]
    refine wp_parseDatabaseSize fun reserved hreserved => ?_
    rw [wp_bind]
    refine wp_parseDatabaseSize fun nextUsed hnext => wp_assert fun hle => h ?_
    have := of_decide_eq_true hle
    omega
  dsimp only
  split_ifs
  · rw [wp_bind]
    refine wp_parseDatabaseSize fun _ _ => ?_
    rw [wp_bind]
    exact wp_assert fun _ => hrest
  · exact hrest

theorem wp_checkResult {a : PublicAccess} {Q : Unit → World → Prop} (hi : Inv w)
    (h : ∀ w', Follows t w w' → Inv w' → Q () w') : After t (checkResult a id s) Q w := by
  unfold checkResult
  split_ifs
  · rw [After, wp_bind]
    refine wp_query fun w₁ h₁ _ => ?_
    rw [wp_bind]
    refine wp_require fun _ _ => ?_
    rw [wp_bind]
    refine wp_authorize fun w₂ h₂ hi₂ => ?_
    exact wp_assert fun _ => h w₂ (h₁.toFollows.trans h₂) hi₂
  · rw [After, wp_bind]
    exact wp_query fun w₁ h₁ hi₁ => wp_assert fun _ => h w₁ h₁.toFollows hi₁

/-- **Without an earlier request there is room for a receipt.** -/
theorem wp_uploads_replay {a : PublicCreation} {Q : Option (ℕ × UploadSession) → World → Prop}
    (h : ∀ w' prior, Follows t w w' → Inv w' →
      (prior = none → (w'.db.receiptsOf a.proof.shareId).length < 1000) → Q prior w')
    (hl : w.locks (.link a.proof.shareId) = some t) : After t (replay a) Q w := by
  unfold replay
  rw [After, wp_bind]
  refine wp_query fun w₁ h₁ _ => ?_
  split
  · rw [wp_bind]
    refine wp_query fun w₂ h₂ _ => ?_
    rw [wp_bind]
    refine wp_assert fun _ => ?_
    rw [wp_bind]
    refine wp_query fun w₃ h₃ hi₃ => ?_
    rw [wp_bind]
    refine wp_require fun _ _ => ?_
    dsimp only
    rw [wp_bind]
    refine wp_checkResult hi₃ fun w₄ h₄ hi₄ => ?_
    exact h w₄ _ ((h₁.trans (h₂.trans h₃)).toFollows.trans h₄) hi₄ fun hnone => absurd hnone (Option.some_ne_none _)
  · rw [wp_bind]
    refine wp_query fun w₂ h₂ _ => ?_
    rw [wp_bind]
    refine wp_query fun w₃ h₃ hi₃ => ?_
    rw [wp_bind]
    refine wp_assert fun hroom => h w₃ none (h₁.trans (h₂.trans h₃)).toFollows hi₃ fun _ => ?_
    have hlt := of_decide_eq_true (Bool.and_eq_true_iff.mp hroom).1
    exact lt_of_le_of_lt (h₃.keeps.receiptsOf ((h₁.trans h₂).keeps.locks _ hl)) hlt

theorem deleteSessionRow_safe : Safe contract t (deleteSessionRow id) w := by
  unfold deleteSessionRow
  refine wp_transaction ?_
  rw [After, wp_bind]
  refine wp_lockSession fun w₁ row _ _ _ hl => ?_
  cases row with
  | none => exact .none
  | some s => exact .intro fun w₂ h₂ _ _ => h₂.keeps.locks _ (hl rfl)

/-- An earlier request is answered, else there is room for the receipt of this one. -/
theorem wp_priorCreation {parentId : Option ℕ} {access : Option PublicCreation}
    {Q : Option (ℕ × UploadSession) → World → Prop} (hi : Inv w)
    (h : ∀ w' prior, Follows t w w' → Inv w' → (prior = none → ∀ a, access = some a →
      w'.locks (.link a.proof.shareId) = some t ∧
        (w'.db.receiptsOf a.proof.shareId).length < 1000) → Q prior w') :
    After t (priorCreation enabled parentId access) Q w := by
  cases access with
  | none => exact h w none (.refl t w) hi fun _ a ha => by cases ha
  | some a =>
    unfold priorCreation
    rw [After, wp_bind]
    refine wp_require fun p _ => ?_
    rw [wp_bind]
    refine wp_authorizeUpload_locked (.inl rfl) fun w₁ h₁ _ _ hshared => ?_
    rw [wp_bind]
    refine wp_uploads_replay (fun w₂ prior h₂ hi₂ hroom => ?_) hshared.locked
    rw [wp_bind]
    cases prior with
    | none =>
      refine h w₂ none (h₁.trans h₂) hi₂ fun hn b hb => ?_
      cases hb
      exact ⟨h₂.keeps.locks _ hshared.locked, hroom rfl⟩
    | some x =>
      rw [Option.elim_some]
      refine wp_authorizeSession hi₂ fun w₃ h₃ hi₃ => ?_
      exact h w₃ _ ((h₁.trans h₂).trans h₃) hi₃ fun hnone => absurd hnone (Option.some_ne_none _)

/-- The receipt is one for the link of the request. -/
theorem wp_receiptOf {parentId : Option ℕ} {access : Option PublicCreation}
    {Q : Option PublicShareOperation → World → Prop} (hi : Inv w)
    (h : ∀ w' receipt, Follows t w w' → Inv w' → (∀ r, receipt = some r → ∃ a, access = some a ∧
      r.shareLinkId = some a.proof.shareId) → Q receipt w') :
    After t (receiptOf parentId access) Q w := by
  cases access with
  | none => exact h w none (.refl t w) hi fun r hr => nomatch hr
  | some a =>
    unfold receiptOf
    rw [After, wp_bind]
    refine wp_require fun p _ => ?_
    rw [wp_bind]
    refine wp_authorize fun w₁ h₁ _ => ?_
    rw [wp_bind]
    refine wp_query fun w₂ h₂ hi₂ => h w₂ _ (h₁.trans h₂.toFollows) hi₂ fun r hr => ⟨a, rfl, ?_⟩
    cases hr
    rfl

theorem prepareDirectory_safe {access : Option PublicCreation} :
    Safe contract t (prepareDirectory id s access) w := by
  unfold prepareDirectory
  rw [Safe, wp_tryCatch]
  have hmake : After t (do
      resolveSessionWorkspace s
      onFiles (.makeDirectory id) fun _ => ()) (fun _ _ => True) w := by
    rw [After, wp_bind]
    exact wp_resolveSessionWorkspace fun w₁ _ _ _ =>
      wp_onFiles fun w₂ _ _ => ⟨trivial, trivial⟩
  refine wp_mono (fun _ _ _ => trivial) (fun e w' _ => ?_) hmake
  have hthrow : ∀ w₁ : World, Safe contract t
      (throw (.badRequest "Failed to prepare upload session") : Op Unit) w₁ := fun _ => trivial
  change Safe contract t _ w'
  dsimp only
  split_ifs
  · exact Safe.bind deleteSessionRow_safe fun _ w₁ => hthrow w₁
  · exact hthrow w'

theorem createUploadSession_safe {limits : UploadLimits} {filename : JsString}
    {totalSize chunkSize : ℤ} {parentId expectedSha256 : Option ℕ} {access : Option PublicCreation} :
    Safe contract t (createUploadSession enabled limits userId filename totalSize chunkSize parentId
      expectedSha256 access) w := by
  unfold createUploadSession
  rw [Safe, wp_bind]
  refine wp_assert fun _ => ?_
  rw [wp_bind]
  refine wp_assert fun _ => ?_
  rw [wp_bind]
  refine wp_assert fun _ => ?_
  rw [wp_bind]
  refine wp_assertFolderOwnership fun w₁ _ => ?_
  rw [wp_bind]
  refine wp_validateSizes fun n c k hlaid => ?_
  dsimp only
  rw [wp_bind]
  refine wp_query fun w₀ _ _ => Safe.bind (wp_transactionWith ?_) ?_
  · rw [After, wp_bind]
    refine wp_query fun w₂ h₂ _ => ?_
    rw [wp_bind]
    refine wp_mayFail ?_
    rw [wp_bind]
    refine wp_lockUser fun w₃ row h₃ hi₃ hrow hl => ?_
    rw [wp_bind]
    refine wp_require fun user huser => ?_
    rw [huser] at hrow hl
    rw [wp_bind]
    refine wp_priorCreation hi₃ fun w₄ prior h₄ hi₄ hreceipts => ?_
    cases prior with
    | some x => exact .none
    | none =>
      dsimp only
      rw [wp_bind]
      refine wp_query fun w₅ h₅ hi₅ => ?_
      rw [wp_bind]
      refine wp_checkReservation fun hfits => ?_
      rw [wp_bind]
      refine wp_receiptOf hi₅ fun w₆ receipt h₆ hi₆ hreceipt => ?_
      refine .intro fun w₇ h₇ _ _ => ?_
      have h₅₇ : Keeps t w₅ w₇ := (h₆.trans h₇.toFollows).keeps
      have h₃₅ : Keeps t w₃ w₅ := (h₄.trans h₅.toFollows).keeps
      have huser₃ := hl rfl
      exact
        { pending := rfl
          laidOut := hlaid
          unstarted := ⟨rfl, rfl, rfl, rfl⟩
          user := (h₃₅.trans h₅₇).locks _ huser₃
          room := by
            refine ⟨user, (h₃₅.trans h₅₇).users _ _ huser₃ hrow, ?_⟩
            have hle := h₅₇.reserved_le (h₃₅.locks _ huser₃)
            dsimp only
            omega
          receipt := fun r hr => by
            obtain ⟨a, ha, hlink⟩ := hreceipt r hr
            obtain ⟨hlocked, hroom⟩ := hreceipts rfl a ha
            have h₄₇ := h₅.keeps.trans h₅₇
            exact ⟨a.proof.shareId, hlink, h₄₇.locks _ hlocked,
              lt_of_le_of_lt (h₄₇.receiptsOf hlocked) hroom⟩ }
  · rintro ⟨id, saved⟩ w'
    dsimp only
    split_ifs
    · exact Safe.bind prepareDirectory_safe fun _ _ => trivial
    · trivial

end

end HomeCloud
