import HomeCloud.Uploads.Assembly

/-!
# The completion of an upload fulfils the contract

* `Cleaned`: the session is held to assemble it, with the attempts on it cleared.
* **`wp_completeRecovered`**, **`assembly_safe`**: an upload is completed with its file, or assembled.
* **`completeUpload_safe`**.
-/

namespace HomeCloud

open Concurrent Sha256

section

variable {t n : ℕ} {w w' : World} {id : ℕ} {s : UploadSession} {enabled : Bool} {userId : ℕ}
  {access : Option PublicAccess}

/-- `t` assembles the session, on which the attempts but for those in `P` are cleared. -/
def Cleaned (t : ℕ) (w : World) (id : ℕ) (P : ℕ → Prop) : Prop :=
  (w.fences id).exclusive = some t ∧ w.Tidy id P

theorem Cleaned.attached {P : ℕ → Prop} (h : w.lost t = false → Cleaned t w id P) (hi : DiskInv w)
    (ha : Attached t w w') (hl : w'.lost t = false) : Cleaned t w' id P := by
  obtain ⟨hx, htidy⟩ := h (ha.live hl)
  have hc := ha.continues hl
  exact ⟨(hc.held.exclusive id hx).1, htidy.continues hi (World.controls_of_exclusive hx) hc⟩

theorem Cleaned.tidy (h : w.lost t = false → Cleaned t w id fun _ => False) (hl : w.lost t = false) :
    w.controls id t = true ∧ w.Tidy id fun _ => False :=
  ⟨World.controls_of_exclusive (h hl).1, (h hl).2⟩

/-- A commit leaves the lock and the cleared attempts. -/
theorem Cleaned.commit {P : ℕ → Prop} {tx : Tx} (h : Cleaned t w id P) (hc : Committing t w tx) :
    Cleaned t ((w.write tx t).release t) id P :=
  ⟨h.1, h.2.imp_right fun htidy a data ha => (htidy a data ha).imp_right fun hclear =>
    hclear.imp_right fun hcom => World.committed_write hc.respects hcom⟩

/-- **Once its file is published, the attempt is cleared too.** -/
theorem Cleaned.publish {tx : Tx} (h : Cleaned t w id (· = n)) (hp : tx.Places id n)
    (hc : Committing t w tx) :
    Cleaned t ((w.write tx t).release t) id fun _ => False := by
  have hfile : (w.write tx t).Committed id (some n) := by
    obtain ⟨session, file, c, rfl, hplace⟩ := hp
    exact ⟨w.db.files.bound, file,
      Option.or_eq_some_iff.mpr (.inl (w.db.files.get_insert_bound file)), hplace⟩
  refine ⟨(h.commit hc).1, (h.commit hc).2.imp_right fun htidy a data ha => .inr ?_⟩
  rcases htidy a data ha with rfl | hclear
  · exact .inr hfile
  · exact hclear

/-- Writes that publish the attempt are in order only while the session is held. -/
theorem Assembling.cleaned {tx : Tx} (h : Assembling t w id n) (hp : tx.Places id n)
    (hok : tx.Ok t w) : Cleaned t w id (· = n) := by
  obtain ⟨session, file, c, rfl, -⟩ := hp
  obtain ⟨old, attempt, ho⟩ := hok
  rcases h.fenced with hu | ⟨hx, -, htidy⟩
  · exact absurd ho.fence.1 hu.1
  · exact ⟨hx, htidy⟩

theorem removeAll_safe (hk : Known w id s) (hc : w.lost t = false → w.controls id t = true) :
    Safe contract t (do
      let _ ← cleanupUnpublishedAssembly id s
      deleteTempFiles id) w := by
  rw [Safe, wp_bind]
  exact wp_cleanupUnpublishedAssembly hk hc fun w₁ _ _ hi₁ htidy =>
    wp_deleteTempFiles hi₁ htidy fun _ _ _ => trivial

theorem deleteTempFiles_safe (hi : Inv w) (h : w.lost t = false → Cleaned t w id fun _ => False) :
    Safe contract t (ignoreFailure (deleteTempFiles id)) w :=
  wp_ignoreFailure (wp_deleteTempFiles hi (Cleaned.tidy h) fun _ _ _ => trivial)

/-- **An assembly has the session for itself.** -/
theorem wp_withAssemblyFence {fn : Op Unit}
    (h : ∀ w', Inv w' → (w'.fences id).exclusive = some t → Safe contract t fn w') :
    Safe contract t (withAssemblyFence id fn) w := by
  have hunfence : ∀ {Q : Unit → World → Prop}, (∀ w', Q () w') → ∀ w₁,
      After t (Prog.exec .unfence) Q w₁ := fun hq w₁ =>
    wp_exec fun w₂ _ _ w₃ _ => ⟨fun _ => trivial, hq w₃⟩
  unfold withAssemblyFence
  rw [Safe, wp_bind]
  refine wp_mayFail ?_
  rw [wp_bind]
  refine wp_trySessionFence fun w₁ _ _ _ hi₂ => ?_
  rw [wp_bind]
  refine wp_assert fun hfree => ?_
  rw [wp_bind, wp_tryCatch]
  have hx : ((w₁.takeFence id true t).fences id).exclusive = some t := by
    simp only [World.takeFence, if_pos hfree, if_true]
  refine wp_mono (fun _ w₂ _ => hunfence (fun _ => trivial) w₂) (fun e w₂ _ => ?_) (h _ hi₂ hx)
  rw [wp_bind]
  exact hunfence (fun _ => trivial) w₂

/-- **A recovered upload is completed** with the lock kept. -/
theorem wp_completeRecovered {fileId : ℕ} {Q : Unit → World → Prop} (hi : Inv w) (hk : Known w id s)
    (hlegacy : s.workspaceId = .legacy) (hclean : w.lost t = false → Cleaned t w id fun _ => False)
    (h : ∀ w', Inv w' → Cleaned t w' id (fun _ => False) → Q () w') :
    After t (completeRecovered enabled userId id s fileId access) Q w := by
  unfold completeRecovered
  refine wp_transaction_post ?_
  rw [After, wp_bind]
  refine wp_lockUser fun w₁ row h₁ hi₁ _ _ => ?_
  rw [wp_bind]
  refine wp_assert fun _ => ?_
  rw [wp_bind]
  refine wp_authorizeSession hi₁ fun w₂ h₂ _ => ?_
  rw [wp_bind]
  refine wp_lockPublicationDestination fun w₃ w₄ h₃ _ h₄ => ?_
  rw [wp_bind]
  refine wp_lockSession fun w₅ row h₅ hi₅ hrow hl => ?_
  rw [wp_bind]
  refine wp_query_attached fun w₆ h₆ hl₆ hi₆ => ?_
  rw [wp_bind]
  refine wp_require fun current hcurrent => ?_
  obtain ⟨hsome, -⟩ := Option.filter_eq_some_iff.mp hcurrent
  rw [hsome] at hrow hl
  rw [wp_bind]
  refine wp_assert fun hsame => ?_
  simp only [Bool.and_eq_true, decide_eq_true_eq] at hsame
  obtain ⟨⟨hactive, -⟩, hfile⟩ := hsame
  -- The row of the file has been seen.
  have hpublished : w₆.published id := by
    obtain ⟨f, hf, -⟩ := (Option.any_eq_true ..).mp hfile
    obtain ⟨hget, hf⟩ := Option.filter_eq_some_iff.mp hf
    simp only [Bool.and_eq_true, decide_eq_true_eq] at hf
    exact ⟨fileId, f, hi₆.seen _ _ hget, hf.1.2⟩
  rw [wp_bind]
  refine wp_query fun w₇ h₇ _ => ?_
  rw [wp_bind]
  refine wp_assert fun _ => ?_
  rw [wp_bind]
  refine wp_assertLegacyUnreserved fun w₈ h₈ hi₈ => ?_
  rw [wp_bind]
  refine wp_authorizeSession hi₈ fun w₉ h₉ hi₉ => ?_
  have h₅₆ : Follows t w₅ w₆ := (h₆.rely hl₆).toFollows
  have h₆₉ : Follows t w₆ w₉ := (h₇.trans h₈).toFollows.trans h₉
  have hall : Follows t w w₉ := ((h₁.toFollows.trans h₂).trans (h₃.trans (h₄.trans h₅)).toFollows).trans
    (h₅₆.trans h₆₉)
  have hclean₉ : w₉.lost t = false → Cleaned t w₉ id fun _ => False := fun hlive => by
    obtain ⟨hx, htidy⟩ := hclean (hall.toContinues.live hlive)
    exact ⟨(hall.held.exclusive id hx).1,
      htidy.continues hi.disk (World.controls_of_exclusive hx) hall.toContinues⟩
  refine ⟨fun w' ha hlive _ _ => ⟨current, ?_⟩, fun w' hr hlive hc hi' => h _ hi' ?_⟩
  · have hkeeps := (h₅₆.trans (h₆₉.trans (ha.rely hlive).toFollows)).keeps
    have hx : (w'.fences id).exclusive = some t :=
      (Cleaned.attached hclean₉ hi₉.disk ha hlive).1
    have hrow' := hkeeps.sessions _ _ (hl rfl) hrow
    have hupload := (hk.persists (hall.persists.trans ha.persists)).same current hrow'
    exact
      { row := hrow'
        held := fun hssd => absurd hssd (hupload.not_ssd hlegacy)
        locked := hkeeps.locks _ (hl rfl)
        fenced := fun _ => .inr hx
        same := ⟨rfl, rfl, rfl, rfl, rfl, rfl, rfl, rfl, rfl⟩
        parent := rfl
        advances := by
          obtain ⟨i, r, hr, hu⟩ := hpublished
          obtain ⟨r', hr', hsame⟩ := (h₆₉.trans (ha.rely hlive).toFollows).keeps.seen i r hr
          exact .inr (.inr (.inr ⟨hactive, rfl, i, r', hr', hsame.uploadId.trans hu⟩))
        accounted := fun hact => by cases hact
        initialized := fun hssd => absurd hssd (hupload.not_ssd hlegacy)
        uncounted := fun _ => rfl
        stored := fun _ hact => by cases hact
        kept := fun ho => absurd ho.1 (hupload.not_ssd hlegacy)
        unfinished := fun hssd => absurd hssd (hupload.not_ssd hlegacy) }
  · exact (Cleaned.attached hclean₉ hi₉.disk hr.attached hlive).commit hc

/-- **A new attempt can be assembled.** -/
theorem assembling_createAttempt (hi : Inv w)
    (hclean : w.lost t = false → Cleaned t w id fun _ => False) :
    Assembling t (w.onDisk (.createAttempt id) t) id w.disk.issued := by
  have hold : (w.fences id).attempt ≠ some w.disk.issued := fun h =>
    lt_irrefl _ (hi.disk.assembling id _ h).2
  refine ⟨hi.onDisk trivial, ⟨Nat.lt_succ_self _, fun ha => ?_⟩, fun i r hr hp => ?_, ?_⟩
  · rcases World.onDisk_fences w (.createAttempt id) t id with heq | ⟨hx, -, heq⟩
    · rw [heq] at ha
      exact absurd ha hold
    · rw [heq]
      exact hx
  · obtain ⟨n, hn, hlt, -⟩ := hi.disk.placed i r id _ hr hp
    cases hn
    exact absurd hlt (lt_irrefl _)
  · cases hl : w.lost t with
    | true =>
      have hu := hi.disk.detached t id hl
      refine .inl ?_
      rw [World.Unfenced, World.onDisk, if_neg hu.1]
      exact hu
    | false =>
      obtain ⟨hx, htidy⟩ := hclean hl
      have hf : (w.onDisk (.createAttempt id) t).fences id =
          { w.fences id with attempt := some w.disk.issued } := by
        simp only [World.onDisk, if_pos hx, setAt_self]
      refine .inr ⟨by rw [hf]; exact hx, by rw [hf], ?_⟩
      refine htidy.imp (fun hs => Bool.or_eq_true_iff.mpr (.inl hs)) fun htidy a data hd => ?_
      rcases DiskOp.attempt_apply (t := t) (.createAttempt id) hd with ⟨old, hold, -⟩ | ⟨-, ha⟩
      · exact .inr ((htidy a old hold).resolve_left fun hf => hf)
      · exact .inl ha

/-- The file of a new attempt is empty. -/
theorem gathered_createAttempt (hi : Inv w) (hx : (w.fences id).exclusive = some t) :
    Gathered t (w.onDisk (.createAttempt id) t) id w.disk.issued [] := by
  have hf : (w.onDisk (.createAttempt id) t).fences id =
      { w.fences id with attempt := some w.disk.issued } := by
    simp only [World.onDisk, if_pos hx, setAt_self]
  refine ⟨by rw [hf]; exact hx, by rw [hf], fun data hd => ?_, fun q _ i part hp => by simp at hp⟩
  have hnew : ∀ data', (w.disk.issued, data') ∉ w.disk.attempts id := fun data' hmem =>
    lt_irrefl _ (hi.disk.attempts id _ data' hmem)
  simp only [World.onDisk, DiskOp.apply] at hd
  split_ifs at hd
  · rw [setAt_self, List.mem_cons] at hd
    exact hd.elim (fun h => (Prod.mk.inj h).2) fun h => absurd h (hnew data)
  · exact absurd hd (hnew data)

/-- **The assembly of an upload**, from its new attempt to the commit. -/
theorem assembly_safe {detect : Bytes → JsString} (hi : Inv w) (hk : Known w id s)
    (hlegacy : s.workspaceId = .legacy) (hpos : 0 < s.totalSize)
    (hclean : w.lost t = false → Cleaned t w id fun _ => False) :
    Safe contract t (do
      let (attempt, there) ← Prog.ask (.disk (.createAttempt id)) fun _ w =>
        (w.disk.issued, w.disk.directories id)
      let tx ← tryCatch
        (assembleAndPublish enabled detect userId id attempt there s access) fun e => do
          discardAttempt id attempt
          throw e
      orRollback (commit tx)
      ignoreFailure (deleteTempFiles id)) w := by
  rw [Safe, wp_bind]
  refine wp_ask fun w₁ h₁ hi₁ w₂ he => ⟨fun _ => trivial, ?_⟩
  have he₂ : w₁.onDisk (.createAttempt id) t = w₂ := by
    unfold Instr.exec at he
    split_ifs at he <;> exact Option.some.inj he
  subst he₂
  have hclean₁ : w₁.lost t = false → Cleaned t w₁ id fun _ => False :=
    Cleaned.attached hclean hi.disk h₁
  have hassembling := assembling_createAttempt hi₁ hclean₁
  have hnew : Persists t w₁ (w₁.onDisk (.createAttempt id) t) :=
    World.persists_onDisk (t := t) trivial (.inr rfl)
  have hk₂ := (hk.persists h₁.persists).persists hnew
  dsimp only
  rw [wp_bind, wp_tryCatch]
  refine wp_mono (fun tx w₃ h₃ => ?_) (fun e w₃ h₃ => ?_)
    (wp_assembleAndPublish hassembling hk₂ hlegacy hpos fun hl =>
      gathered_createAttempt hi₁ (hclean₁ hl).1)
  · obtain ⟨⟨hready, hplaces⟩, h₃⟩ := h₃
    rw [wp_bind]
    refine wp_orRollback (wp_commitWith fun w₄ ha hl hi₄ hallowed => ?_)
    have hok := hready w₄ ha hl hi₄ hallowed
    refine ⟨hok, fun hc hi₅ => deleteTempFiles_safe hi₅ fun _ => ?_⟩
    exact ((h₃.attached ha hi₄).cleaned hplaces hok).publish hplaces hc
  · rw [wp_bind]
    exact wp_mono (fun _ _ _ => trivial) (fun _ _ _ => trivial) (discardAttempt_safe h₃.2)

/-- An upload that is still open is recovered or assembled. -/
theorem open_safe {detect : Bytes → JsString} (hi : Inv w) (hk : Known w id s)
    (hlegacy : s.workspaceId = .legacy) (hpos : 0 < s.totalSize) (hx : (w.fences id).exclusive = some t) :
    Safe contract t (do
      let recovered ← cleanupUnpublishedAssembly id s
      match recovered with
      | some (fileId, _) => do
        completeRecovered enabled userId id s fileId access
        ignoreFailure (deleteTempFiles id)
      | none => do
        let (attempt, there) ← Prog.ask (.disk (.createAttempt id)) fun _ w =>
          (w.disk.issued, w.disk.directories id)
        let tx ← tryCatch
          (assembleAndPublish enabled detect userId id attempt there s access) fun e => do
            discardAttempt id attempt
            throw e
        orRollback (commit tx)
        ignoreFailure (deleteTempFiles id)) w := by
  rw [Safe, wp_bind]
  refine wp_cleanupUnpublishedAssembly hk (fun _ => World.controls_of_exclusive hx)
    fun w₁ recovered h₁ hi₁ htidy => ?_
  have hclean : w₁.lost t = false → Cleaned t w₁ id fun _ => False := fun hl =>
    ⟨((h₁.locks hl).exclusive id hx).1, (htidy hl).2⟩
  cases recovered with
  | none => exact assembly_safe hi₁ (hk.persists h₁.persists) hlegacy hpos hclean
  | some found =>
    dsimp only
    rw [wp_bind]
    exact wp_completeRecovered hi₁ (hk.persists h₁.persists) hlegacy hclean fun w₂ hi₂ hclean₂ =>
      deleteTempFiles_safe hi₂ fun _ => hclean₂

theorem completeUpload_safe {detect : Bytes → JsString} :
    Safe contract t (completeUpload enabled detect userId id access) w := by
  unfold completeUpload
  refine wp_withAssemblyFence fun w₁ _ hx => ?_
  rw [Safe, wp_bind]
  refine wp_query fun w₂ h₂ hi₂ => ?_
  rw [wp_bind]
  refine wp_require fun s hs => ?_
  obtain ⟨hrow, hwhere⟩ := Option.filter_eq_some_iff.mp hs
  have hk₂ := Known.of_row hi₂ hrow
  rw [wp_bind]
  refine wp_authorizeSession hi₂ fun w₃ h₃ _ => ?_
  rw [wp_bind]
  refine wp_assertLegacyUnreserved fun w₄ h₄ _ => ?_
  rw [wp_bind]
  refine wp_resolveSessionWorkspace fun w₅ h₅ _ hlegacy => ?_
  rw [wp_bind]
  refine wp_query fun w₆ h₆ hi₆ => ?_
  rw [wp_bind]
  refine wp_assert fun _ => ?_
  have h₂₆ : Follows t w₂ w₆ := h₃.trans (h₄.trans (h₅.trans h₆)).toFollows
  have hx₆ : (w₆.fences id).exclusive = some t :=
    (h₂.toFollows.trans h₂₆).held.exclusive id hx |>.1
  have hk₆ := hk₂.persists h₂₆.persists
  have hpos : 0 < s.totalSize := (hi₂.sessions id s hrow).laidOut.1
  have hrest : ∀ w₇, Continues t w₆ w₇ → Safe contract t (ignoreFailure do
      let _ ← cleanupUnpublishedAssembly id s
      deleteTempFiles id) w₇ := fun w₇ h₇ =>
    wp_ignoreFailure (removeAll_safe (hk₆.persists h₇.persists) fun _ =>
      World.controls_of_exclusive (h₇.held.exclusive id hx₆).1)
  cases hstatus : s.status with
  | pending => exact open_safe hi₆ hk₆ hlegacy hpos hx₆
  | uploading => exact open_safe hi₆ hk₆ hlegacy hpos hx₆
  | aborted => trivial
  | completed =>
    dsimp only
    rw [wp_bind]
    refine wp_query fun w₇ h₇ _ => ?_
    rw [wp_bind]
    refine wp_require fun file _ => ?_
    cases access with
    | none => exact hrest w₇ h₇.toContinues
    | some a =>
      dsimp only
      rw [wp_bind]
      refine wp_require fun _ _ => ?_
      rw [wp_bind]
      refine wp_authorize fun w₈ h₈ _ => ?_
      rw [wp_bind]
      exact wp_assert fun _ => hrest w₈ (h₇.toFollows.trans h₈).toContinues

end

end HomeCloud
