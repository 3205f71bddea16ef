import HomeCloud.Rules
import HomeCloud.Sharing.PublicFolder

/-!
# Public folders fulfil the contract

* **`wp_lockLivePath`**: the path is there, and stays while the owner is locked.
* **`wp_authorizeUpload`**, **`wp_authorizeUpload_locked`**: what an authorization finds.
* **`PublicFolder.createFolder_safe`**.
-/

namespace HomeCloud

open Concurrent

/-! ## Live paths -/

section

variable {t : ℕ} {w w' : World} {userId targetId rootId : ℕ}

theorem wp_livePath {Q : List ℕ → World → Prop}
    (h : ∀ w' ids, Rely t w w' → Inv w' → w'.db.within userId rootId targetId = true → Q ids w') :
    After t (livePath userId targetId rootId) Q w := by
  unfold livePath
  rw [After, wp_bind]
  refine wp_query fun w₁ h₁ hi => ?_
  rw [wp_bind]
  exact wp_assert fun hw => h w₁ _ h₁ hi hw

theorem wp_lockFolders {Q : Unit → World → Prop} : ∀ (ids : List ℕ) {w : World},
    (∀ w', Rely t w w' → Q () w') → After t (lockFolders ids) Q w
  | [], w, h => h w (.refl t w)
  | id :: ids, w, h => by
    unfold lockFolders
    rw [After, wp_bind]
    exact wp_lockFolder fun w₁ _ h₁ _ _ _ =>
      wp_lockFolders ids fun w₂ h₂ => h w₂ (h₁.trans h₂)

/-- **The live path is there in the end.** -/
theorem wp_lockLivePath {Q : Unit → World → Prop}
    (h : ∀ w', Rely t w w' → Inv w' → w'.db.within userId rootId targetId = true → Q () w') :
    After t (lockLivePath userId targetId rootId) Q w := by
  unfold lockLivePath
  rw [After, wp_bind]
  refine wp_livePath fun w₁ ids h₁ _ _ => ?_
  rw [wp_bind]
  refine wp_lockFolders _ fun w₂ h₂ => ?_
  rw [wp_bind]
  exact wp_livePath fun w₃ _ h₃ hi hw => h w₃ ((h₁.trans h₂).trans h₃) hi hw

/-- While the owner is locked the live path stays. -/
theorem Keeps.within (h : Keeps t w w') (hi : Intact w'.db) (hl : w.locks (.user userId) = some t)
    (hw : w.db.within userId rootId targetId = true) : w'.db.within userId rootId targetId = true :=
  Db.within_mono (fun f r hr hlive => h.live hi hl f r hr hlive) hw

/-! ## Links -/

theorem Keeps.links (h : Keeps t w w') {id : ℕ} {r : ShareLink} (hl : w.locks (.link id) = some t)
    (hr : w.db.shareLinks.get id = some r) : w'.db.shareLinks.get id = some r := by
  have hrow := h.rows (.link id) (.link r) hl (by simp [Db.row, hr])
  simpa [Db.row] using hrow

/-- The link a request finds is there, live and of its owner. -/
theorem Db.uploadLink_eq_some {db : Db} {token now id root : ℕ} {link : ShareLink}
    (h : db.uploadLink token now = some (id, link, root)) :
    db.shareLinks.get id = some link ∧ link.isActive = true ∧
      link.expiresAt.all (now < ·) = true := by
  obtain ⟨⟨id', link'⟩, hfind, h⟩ := Option.bind_eq_some_iff.mp h
  obtain ⟨mirror, -, h⟩ := Option.bind_eq_some_iff.mp h
  obtain ⟨root', -, h⟩ := Option.bind_eq_some_iff.mp h
  obtain ⟨folder, -, h⟩ := Option.bind_eq_some_iff.mp h
  obtain ⟨owner, -, h⟩ := Option.bind_eq_some_iff.mp h
  split_ifs at h with hb
  cases h
  simp only [Bool.and_eq_true] at hb
  obtain ⟨⟨⟨⟨⟨⟨⟨⟨⟨hactive, -⟩, -⟩, hexpires⟩, -⟩, -⟩, -⟩, -⟩, -⟩, -⟩ := hb
  exact ⟨(Table.find_some hfind).1, hactive, hexpires⟩

variable {token parentId : ℕ} {proof : UploadProof}

/-- **A proof is accepted only for the share, the root folder and the user it names.** -/
theorem provenLink_eq_some {found : Option (ℕ × ShareLink × ℕ)} {id root : ℕ} {link : ShareLink}
    (h : provenLink proof found = some (id, link, root)) :
    found = some (id, link, root) ∧ id = proof.shareId ∧ link.userId = proof.userId ∧
      root = proof.rootId := by
  obtain ⟨hf, hp⟩ := Option.filter_eq_some_iff.mp h
  simp only [Bool.and_eq_true, decide_eq_true_eq] at hp
  exact ⟨hf, hp.1.1, hp.1.2, hp.2⟩

/-- The check of the proof that `t` has made last found it in time. -/
def ProofChecked (t : ℕ) (w : World) (expires : ℕ) : Prop :=
  ∃ now, w.checked t = some (now, expires) ∧ now < expires ∧ now ≤ w.now

theorem ProofChecked.rely {expires : ℕ} (h : ProofChecked t w expires) (hr : Rely t w w') :
    ProofChecked t w' expires := by
  obtain ⟨now, hc, hlt, hle⟩ := h
  exact ⟨now, hr.checked.trans hc, hlt, hle.trans hr.persists.now⟩

/-- **After `verifyProof` the proof has been checked.** -/
theorem wp_verifyProof {Q : Unit → World → Prop}
    (h : ∀ w', w'.lost t = false → Follows t w w' → Inv w' → ProofChecked t w' proof.expires →
      Q () w') :
    After t (verifyProof proof) Q w := by
  unfold verifyProof
  rw [After, wp_bind]
  refine wp_statement_attached rfl fun w₁ ha hl hi w₂ he => ⟨trivial, wp_assert fun hlt => ?_⟩
  cases he
  exact h _ hl ((ha.rely hl).toFollows.trans World.follows_check) hi.check
    ⟨w₁.now, setAt_self .., of_decide_eq_true hlt, le_rfl⟩

/-- The link is there, locked, active, and the one that the proof names. -/
structure Proven (t : ℕ) (w : World) (proof : UploadProof) (id : ℕ) (link : ShareLink) (root : ℕ) :
    Prop where
  row : w.db.shareLinks.get id = some link
  locked : w.locks (.link id) = some t
  active : link.isActive = true
  share : id = proof.shareId
  owner : link.userId = proof.userId
  root : root = proof.rootId

theorem Proven.keeps {id root : ℕ} {link : ShareLink} (h : Proven t w proof id link root)
    (hk : Keeps t w w') : Proven t w' proof id link root :=
  ⟨hk.links h.locked h.row, hk.locks _ h.locked, h.active, h.share, h.owner, h.root⟩

/-- **The link that is locked is the one the proof names**, not expired since. -/
theorem wp_lockUploadLink {Q : ℕ × ShareLink × ℕ → World → Prop}
    (h : ∀ w' id link root now, Rely t w w' → Inv w' → Proven t w' proof id link root →
      w.now ≤ now → link.expiresAt.all (now < ·) = true → Q (id, link, root) w') :
    After t (lockUploadLink token proof) Q w := by
  unfold lockUploadLink
  rw [After, wp_bind]
  refine wp_query fun w₁ h₁ _ => ?_
  dsimp only
  rw [wp_bind]
  refine wp_require fun found hfound => ?_
  obtain ⟨id, link₁, root₁⟩ := found
  obtain ⟨-, hid, -⟩ := provenLink_eq_some hfound
  rw [wp_bind]
  refine wp_selectForUpdate fun w₂ h₂ hi hl => wp_require fun locked hlink => ?_
  obtain ⟨id', link, root⟩ := locked
  obtain ⟨hup, hid', hu, hroot⟩ := provenLink_eq_some hlink
  obtain ⟨hrow, hactive, hexpires⟩ := Db.uploadLink_eq_some hup
  have hlocked : w₂.locks (.link id') = some t := by
    rw [hid', ← hid]
    refine hl ?_
    rw [hid, ← hid', Db.row, Option.isSome_map, hrow]
    rfl
  exact h w₂ id' link root w₁.now (h₁.trans h₂) hi ⟨hrow, hlocked, hactive, hid', hu, hroot⟩
    h₁.persists.now hexpires

/-- **An authorization finds the path below the shared folder.** -/
theorem wp_authorizeUpload {lock : Bool} {Q : Unit → World → Prop}
    (h : ∀ w', Follows t w w' → Inv w' → ProofChecked t w' proof.expires →
      w'.db.within proof.userId proof.rootId parentId = true → Q () w') :
    After t (authorizeUpload token proof parentId lock) Q w := by
  unfold authorizeUpload
  rw [After, wp_bind]
  refine wp_verifyProof fun w₁ _ h₁ _ hc => ?_
  split_ifs
  · rw [wp_bind]
    exact wp_lockUploadLink fun w₂ _ _ _ _ h₂ _ _ _ _ => wp_lockLivePath fun w₃ h₃ hi hw =>
      h w₃ (h₁.trans (h₂.trans h₃).toFollows) hi (hc.rely (h₂.trans h₃)) hw
  · rw [wp_bind]
    refine wp_query fun w₂ h₂ _ => ?_
    rw [wp_bind]
    refine wp_require fun _ _ => ?_
    rw [wp_bind]
    exact wp_livePath fun w₃ _ h₃ hi hw =>
      h w₃ (h₁.trans (h₂.trans h₃).toFollows) hi (hc.rely (h₂.trans h₃)) hw

/-- **An authorization that locks the link, or finds it locked, has checked all that a public write
needs.** -/
theorem wp_authorizeUpload_locked {lock : Bool} {Q : Unit → World → Prop}
    (hlock : lock = true ∨ (w.lost t = false → w.locks (.link proof.shareId) = some t))
    (h : ∀ w', Follows t w w' → Inv w' → ProofChecked t w' proof.expires →
      SharedOk t w' proof.shareId proof.rootId proof.userId parentId → Q () w') :
    After t (authorizeUpload token proof parentId lock) Q w := by
  -- What is left to see is the path, for a link found after the proof was checked.
  have hshared : ∀ {w₁ w₃ : World} {link : ShareLink} {id root now : ℕ},
      ProofChecked t w₁ proof.expires → Rely t w₁ w₃ → w₁.now ≤ now →
      Proven t w₃ proof id link root → link.expiresAt.all (now < ·) = true →
      w₃.db.within proof.userId proof.rootId parentId = true →
      SharedOk t w₃ proof.shareId proof.rootId proof.userId parentId := by
    intro w₁ w₃ link id root now hc h₁₃ hnow hp hexpires hw
    obtain ⟨n, hn, -, hle⟩ := hc
    refine ⟨⟨link, hp.share ▸ hp.row, hp.active, hp.owner, fun n' e hne => ?_⟩, ?_,
      hp.share ▸ hp.locked, hw⟩
    · cases (h₁₃.checked.trans hn).symm.trans hne
      cases hx : link.expiresAt with
      | none => rfl
      | some e' =>
        simp only [hx, Option.all_some, decide_eq_true_eq] at hexpires ⊢
        omega
    · rw [h₁₃.checked, hn]
      rfl
  unfold authorizeUpload
  rw [After, wp_bind]
  refine wp_verifyProof fun w₁ hlive h₁ _ hc => ?_
  split_ifs with hb
  · rw [wp_bind]
    refine wp_lockUploadLink fun w₂ id link root now h₂ _ hp hnow hexpires =>
      wp_lockLivePath fun w₃ h₃ hi hw => ?_
    have h₁₃ := h₂.trans h₃
    exact h w₃ (h₁.trans h₁₃.toFollows) hi (hc.rely h₁₃)
      (hshared hc h₁₃ hnow (hp.keeps h₃.keeps) hexpires hw)
  · have hl := h₁.keeps.locks _ (hlock.resolve_left hb (h₁.live hlive))
    rw [wp_bind]
    refine wp_query fun w₂ h₂ _ => ?_
    rw [wp_bind]
    refine wp_require fun found hfound => ?_
    obtain ⟨id, link, root⟩ := found
    obtain ⟨hup, hid, hu, hroot⟩ := provenLink_eq_some hfound
    obtain ⟨hrow, hactive, hexpires⟩ := Db.uploadLink_eq_some hup
    have hp : Proven t w₂ proof id link root :=
      ⟨hrow, hid ▸ h₂.keeps.locks _ hl, hactive, hid, hu, hroot⟩
    rw [wp_bind]
    refine wp_livePath fun w₃ _ h₃ hi hw => ?_
    have h₁₃ := h₂.trans h₃
    exact h w₃ (h₁.trans h₁₃.toFollows) hi (hc.rely h₁₃)
      (hshared hc h₁₃ h₂.persists.now (hp.keeps h₃.keeps) hexpires hw)

/-! ## Creating folders -/

/-- A link that is locked gets no new receipts from others. -/
theorem Keeps.receiptsOf (h : Keeps t w w') {linkId : ℕ} (hl : w.locks (.link linkId) = some t) :
    (w'.db.receiptsOf linkId).length ≤ (w.db.receiptsOf linkId).length := by
  refine Table.length_select_le fun i r' hr' hp => ?_
  have hlink := of_decide_eq_true hp
  obtain ⟨r, hr, hsame⟩ := h.receipts i r' linkId hr' hlink hl
  exact ⟨r, hr, decide_eq_true (hsame.shareLinkId.symm.trans hlink)⟩

namespace PublicFolder

theorem wp_replay {now : ℕ} {request : PublicRequest} {prior : PublicShareOperation} :
    After t (replay userId rootId parentId now request prior) (fun r w' => Ready t r.1 w') w := by
  unfold replay
  rw [After, wp_bind]
  refine wp_assert fun _ => ?_
  rw [wp_bind]
  refine wp_require fun id _ => ?_
  rw [wp_bind]
  refine wp_lockLivePath fun w₁ _ _ _ => ?_
  rw [wp_bind]
  refine wp_query fun w₂ _ _ => ?_
  rw [wp_bind]
  refine wp_require fun folder _ => ?_
  rw [wp_bind]
  exact wp_assert fun _ => .none

theorem createFolder_safe {nfc : JsString → JsString} {key : ℕ} {name : JsString}
    (hu : (w.db.users.get proof.userId).isSome) :
    Safe contract t (createFolder nfc token proof key parentId name) w := by
  unfold createFolder
  rw [Safe, wp_bind]
  refine wp_verifyProof fun w₁ _ h₁ _ _ => ?_
  rw [wp_bind]
  refine wp_require fun displayName _ => wp_transaction ?_
  rw [After, wp_bind]
  refine wp_lockUser fun w₂ row h₂ _ hrow hl => ?_
  have huser := hl (hrow ▸ (h₁.trans h₂.toFollows).keeps.grows.users _ hu)
  rw [wp_bind]
  refine wp_lockUploadLink fun w₃ linkId link root _ h₃ _ hp _ _ => ?_
  dsimp only
  rw [wp_bind]
  refine wp_lockLivePath fun w₄ h₄ _ hw => ?_
  rw [wp_bind]
  refine wp_query fun w₅ h₅ _ => ?_
  dsimp only
  split
  · exact wp_replay
  · rw [wp_bind]
    refine wp_query fun w₆ h₆ _ => ?_
    rw [wp_bind]
    refine wp_assert fun hroom => ?_
    rw [wp_bind]
    refine wp_allocateNamespaceName fun w₇ c k₇ _ hc => ?_
    rw [wp_bind]
    refine wp_statement rfl fun w₈ h₈ hi₈ w₉ he => ⟨trivial, ?_⟩
    cases he
    rw [wp_bind]
    refine wp_assert fun hlive => .intro fun w₉ h₉ hi₉ _ => ?_
    have hcheck : Follows t w₈ (w₈.check proof.expires t) := World.follows_check
    have h₈₉ := h₈.toFollows.trans (hcheck.trans h₉.toFollows)
    have hk := k₇.trans h₈₉.keeps
    have hk₅ := (h₅.trans h₆).keeps.trans hk
    have hproven := (hp.keeps h₄.keeps).keeps hk₅
    have hlocked := h₃.keeps.locks _ huser
    refine ⟨?_, fun r hr => ⟨linkId, root, parentId, ?_⟩⟩
    · exact
        { live := rfl
          user := hp.owner ▸ (h₄.keeps.trans hk₅).locks _ hlocked
          chosen := hc.follows h₈₉ }
    · cases hr
      have hlock₆ := (h₄.trans (h₅.trans h₆)).keeps.locks _ hp.locked
      refine ⟨⟨rfl, hproven.locked, ?_⟩, rfl, rfl, ⟨⟨link, hproven.row, hp.active, rfl, ?_⟩, ?_,
        hproven.locked, ?_⟩⟩
      · exact lt_of_le_of_lt (hk.receiptsOf hlock₆) (of_decide_eq_true hroom)
      · -- The last statement has seen the link, which is locked, with its time.
        intro now expires hne
        rw [h₉.checked] at hne
        cases (setAt_self _ _ _).symm.trans hne
        have hrow := (((hp.keeps h₄.keeps).keeps (h₅.trans h₆).keeps).keeps
          (k₇.trans h₈.keeps)).row
        rw [hrow] at hlive
        simp only [Option.any_some, Bool.and_eq_true] at hlive
        exact hlive.2
      · rw [h₉.checked]
        simp only [World.check, setAt_self, Option.isSome_some]
      · exact hk₅.within hi₉.intact (hp.owner ▸ h₄.keeps.locks _ hlocked) hw

end PublicFolder

end

end HomeCloud
