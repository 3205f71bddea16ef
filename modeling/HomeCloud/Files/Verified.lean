import HomeCloud.Files.Service
import HomeCloud.Rules

/-!
# The file operations fulfil the contract

Each operation has established what its writes need by the time it commits, whatever the other
transactions did in between. With that, a run of the services is a sequence of such commits.

* **`createFile_safe`**, …, **`emptyTrash_safe`**: one theorem for each operation.
-/

namespace HomeCloud

open Concurrent

section

variable {t : ℕ} {w : World} {userId id : ℕ} {parentId : Option ℕ}

/-! ## Lookups -/

theorem wp_findOne {Q : File → World → Prop}
    (h : ∀ w' r, Rely t w w' → Inv w' → w'.db.files.get id = some r → r.userId = userId → Q r w') : After t (findOne userId id) Q w := by
  unfold findOne
  rw [After, wp_bind]
  refine wp_query fun w₁ hr hi => wp_require (fun r hf => ?_)
  obtain ⟨hf, hu⟩ := Option.filter_eq_some_iff.mp hf
  exact h w₁ r hr hi hf (of_decide_eq_true hu)

theorem wp_assertFolderOwnership {Q : Unit → World → Prop}
    (h : ∀ w', Rely t w w' → Q () w') :
    After t (assertFolderOwnership userId parentId) Q w := by
  unfold assertFolderOwnership
  split
  · exact h w (.refl t w)
  · exact h w (.refl t w)
  · rw [After, wp_bind]
    exact wp_query fun w₁ hr _ => wp_assert (fun _ => h w₁ hr)

theorem wp_assertNoCycle {target : ℕ} {Q : Unit → World → Prop}
    (h : ∀ w', Rely t w w' → target ∉ w'.db.descendants (fun _ => true) (fun _ i => i = id) → Q () w') :
    After t (assertNoCycle id target) Q w := by
  unfold assertNoCycle
  rw [After, wp_bind]
  exact wp_query fun w₁ hr _ => wp_assert (fun hno => h w₁ hr (of_decide_eq_true hno))

/-- The user row of a request is there when the request locks it. -/
theorem wp_lockOwner {Q : Option User → World → Prop}
    (hu : (w.db.users.get userId).isSome)
    (h : ∀ w' r, Rely t w w' → Inv w' → w'.locks (.user userId) = some t → Q r w') :
    After t (lockUser userId) Q w :=
  wp_lockUser fun w₁ r hr hi hrow hl =>
    h w₁ r hr hi (hl (hrow ▸ hr.keeps.grows.users userId hu))

/-! ## Creating -/

theorem createFile_safe {name : JsString} {size : ℤ} {mimeType : Option JsString}
    (hu : (w.db.users.get userId).isSome) :
    Safe contract t (createFile userId name size mimeType parentId) w := by
  unfold createFile
  rw [Safe, wp_bind]
  refine wp_require fun displayName _ => ?_
  rw [wp_bind]
  refine wp_query fun w₁ h₁ _ => ?_
  rw [wp_bind]
  refine wp_assert fun _ => ?_
  rw [wp_bind]
  refine wp_assertFolderOwnership (fun w₂ h₂ => wp_transaction ?_)
  have hu₂ := (h₁.trans h₂).keeps.grows.users userId hu
  rw [After, wp_bind]
  refine wp_lockOwner hu₂ fun w₃ _ h₃ _ hlock => ?_
  rw [wp_bind]
  refine wp_allocateNamespaceName fun w₄ c k₄ _ hc => ?_
  rw [wp_bind]
  intro n
  rw [wp_ret, wp_bind]
  refine wp_parseDatabaseSize fun bytes _ => ?_
  rw [wp_bind]
  refine wp_updateStorageUsed (.inr (k₄.grows.users userId (h₃.keeps.grows.users userId hu₂)))
    (fun w₅ h₅ hcharged => ?_)
  refine .intro fun w₆ h₆ _ _ => ⟨?_, rfl, _, rfl⟩
  exact
    { plain := ⟨rfl, rfl⟩
      live := rfl
      charged := hcharged.keeps h₆.keeps
      chosen := hc.rely (h₅.trans h₆)
      placed := .of_none (fun s a hp => by cases hp) rfl }

theorem createFolder_safe {name : JsString} (hu : (w.db.users.get userId).isSome) :
    Safe contract t (createFolder userId name parentId) w := by
  unfold createFolder
  rw [Safe, wp_bind]
  refine wp_assert fun _ => ?_
  rw [wp_bind]
  refine wp_assertFolderOwnership (fun w₁ h₁ => wp_transaction ?_)
  rw [After, wp_bind]
  refine wp_lockOwner (h₁.keeps.grows.users userId hu) fun w₂ _ h₂ _ hlock => ?_
  rw [wp_bind]
  refine wp_allocateNamespaceName fun w₃ c k₃ _ hc => ?_
  refine .intro fun w₄ h₄ _ _ => ⟨?_, fun r hr => by cases hr⟩
  exact
    { live := rfl
      user := h₄.keeps.locks _ (k₃.locks _ hlock)
      chosen := hc.rely h₄ }

theorem copyFile_safe (hu : (w.db.users.get userId).isSome) :
    Safe contract t (copyFile userId id parentId) w := by
  unfold copyFile
  rw [Safe, wp_bind]
  refine wp_findOne fun w₁ source h₁ _ _ _ => ?_
  rw [wp_bind]
  refine wp_query fun w₂ h₂ _ => ?_
  rw [wp_bind]
  refine wp_assert fun _ => ?_
  rw [wp_bind]
  refine wp_assertFolderOwnership fun w₃ h₃ => ?_
  rw [wp_bind]
  refine wp_parseDatabaseSize fun size _ => ?_
  rw [wp_bind]
  refine wp_require fun displayName _ => ?_
  rw [wp_bind]
  intro n
  rw [wp_ret, wp_bind]
  refine wp_assert (fun _ => wp_transaction ?_)
  rw [After, wp_bind]
  refine wp_updateStorageUsed (.inr (((h₁.trans h₂).trans h₃).keeps.grows.users userId hu))
    (fun w₄ h₄ hcharged => ?_)
  rw [wp_bind]
  refine wp_allocateNamespaceName fun w₅ c k₅ _ hc => ?_
  refine .intro fun w₆ h₆ _ _ => ⟨?_, rfl, _, rfl⟩
  exact
    { plain := ⟨rfl, rfl⟩
      live := rfl
      charged := hcharged.keeps (k₅.trans h₆.keeps)
      chosen := hc.rely h₆
      placed := .of_none (fun s a hp => by cases hp) rfl }

/-! ## Renaming, moving and restoring files -/

theorem wp_activeParent {Q : Option ℕ → World → Prop}
    (h : ∀ w' d, Rely t w w' → (d = parentId ∨ d = none) → Q d w') :
    After t (activeParent userId parentId) Q w := by
  unfold activeParent
  cases parentId with
  | none => exact h w none (.refl t w) (.inl rfl)
  | some p =>
    rw [After, wp_bind]
    refine wp_query fun w₁ hr _ => ?_
    split_ifs
    · exact h w₁ _ hr (.inl rfl)
    · exact h w₁ _ hr (.inr rfl)

theorem wp_allocateWhen {changes : Bool} {requested : JsString} {kind : EntryKind}
    {excludeFile excludeFolder : Option ℕ} {Q : Option NameChoice → World → Prop}
    (hsome : ∀ w' c, Keeps t w w' → changes = true →
      Chosen t w' ⟨userId, parentId⟩ (.ofJs c.chosen) c (exemptEntries excludeFile excludeFolder) →
      Q (some c) w')
    (hnone : changes = false → Q none w) :
    After t (allocateWhen changes userId parentId requested kind excludeFile excludeFolder) Q w := by
  unfold allocateWhen
  split_ifs with hb
  · rw [After, wp_bind]
    exact wp_allocateNamespaceName (fun w₁ c k₁ _ hc => hsome w₁ c k₁ hb hc)
  · exact hnone (by simpa using hb)

theorem changeFilePlacement_safe {name : Option JsString} {target : Option (Option ℕ)}
    {restore : Bool} (hu : (w.db.users.get userId).isSome) :
    Safe contract t (changeFilePlacement userId id name target restore) w := by
  unfold changeFilePlacement
  refine wp_transaction ?_
  rw [After, wp_bind]
  refine wp_lockOwner hu fun w₁ _ h₁ _ hlock => ?_
  rw [wp_bind]
  refine wp_lockFile fun w₂ row h₂ _ hrow hflock => ?_
  rw [wp_bind]
  refine wp_require fun file hfile => ?_
  obtain ⟨rfl, howner⟩ := Option.filter_eq_some_iff.mp hfile
  replace howner : file.userId = userId := of_decide_eq_true howner
  have hl := hflock rfl
  rw [wp_bind]
  refine wp_assert fun hplain => ?_
  replace hplain : file.isFolder = false := by simpa using hplain
  rw [wp_bind]
  refine wp_mono (Q := fun _ w₃ => Keeps t w₂ w₃) (E := fun _ _ => True)
    (fun destination w₃ k₃ => ?_) (fun _ _ _ => trivial) ?_
  · rw [wp_bind]
    refine wp_allocateWhen (fun w₄ c k₄ _ hc => ?_) fun hkept => ?_
    · exact .intro fun w₅ h₅ _ _ => ⟨file,
        { row := h₅.keeps.files id file (k₄.locks _ (k₃.locks _ hl))
            (k₄.files id file (k₃.locks _ hl) (k₃.files id file hl hrow))
          locked := h₅.keeps.locks _ (k₄.locks _ (k₃.locks _ hl))
          plain := hplain
          same := ⟨rfl, rfl, rfl, rfl, rfl, rfl⟩
          kept := fun hnone => absurd hnone (Option.some_ne_none c)
          chosen := fun c' hc' => by
            cases hc'
            have := hc.rely h₅
            rwa [← howner] at this }⟩
    · -- No name is allocated when neither directory, name nor liveness changes.
      simp only [Bool.or_eq_false_iff, Bool.and_eq_false_iff, decide_eq_false_iff_not,
        not_not] at hkept
      obtain ⟨⟨hrestore, -⟩, rfl⟩ := hkept
      exact .intro fun w₅ h₅ _ _ => ⟨file,
        { row := h₅.keeps.files id file (k₃.locks _ hl) (k₃.files id file hl hrow)
          locked := h₅.keeps.locks _ (k₃.locks _ hl)
          plain := hplain
          same := ⟨rfl, rfl, rfl, rfl, rfl, rfl⟩
          kept := fun _ => ⟨rfl, rfl, by rcases hrestore with h | h <;> simp [h]⟩
          chosen := fun c hc => by cases hc }⟩
  · split_ifs
    · exact wp_activeParent fun w₃ _ h₃ _ => h₃.keeps
    · exact .refl t w₂

theorem wp_validateNewName {name : Option JsString} {Q : Option JsString → World → Prop} (h : ∀ n, Q n w) :
    After t (validateNewName name) Q w := by
  unfold validateNewName
  cases name with
  | none => exact h none
  | some n =>
    rw [After, wp_bind]
    exact wp_require (fun d _ => h (some d))

theorem wp_assertTargetOwnership {target : Option (Option ℕ)} {Q : Unit → World → Prop} (h : ∀ w', Rely t w w' → Q () w') :
    After t (assertTargetOwnership userId target) Q w := by
  unfold assertTargetOwnership
  cases target with
  | none => exact h w (.refl t w)
  | some p => exact wp_assertFolderOwnership h

theorem updateFile_safe {name : Option JsString} {target : Option (Option ℕ)}
    (hu : (w.db.users.get userId).isSome) : Safe contract t (updateFile userId id name target) w := by
  unfold updateFile
  rw [Safe, wp_bind]
  refine wp_validateNewName fun n => ?_
  rw [wp_bind]
  refine wp_assertTargetOwnership fun w₁ h₁ => ?_
  exact changeFilePlacement_safe (h₁.keeps.grows.users userId hu)

theorem restoreFile_safe (hu : (w.db.users.get userId).isSome) :
    Safe contract t (restoreFile userId id) w :=
  changeFilePlacement_safe hu

/-! ## Folders -/

theorem wp_assertNoCycleTo {target : Option (Option ℕ)} {Q : Unit → World → Prop}
    (h : ∀ w', Rely t w w' → (∀ p, target = some (some p) →
      p ∉ w'.db.descendants (fun _ => true) (fun _ i => i = id)) → Q () w') :
    After t (assertNoCycleTo id target) Q w := by
  unfold assertNoCycleTo
  split
  · refine wp_assertNoCycle fun w' hr hno => h w' hr fun p hp => ?_
    cases hp
    exact hno
  · rename_i hnone
    exact h w (.refl t w) fun p hp => absurd hp (hnone p)

/-- A folder and its mirror as an operation of the owner has locked them. -/
structure Held (t : ℕ) (w : World) (userId id mirrorId : ℕ) (folder : Folder) (mirror : File) :
    Prop where
  owner : folder.userId = userId
  user : w.locks (.user userId) = some t
  row : w.db.folders.get id = some folder
  locked : w.locks (.folder id) = some t
  mirrorRow : w.db.files.get mirrorId = some mirror
  mirrorLocked : w.locks (.file mirrorId) = some t
  isMirror : mirror.isFolder = true ∧ mirror.folderId = some id
  agrees : mirror.userId = folder.userId ∧ mirror.name = folder.name ∧
    mirror.parentId = folder.parentId ∧ mirror.isDeleted = folder.isDeleted

section Held

variable {mirrorId : ℕ} {folder folder' : Folder} {mirror mirror' : File} {w' : World}

theorem Held.keeps (h : Held t w userId id mirrorId folder mirror) (hk : Keeps t w w') :
    Held t w' userId id mirrorId folder mirror where
  owner := h.owner
  user := hk.locks _ h.user
  row := hk.folders id folder h.locked h.row
  locked := hk.locks _ h.locked
  mirrorRow := hk.files mirrorId mirror h.mirrorLocked h.mirrorRow
  mirrorLocked := hk.locks _ h.mirrorLocked
  isMirror := h.isMirror
  agrees := h.agrees

/-- **The folder and the mirror stay as they were read.** -/
theorem wp_lockFolderAndMirror {Q : Folder × ℕ × File → World → Prop}
    (hu : w.locks (.user userId) = some t)
    (h : ∀ w' folder mirrorId mirror, Rely t w w' → Held t w' userId id mirrorId folder mirror →
      Q (folder, mirrorId, mirror) w') : After t (lockFolderAndMirror userId id) Q w := by
  unfold lockFolderAndMirror
  rw [After, wp_bind]
  refine wp_lockFolder fun w₁ row h₁ _ hrow hl => ?_
  rw [wp_bind]
  refine wp_require fun folder hfolder => ?_
  obtain ⟨rfl, howner⟩ := Option.filter_eq_some_iff.mp hfolder
  replace hl := hl rfl
  rw [wp_bind]
  refine wp_query fun w₂ h₂ _ => ?_
  rw [wp_bind]
  refine wp_require fun found _ => ?_
  obtain ⟨mirrorId, _⟩ := found
  rw [wp_bind]
  refine wp_lockFile fun w₃ mrow h₃ hi₃ hmrow hml => ?_
  rw [wp_bind]
  refine wp_require fun mirror hmirror => ?_
  obtain ⟨rfl, hm⟩ := Option.filter_eq_some_iff.mp hmirror
  simp only [Bool.and_eq_true, decide_eq_true_eq] at hm
  have hk := (h₂.trans h₃).keeps
  have hrow₃ := hk.folders id folder hl hrow
  -- The invariant says that a mirror agrees with its folder.
  obtain ⟨f, q, hid, hq, hqu, hqn, hqp, hqd⟩ := hi₃.intact.mirror mirrorId mirror hmrow hm.2
  cases hid.symm.trans hm.1.1
  cases hq.symm.trans hrow₃
  exact h w₃ folder mirrorId mirror (h₁.trans (h₂.trans h₃))
    { owner := of_decide_eq_true howner
      user := (h₁.trans (h₂.trans h₃)).keeps.locks _ hu
      row := hrow₃
      locked := hk.locks _ hl
      mirrorRow := hmrow
      mirrorLocked := hml rfl
      isMirror := ⟨hm.2, hm.1.1⟩
      agrees := ⟨hqu.symm, hqn.symm, hqp.symm, hqd.symm⟩ }

/-- The new folder row and the new mirror row, written while both are held. -/
theorem Held.setFolder {choice : Option NameChoice}
    (h : Held t w userId id mirrorId folder mirror) (hown : folder'.userId = folder.userId)
    (hsame : mirror.SameObject mirror')
    (hagrees : mirror'.name = folder'.name ∧ mirror'.parentId = folder'.parentId ∧
      mirror'.isDeleted = folder'.isDeleted)
    (hkept : choice = none → folder'.name = folder.name ∧
      (folder'.parentId = folder.parentId ∨ folder'.parentId = none) ∧
      (folder'.isDeleted = false → folder.isDeleted = false))
    (hchosen : ∀ c, choice = some c →
      Chosen t w folder'.slot folder'.name c [.file mirrorId, .folder id])
    (houtside : ∀ p, folder'.parentId = some p → folder'.parentId ≠ folder.parentId →
      ¬ w.db.Below id p) :
    SetFolderOk t w id mirrorId folder' mirror' choice folder mirror where
  row := h.row
  mirrorRow := h.mirrorRow
  user := h.owner ▸ h.user
  locked := h.locked
  mirrorLocked := h.mirrorLocked
  owner := hown
  isMirror := h.isMirror
  same := hsame
  agrees := ⟨hsame.1.trans (h.agrees.1.trans hown.symm), hagrees⟩
  kept := hkept
  chosen := hchosen
  outside := houtside

/-- While the user is locked, no folder gets below another one of theirs. -/
theorem Held.not_below (h : Held t w userId id mirrorId folder mirror) (hi : Intact w'.db)
    (hk : Keeps t w w') {p : ℕ}
    (hno : p ∉ w.db.descendants (fun _ => true) (fun _ i => i = id)) : ¬ w'.db.Below id p := by
  intro hbelow
  refine hno (Db.mem_descendants_of_below h.row ?_)
  clear hno
  -- Folders below a folder of the user are theirs, and those are the same.
  have hsame : w.db.Below id p ∧ ∀ r, w'.db.folders.get p = some r → r.userId = userId := by
    induction hbelow with
    | refl =>
      refine ⟨.refl, fun r hr => ?_⟩
      cases hr.symm.trans (hk.folders id folder h.locked h.row)
      exact h.owner
    | @tail a b _ hstep ih =>
      obtain ⟨r, hr, hp⟩ := hstep
      obtain ⟨q, hq, hqu⟩ := hi.folder_parent b r a hr hp
      have hru : r.userId = userId := hqu.symm.trans (ih.2 q hq)
      refine ⟨ih.1.tail ⟨r, (hk.tree userId h.user b r hru).mpr hr, hp⟩, fun r' hr' => ?_⟩
      cases hr.symm.trans hr'
      exact hru
  exact hsame.1

end Held

theorem updateFolder_safe {name : Option JsString} {target : Option (Option ℕ)}
    (hu : (w.db.users.get userId).isSome) :
    Safe contract t (updateFolder userId id name target) w := by
  unfold updateFolder
  rw [Safe, wp_bind]
  refine wp_assert fun _ => ?_
  rw [wp_bind]
  refine wp_assertTargetOwnership fun w₁ h₁ => ?_
  rw [wp_bind]
  refine wp_assertNoCycleTo (fun w₂ h₂ _ => wp_transaction ?_)
  rw [After, wp_bind]
  refine wp_lockOwner ((h₁.trans h₂).keeps.grows.users userId hu) fun w₃ _ h₃ _ hlock => ?_
  rw [wp_bind]
  refine wp_lockFolderAndMirror hlock (fun w₄ folder mirrorId mirror h₄ hheld => ?_)
  dsimp only
  rw [wp_bind]
  refine wp_assertNoCycleTo fun w₅ h₅ hno => ?_
  rw [wp_bind]
  refine wp_allocateWhen (fun w₆ c k₆ _ hc => ?_) fun _ => ?_
  · refine .intro fun w₇ h₇ hi₇ _ => ⟨folder, mirror,
      (hheld.keeps (h₅.keeps.trans (k₆.trans h₇.keeps))).setFolder rfl ⟨rfl, rfl, rfl, rfl, rfl, rfl⟩
        ⟨rfl, rfl, hheld.agrees.2.2.2⟩ (fun hnone => absurd hnone (Option.some_ne_none c)) (fun c' hc' => ?_)
        fun p hp hne => ?_⟩
    · cases hc'
      have := hc.rely h₇
      rwa [← hheld.owner] at this
    · refine (hheld.keeps h₅.keeps).not_below hi₇.intact (k₆.trans h₇.keeps) (hno p ?_)
      change target.getD folder.parentId = some p at hp
      change target.getD folder.parentId ≠ folder.parentId at hne
      cases target with
      | none => exact absurd rfl hne
      | some q => exact congrArg some hp
  · exact .intro fun w₇ h₇ _ _ => ⟨folder, mirror,
      (hheld.keeps (h₅.trans h₇).keeps).setFolder rfl (.refl _) hheld.agrees.2
        (fun _ => ⟨rfl, .inl rfl, fun hd => hd⟩) (fun c hc => by cases hc) fun _ _ hne => absurd rfl hne⟩

theorem removeFolder_safe (hu : (w.db.users.get userId).isSome) :
    Safe contract t (removeFolder userId id) w := by
  unfold removeFolder
  refine wp_transaction ?_
  rw [After, wp_bind]
  refine wp_lockOwner hu fun w₁ _ h₁ _ hlock => ?_
  rw [wp_bind]
  refine wp_lockFolderAndMirror hlock (fun w₂ folder mirrorId mirror h₂ hheld => ?_)
  dsimp only
  rw [wp_bind]
  refine wp_query fun w₃ h₃ _ => ?_
  exact .intro fun w₄ h₄ _ _ => ⟨folder, mirror,
    (hheld.keeps (h₃.trans h₄).keeps).setFolder rfl ⟨rfl, rfl, rfl, rfl, rfl, rfl⟩
      ⟨hheld.agrees.2.1, hheld.agrees.2.2.1, rfl⟩ (fun _ => ⟨rfl, .inl rfl, fun hd => by cases hd⟩)
      (fun c hc => by cases hc) fun _ _ hne => absurd rfl hne⟩

theorem restoreFolder_safe (hu : (w.db.users.get userId).isSome) :
    Safe contract t (restoreFolder userId id) w := by
  unfold restoreFolder
  refine wp_transaction ?_
  rw [After, wp_bind]
  refine wp_lockOwner hu fun w₁ _ h₁ _ hlock => ?_
  rw [wp_bind]
  refine wp_lockFolderAndMirror hlock (fun w₂ folder mirrorId mirror h₂ hheld => ?_)
  dsimp only
  rw [wp_bind]
  refine wp_activeParent fun w₃ parentId h₃ hparent => ?_
  rw [wp_bind]
  -- The mirror follows its folder to the root, and keeps its parent otherwise.
  have hmirror : (if parentId = folder.parentId then mirror.parentId else none) = parentId := by
    split_ifs with hp
    · rw [hheld.agrees.2.2.1, hp]
    · exact (hparent.resolve_left hp).symm
  have houtside : ∀ {w' : World} p, parentId = some p → parentId ≠ folder.parentId →
      ¬ w'.db.Below id p := fun p hp hne =>
    absurd (hp.symm.trans (hparent.resolve_left hne)) (Option.some_ne_none p)
  refine wp_allocateWhen (fun w₄ c k₄ _ hc => ?_) fun hlive => ?_
  · refine .intro fun w₅ h₅ _ _ => ⟨folder, mirror,
      (hheld.keeps (h₃.keeps.trans (k₄.trans h₅.keeps))).setFolder rfl ⟨rfl, rfl, rfl, rfl, rfl, rfl⟩
        ⟨rfl, hmirror, rfl⟩ (fun hnone => absurd hnone (Option.some_ne_none c)) (fun c' hc' => ?_) houtside⟩
    cases hc'
    have := hc.rely h₅
    rwa [← hheld.owner] at this
  · exact .intro fun w₅ h₅ _ _ => ⟨folder, mirror,
      (hheld.keeps (h₃.trans h₅).keeps).setFolder rfl ⟨rfl, rfl, rfl, rfl, rfl, rfl⟩
        ⟨hheld.agrees.2.1, hmirror, rfl⟩ (fun _ => ⟨rfl, hparent, fun _ => hlive⟩) (fun c hc => by cases hc)
        houtside⟩

theorem moveFile_safe (hu : (w.db.users.get userId).isSome) :
    Safe contract t (moveFile userId id parentId) w := by
  unfold moveFile
  rw [Safe, wp_bind]
  refine wp_assertFolderOwnership fun w₁ h₁ => ?_
  rw [wp_bind]
  refine wp_findOne fun w₂ current h₂ _ _ _ => ?_
  have hu₂ := (h₁.trans h₂).keeps.grows.users userId hu
  split_ifs
  · rw [wp_bind]
    exact wp_require fun folderId _ => updateFolder_safe hu₂
  · exact changeFilePlacement_safe hu₂

/-! ## Trashing files -/

theorem removeFile_safe : Safe contract t (removeFile userId id) w := by
  unfold removeFile
  rw [Safe, wp_bind]
  refine wp_findOne fun w₁ file h₁ hi₁ hfile _ => ?_
  rw [wp_bind]
  refine wp_assert fun hplain => ?_
  replace hplain : file.isFolder = false := by simpa using hplain
  rw [wp_bind]
  refine wp_query fun w₂ h₂ _ => wp_transaction ?_
  -- Whatever row the file has later is of the same object.
  have hseen : ∀ w', Keeps t w₁ w' → ∃ r, w'.seen id = some r ∧ file.SameObject r :=
    fun w' hk => hk.seen id file (hi₁.seen id file hfile)
  -- The parent that the stale entity names keeps its owner while it exists.
  have hparent : ∀ (w' : World) p q, Grows w₁.db w'.db → file.parentId = some p →
      w'.db.folders.get p = some q → q.userId = file.userId := by
    intro w' p q hg hp hq
    obtain ⟨q₁, hq₁, hu₁⟩ := hi₁.intact.file_parent id file p hfile hp
    obtain ⟨q₁', hq₁', hu⟩ := hg.folders.old p q (Table.lt_bound hq₁) hq
    cases hq₁.symm.trans hq₁'
    exact hu.trans hu₁
  rw [After, wp_bind]
  refine wp_query fun w₃ h₃ _ => ?_
  cases w₃.db.files.get id with
  | none =>
    refine .intro fun w₄ h₄ _ _ =>
      have hk := ((h₂.trans h₃).trans h₄).keeps
      { plain := ⟨hplain, hi₁.intact.plain id file hfile hplain⟩
        trashed := rfl
        parent := fun p q => hparent w₄ p q hk.grows
        seen := by
          obtain ⟨r, hr, hs⟩ := hseen w₄ hk
          exact ⟨r, hr, hs.symm.trans ⟨rfl, rfl, rfl, rfl, rfl, rfl⟩⟩ }
  | some row =>
    dsimp only
    rw [wp_bind]
    refine wp_lockFile fun w₄ current h₄ hi₄ hrow hl => ?_
    cases current with
    | none => exact .none
    | some old =>
      have hsame : file.SameObject old := by
        obtain ⟨r, hr, hs⟩ := hseen w₄ ((h₂.trans h₃).trans h₄).keeps
        cases hr.symm.trans (hi₄.seen id old hrow)
        exact hs
      refine .intro fun w₅ h₅ _ _ => ⟨old,
        { row := h₅.keeps.files id old (hl rfl) hrow
          locked := h₅.keeps.locks _ (hl rfl)
          plain := hsame.isFolder.trans hplain
          trashes := fun b hb => ?_
          parent := fun p q hp hq => ?_ }⟩
      · simp only [File.diff] at hb
        split_ifs at hb
        exact (Option.some.inj hb).symm
      · simp only [File.diff] at hp
        split_ifs at hp
        rw [hsame.userId]
        exact hparent w₅ p q (((h₂.trans h₃).trans h₄).trans h₅).keeps.grows (Option.some.inj hp) hq

/-! ## Permanent deletion -/

theorem deleteFilePermanently_safe (hu : (w.db.users.get userId).isSome) :
    Safe contract t (deleteFilePermanently userId id) w := by
  unfold deleteFilePermanently
  refine wp_transaction ?_
  rw [After, wp_bind]
  refine wp_lockOwner hu fun w₁ _ h₁ _ hlock => ?_
  rw [wp_bind]
  refine wp_query fun w₂ h₂ _ => ?_
  rw [wp_bind]
  refine wp_require fun file hfile => ?_
  obtain ⟨hfile, howner⟩ := Option.filter_eq_some_iff.mp hfile
  replace howner : file.userId = userId := of_decide_eq_true howner
  rw [wp_bind]
  refine wp_parseDatabaseSize fun bytes hbytes => ?_
  rw [wp_bind]
  refine wp_decrementStorageUsed (h₂.keeps.locks _ hlock) fun w₃ h₃ hrefund => ?_
  rw [wp_bind]
  refine wp_lockFile fun w₄ row h₄ _ hrow hl => ?_
  -- The user lock keeps the file from being deleted, and its size never changes.
  obtain ⟨old, hold, hsame⟩ :=
    (h₃.trans h₄).keeps.objects userId (h₂.keeps.locks _ hlock) id file howner hfile
  have hrow' : row = some old := hrow.symm.trans hold
  have hlocked : w₄.locks (.file id) = some t := hl (by rw [hrow']; rfl)
  exact .intro fun w₅ h₅ _ _ => ⟨old,
    { row := h₅.keeps.files id old hlocked hold
      owner := hsame.userId.trans howner
      size := hsame.size.trans (by exact_mod_cast hbytes.symm)
      locked := h₅.keeps.locks _ hlocked
      refunded := hrefund.keeps (h₄.trans h₅).keeps }⟩

/-- The row is locked, and as it is in the snapshot. -/
def Pinned (t : ℕ) (w : World) (view : Db) (k : LockKey) : Prop :=
  ∀ x, view.row k = some x → w.locks k = some t ∧ w.db.row k = some x

section Tree

variable {view : Db} {k : LockKey} {w' : World}

theorem Pinned.keeps (h : Pinned t w view k) (hk : Keeps t w w') : Pinned t w' view k := by
  intro x hx
  obtain ⟨hl, hrow⟩ := h x hx
  exact ⟨hk.locks _ hl, hk.rows k x hl hrow⟩

theorem Pinned.user {u : ℕ} {r : User} (h : Pinned t w view (.user u))
    (hr : view.users.get u = some r) :
    w.locks (.user u) = some t ∧ w.db.users.get u = some r := by
  obtain ⟨hl, hrow⟩ := h _ (row_user.mpr hr)
  exact ⟨hl, row_user.mp hrow⟩

theorem Pinned.folder {f : ℕ} {r : Folder} (h : Pinned t w view (.folder f))
    (hr : view.folders.get f = some r) :
    w.locks (.folder f) = some t ∧ w.db.folders.get f = some r := by
  obtain ⟨hl, hrow⟩ := h _ (row_folder.mpr hr)
  exact ⟨hl, row_folder.mp hrow⟩

theorem Pinned.file {i : ℕ} {r : File} (h : Pinned t w view (.file i))
    (hr : view.files.get i = some r) :
    w.locks (.file i) = some t ∧ w.db.files.get i = some r := by
  obtain ⟨hl, hrow⟩ := h _ (row_file.mpr hr)
  exact ⟨hl, row_file.mp hrow⟩

theorem wp_lockUnchanged {Q : Unit → World → Prop}
    (h : ∀ w', Rely t w w' → Pinned t w' view k → Q () w') :
    After t (lockUnchanged view k) Q w := by
  unfold lockUnchanged
  rw [After, wp_bind]
  refine wp_selectForUpdate fun w₁ h₁ _ hl => wp_assert fun hr => h w₁ h₁ fun x hx => ?_
  have hrow : w₁.db.row k = some x := (of_decide_eq_true hr).trans hx
  exact ⟨hl (by rw [hrow]; rfl), hrow⟩

theorem wp_lockAllUnchanged {Q : Unit → World → Prop} : ∀ (ks : List LockKey) {w : World},
    (∀ w', Rely t w w' → (∀ k ∈ ks, Pinned t w' view k) → Q () w') →
      After t (lockAllUnchanged view ks) Q w
  | [], w, h => h w (.refl t w) fun _ hk => nomatch hk
  | k :: ks, w, h => by
    unfold lockAllUnchanged
    rw [After, wp_bind]
    refine wp_lockUnchanged fun w₁ h₁ hpin => ?_
    refine wp_lockAllUnchanged ks fun w₂ h₂ hpins => h w₂ (h₁.trans h₂) fun k' hk' => ?_
    rcases List.mem_cons.mp hk' with rfl | hk'
    · exact hpin.keeps h₂.keeps
    · exact hpins k' hk'

theorem wp_sumFileSizes {ids : List ℕ} {Q : ℕ → World → Prop}
    (h : Q ((ids.map fun i => (view.files.get i).elim 0 fun r => r.size).sum) w) :
    After t (sumFileSizes view ids) Q w :=
  wp_parseDatabaseSize fun m hm => by
    have : m = _ := Int.ofNat_inj.mp hm
    rwa [this]

/-- The rows of a subtree, all pinned, can be deleted together. -/
theorem deleteTreeOk_of_pinned {folderIds files mirrors : List ℕ} {bytes : ℕ}
    (hfolders : ∀ f ∈ folderIds, Pinned t w view (.folder f) ∧
      ∃ r, view.folders.get f = some r ∧ r.userId = userId)
    (hfiles : ∀ i ∈ files, Pinned t w view (.file i) ∧
      ∃ r, view.files.get i = some r ∧ r.userId = userId ∧ r.isFolder = false)
    (hmirrors : ∀ i ∈ mirrors, Pinned t w view (.file i))
    (hmirrors_eq : mirrors = view.mirrorsOf userId folderIds)
    (hmirrored : view.mirrored folderIds mirrors = true) (hnodup : files.Nodup)
    (hbytes : bytes = (files.map fun i => (view.files.get i).elim 0 fun r => r.size).sum)
    (hrefund : Refunded t w userId bytes)
    (hfc : ∀ f r, view.folders.get f = some r → r.userId = userId →
      (∃ p ∈ folderIds, r.parentId = some p) → f ∈ folderIds)
    (hic : ∀ i r, view.files.get i = some r → r.userId = userId → r.isFolder = false →
      (∃ p ∈ folderIds, r.parentId = some p) → i ∈ files) :
    DeleteTreeOk t w view userId folderIds files mirrors bytes := by
  have hmirror : ∀ i ∈ mirrors, ∃ r f, view.files.get i = some r ∧ r.userId = userId ∧
      r.isFolder = true ∧ r.folderId = some f ∧ f ∈ folderIds := by
    intro i hi
    rw [hmirrors_eq] at hi
    obtain ⟨r, hr, hp⟩ := Table.mem_select.mp hi
    simp only [Bool.and_eq_true, decide_eq_true_eq, Option.any_eq_true] at hp
    obtain ⟨⟨hu, hf⟩, f, hid, hm⟩ := hp
    exact ⟨r, f, hr, hu, hf, hid, hm⟩
  refine
    { folders_row := fun f hf => ?_
      files_row := fun i hi => ?_
      mirrors_row := fun i hi => ?_
      mirrored := fun f hf => ?_
      nodup := ?_
      bytes_eq := ?_
      refunded := hrefund
      folders_closed := hfc
      files_closed := hic }
  · obtain ⟨hpin, r, hr, hu⟩ := hfolders f hf
    exact ⟨(hpin.folder hr).1, r, (hpin.folder hr).2, hu⟩
  · obtain ⟨hpin, r, hr, hu, hplain⟩ := hfiles i hi
    exact ⟨(hpin.file hr).1, r, (hpin.file hr).2, hu, hplain⟩
  · obtain ⟨r, f, hr, hu, hf, hid, hm⟩ := hmirror i hi
    have hpin := (hmirrors i hi).file hr
    exact ⟨hpin.1, r, f, hpin.2, hu, hf, hid, hm⟩
  · simp only [Db.mirrored, Bool.and_eq_true, List.all_eq_true, List.any_eq_true,
      Option.any_eq_true, decide_eq_true_eq] at hmirrored
    obtain ⟨i, hi, r, hr, hid⟩ := hmirrored.2 f hf
    exact ⟨i, hi, r, ((hmirrors i hi).file hr).2, hid⟩
  · refine List.Nodup.append hnodup (hmirrors_eq ▸ Table.nodup_select ..) fun i hi hi' => ?_
    obtain ⟨-, r, hr, -, hf⟩ := hfiles i hi
    obtain ⟨r', f, hr', -, hf', -⟩ := hmirror i hi'
    cases hr.symm.trans hr'
    rw [hf] at hf'
    cases hf'
  · rw [hbytes]
    refine congrArg List.sum (List.map_congr_left fun i hi => ?_)
    obtain ⟨hpin, r, hr, -⟩ := hfiles i hi
    rw [hr, (hpin.file hr).2]

theorem wp_deleteSubtrees {folderIds files : List ℕ}
    (hu : Pinned t w view (.user userId)) (huser : (view.users.get userId).isSome)
    (hfolders : ∀ f ∈ folderIds, ∃ r, view.folders.get f = some r ∧ r.userId = userId)
    (hfiles : ∀ i ∈ files, ∃ r, view.files.get i = some r ∧ r.userId = userId ∧
      r.isFolder = false)
    (hnodup : files.Nodup)
    (hfc : ∀ f r, view.folders.get f = some r → r.userId = userId →
      (∃ p ∈ folderIds, r.parentId = some p) → f ∈ folderIds)
    (hic : ∀ i r, view.files.get i = some r → r.userId = userId → r.isFolder = false →
      (∃ p ∈ folderIds, r.parentId = some p) → i ∈ files) :
    After t (deleteSubtrees view userId folderIds files) (fun r w' => Ready t r.1 w') w := by
  obtain ⟨r, hr⟩ := Option.isSome_iff_exists.mp huser
  unfold deleteSubtrees
  rw [After, wp_bind]
  refine wp_lockAllUnchanged _ fun w₁ h₁ hpin₁ => ?_
  rw [wp_bind]
  refine wp_lockAllUnchanged _ fun w₂ h₂ hpin₂ => ?_
  rw [wp_bind]
  refine wp_lockAllUnchanged _ fun w₃ h₃ hpin₃ => ?_
  rw [wp_bind]
  refine wp_assert fun hmirrored => ?_
  rw [wp_bind]
  refine wp_sumFileSizes ?_
  rw [wp_bind]
  refine wp_decrementStorageUsed (((h₁.trans h₂).trans h₃).keeps.locks _ (hu.user hr).1)
    (fun w₄ h₄ hrefund => ?_)
  refine .intro fun w₅ h₅ _ _ => ?_
  have hk := (h₄.trans h₅).keeps
  have hk₁ := (h₂.trans h₃).keeps.trans hk
  exact deleteTreeOk_of_pinned
    (fun f hf => ⟨(hpin₁ _ (List.mem_map_of_mem hf)).keeps hk₁, hfolders f hf⟩)
    (fun i hi => ⟨(hpin₂ _ (List.mem_map_of_mem hi)).keeps (h₃.keeps.trans hk), hfiles i hi⟩)
    (fun i hi => (hpin₃ _ (List.mem_map_of_mem hi)).keeps hk) rfl hmirrored hnodup rfl
    (hrefund.keeps h₅.keeps) hfc hic

/-- The files that a deletion selects. -/
theorem mem_selectFiles {p : File → Bool} {i : ℕ} :
    i ∈ view.files.select (fun _ r => r.userId = userId && !r.isFolder && p r) ↔
      ∃ r, view.files.get i = some r ∧ (r.userId = userId ∧ r.isFolder = false) ∧ p r = true := by
  simp only [Table.mem_select, Bool.and_eq_true, decide_eq_true_eq, Bool.not_eq_true']

theorem deleteFolderPermanently_safe (hu : (w.db.users.get userId).isSome) :
    Safe contract t (deleteFolderPermanently userId id) w := by
  unfold deleteFolderPermanently
  refine wp_transaction ?_
  rw [After, wp_bind]
  refine wp_query fun w₁ h₁ _ => ?_
  rw [wp_bind]
  refine wp_lockUnchanged fun w₂ h₂ hpin => ?_
  rw [wp_bind]
  refine wp_assert fun _ => ?_
  rw [wp_bind]
  refine wp_lockUnchanged fun w₃ h₃ _ => ?_
  refine wp_deleteSubtrees (hpin.keeps h₃.keeps) (h₁.keeps.grows.users userId hu)
    (fun f hf => ?_) (fun i hi => ?_) (Table.nodup_select ..) (fun f r hr hru hp => ?_)
    fun i r hr hru hf hp => ?_
  · obtain ⟨r, hr, h | h⟩ := Db.of_mem_descendants hf
    · simp only [Bool.and_eq_true, decide_eq_true_eq] at h
      exact ⟨r, hr, h.2⟩
    · exact ⟨r, hr, of_decide_eq_true h⟩
  · obtain ⟨r, hr, hri, -⟩ := mem_selectFiles.mp hi
    exact ⟨r, hr, hri⟩
  · obtain ⟨p, hm, hp⟩ := hp
    exact Db.mem_descendants_of_parent hr (decide_eq_true hru) hp hm
  · obtain ⟨p, hm, hp⟩ := hp
    exact mem_selectFiles.mpr ⟨r, hr, ⟨hru, hf⟩, by simp only [hp, Option.any_some,
      decide_eq_true hm]⟩

theorem emptyTrash_safe (hu : (w.db.users.get userId).isSome) :
    Safe contract t (emptyTrash userId) w := by
  unfold emptyTrash
  refine wp_transaction ?_
  rw [After, wp_bind]
  refine wp_query fun w₁ h₁ _ => ?_
  rw [wp_bind]
  refine wp_lockUnchanged fun w₂ h₂ hpin => ?_
  refine wp_deleteSubtrees hpin (h₁.keeps.grows.users userId hu)
    (fun f hf => ?_) (fun i hi => ?_) (Table.nodup_select ..) (fun f r hr hru hp => ?_)
    fun i r hr hru hf hp => ?_
  · obtain ⟨r, hr, h | h⟩ := Db.of_mem_descendants hf
    · simp only [Bool.and_eq_true, decide_eq_true_eq] at h
      exact ⟨r, hr, h.1⟩
    · exact ⟨r, hr, of_decide_eq_true h⟩
  · obtain ⟨r, hr, hri, -⟩ := mem_selectFiles.mp hi
    exact ⟨r, hr, hri⟩
  · obtain ⟨p, hm, hp⟩ := hp
    exact Db.mem_descendants_of_parent hr (decide_eq_true hru) hp hm
  · obtain ⟨p, hm, hp⟩ := hp
    exact mem_selectFiles.mpr ⟨r, hr, ⟨hru, hf⟩, by simp only [hp, Option.any_some,
      decide_eq_true hm, Bool.or_true]⟩

end Tree

end

end HomeCloud
