import HomeCloud.System

/-!
# Live names are unique

No two live entries of a directory have the same name, as long as names hold no lone surrogates, no
two transactions choose a name in the same root directory at once, and no row comes into a directory
under a name that was not chosen there.

* `OneEntry`: one entry of a directory is made, renamed or moved under a free name.
* `ChoosesNames`: the condition on the statements.
* `Reserves`: what open transactions know of the names they have chosen.
* `NamesUnique.effect`: one step; **`names_unique_of_chooses`**: every run.
-/

namespace HomeCloud

open Concurrent

/-! ## One entry -/

/-- All entries but one are named as before, and that one is too or has a name that no other had. -/
structure OneEntry (db db' : Db) (e₀ : Entry) : Prop where
  others : ∀ k e n, e ≠ e₀ → db'.Named k e n → db.Named k e n
  free : ∀ k n, db'.Named k e₀ n → db.Named k e₀ n ∨ ∀ e, e ≠ e₀ → ¬ db.Named k e n

section

variable {db db' : Db} {e₀ : Entry}

theorem OneEntry.namesUnique (h : OneEntry db db' e₀) (hu : db.NamesUnique) : db'.NamesUnique := by
  intro k e e' n he he'
  by_cases h1 : e = e₀
  · by_cases h2 : e' = e₀
    · rw [h1, h2]
    · have hold := h.others k e' n h2 he'
      rcases h.free k n (h1 ▸ he) with hn | hn
      · exact h1 ▸ hu k e₀ e' n hn hold
      · exact absurd hold (hn e' h2)
  · have hold := h.others k e n h1 he
    by_cases h2 : e' = e₀
    · rcases h.free k n (h2 ▸ he') with hn | hn
      · exact h2 ▸ hu k e e₀ n hold hn
      · exact absurd hold (hn e h1)
    · exact hu k e e' n hold (h.others k e' n h2 he')

/-- Names that were there before are as unique as they were. -/
theorem namesUnique_of_subset (hu : db.NamesUnique)
    (h : ∀ k e n, db'.Named k e n → db.Named k e n) : db'.NamesUnique :=
  fun k e e' n he he' => hu k e e' n (h k e n he) (h k e' n he')

/-- Writing one file row. -/
theorem OneEntry.putFile {i : ℕ} {file : File} (hf : ∀ k n, file.shown = some (k, n) →
      db.Named k (.file i) n ∨ ∀ e, e ≠ .file i → ¬ db.Named k e n) :
    OneEntry db { db with files := db.files.put i file } (.file i) where
  others k e n he hn := by
    cases e with
    | folder f => exact hn
    | file j =>
      have hne : j ≠ i := fun h => he (congrArg Entry.file h)
      simpa only [Db.Named, Db.shown, shown_put_file, if_neg hne] using hn
  free k n hn := by
    simp only [Db.Named, Db.shown, shown_put_file, if_pos] at hn
    exact hf k n hn

/-- Writing one folder row and the row of a mirror. -/
theorem OneEntry.putFolder {id mirrorId : ℕ} {folder : Folder} {mirror : File}
    (hm : mirror.isFolder = true) (hf : ∀ k n, folder.shown = some (k, n) →
      db.Named k (.folder id) n ∨ ∀ e, e ≠ .folder id → ¬ db.Named k e n) :
    OneEntry db { db with
      folders := db.folders.put id folder
      files := db.files.put mirrorId mirror } (.folder id) where
  others k e n he hn := by
    cases e with
    | folder f =>
      have hne : f ≠ id := fun h => he (congrArg Entry.folder h)
      simpa only [Db.Named, Db.shown, shown_put_folder, if_neg hne] using hn
    | file i =>
      simp only [Db.Named, Db.shown, shown_put_file] at hn ⊢
      split_ifs at hn
      · rw [File.shown_of_isFolder hm] at hn
        cases hn
      · exact hn
  free k n hn := by
    simp only [Db.Named, Db.shown, shown_put_folder, if_pos] at hn
    exact hf k n hn

end

/-! ## Chosen names -/

/-- The condition on the statements: names are chosen without lone surrogates, and in a root
directory by one transaction at a time; a folder is restored without a choice only where its name is
free; and the save of a trashed file changes no live entry. -/
def ChoosesNames : Instr → ℕ → World → Prop
  | .names q, t, w =>
    (WellFormed q.requested ∧
      (q.requested ∈ w.db.occupied q → ∀ i, WellFormed (candidate q.kind q.requested i))) ∧
    (q.slot.parentId = none → ∀ t' c, t' ≠ t → w.window t' = some c → c.slot ≠ q.slot)
  | .commit (.files (.setFolder id _ folder _ none)), t, w =>
    ∀ k ∈ enters (w.db.shown (.folder id)) folder.shown,
      (∀ e, e ≠ .folder id → ¬ w.db.Named k e folder.name) ∧
        ∀ t' c, t' ≠ t → w.window t' = some c → c.slot ≠ k
  | .commit (.files (.trashFile id patch)), _, w => (FilesTx.trashFile id patch).entered w.db = []
  | _, _, _ => True

/-- An open transaction that has chosen a name has it reserved, and the name is stored as it is. -/
def Reserves (w : World) : Prop :=
  ∀ t c, w.window t = some c → w.reserved c.slot = some t ∧ WellFormed c.chosen

section

variable {t : ℕ} {w w' : World} {k : Slot} {name : DbText} {c : NameChoice} {exempt : List Entry}

/-- A chosen name is free. -/
theorem Chosen.free (h : Chosen t w k name c exempt) (hw : Reserves w) :
    ∀ e, e ∉ exempt → ¬ w.db.Named k e name := by
  intro e he hn
  obtain ⟨hres, hwf⟩ := hw t c h.window
  have hval : name.val = c.chosen := by
    rw [h.name]
    exact DbText.ofJs_val hwf
  exact h.fresh (h.slot ▸ hres) e name he hn hval

/-- No other transaction has chosen a name in the same directory. -/
theorem Chosen.alone (h : Chosen t w k name c exempt) (hw : Reserves w) {t' : ℕ} {c' : NameChoice}
    (hc' : w.window t' = some c') (hne : t' ≠ t) : c'.slot ≠ k := by
  intro hk
  have h1 := (hw t c h.window).1
  have h2 := (hw t' c' hc').1
  rw [h.slot, ← hk, h2] at h1
  exact hne (Option.some.inj h1)

/-- The name that a query chooses is stored as it is. -/
theorem NameQuery.choose_wellFormed {q : NameQuery} {db : Db} (hc : q.choose db = some c)
    (hr : WellFormed q.requested)
    (hv : q.requested ∈ db.occupied q → ∀ i, WellFormed (candidate q.kind q.requested i)) :
    WellFormed c.chosen := by
  obtain ⟨n, hn, rfl⟩ := Option.map_eq_some_iff.mp hc
  rcases chooseName_eq hn with rfl | ⟨ho, i, -, -, rfl⟩
  · exact hr
  · exact hv ho i

/-- Choosing a name in a directory where no other transaction has chosen one. -/
theorem Reserves.readNames (h : Reserves w) (hi : Inv w) {q : NameQuery}
    (hp : (Instr.names q).Pre t w) (hc : ChoosesNames (.names q) t w) :
    Reserves (w.readNames q t) := by
  intro t' c hw
  by_cases ht : t' = t
  · subst ht
    have hchoose : q.choose w.db = some c := by simpa only [World.readNames, if_pos] using hw
    obtain ⟨n, -, hslot⟩ := Option.map_eq_some_iff.mp hchoose
    have hk : c.slot = q.slot := by rw [← hslot]
    exact ⟨if_pos hk, NameQuery.choose_wellFormed hchoose hc.1.1 hc.1.2⟩
  · have hw' : w.window t' = some c := by simpa only [World.readNames, if_neg ht] using hw
    have hk : c.slot ≠ q.slot := by
      intro hk
      cases hp' : q.slot.parentId with
      | none => exact hc.2 hp' t' c ht hw' hk
      | some p =>
        -- Both have the parent folder locked.
        have h1 := hi.window t' c p hw' (hk ▸ hp')
        have h2 := hp p hp'
        exact ht (Option.some.inj (h1.symm.trans h2))
    exact ⟨(if_neg hk).trans (h t' c hw').1, (h t' c hw').2⟩

/-- A commit leaves the names that others have chosen reserved when none of them is in a directory
that it enters. -/
theorem Reserves.commit (h : Reserves w) {tx : Tx}
    (halone : ∀ k ∈ tx.entered w.db, ∀ t' c, t' ≠ t → w.window t' = some c → c.slot ≠ k) :
    Reserves ((w.write tx t).release t) := by
  intro t' c hw
  by_cases ht : t' = t
  · simp only [World.release, if_pos ht] at hw
    cases hw
  · have hw' : w.window t' = some c := (World.release_window_of_ne ht).symm.trans hw
    have hk : c.slot ∉ tx.entered w.db := fun hm => halone c.slot hm t' c ht hw' rfl
    exact ⟨(if_neg hk).trans (h t' c hw').1, (h t' c hw').2⟩

end

/-! ## Commits -/

section

variable {t : ℕ} {w : World} {tx : Tx}

/-- What a commit does to the names: others have chosen none in the directories it enters, and names
stay unique. -/
structure KeepsNames (t : ℕ) (w : World) (tx : Tx) : Prop where
  unique : (tx.apply w.db).NamesUnique
  alone : ∀ k ∈ tx.entered w.db, ∀ t' c, t' ≠ t → w.window t' = some c → c.slot ≠ k

/-- A commit that changes no directory. -/
theorem KeepsNames.of_eq (hu : w.db.NamesUnique) (hfo : (tx.apply w.db).folders = w.db.folders)
    (hfi : (tx.apply w.db).files = w.db.files) (he : tx.entered w.db = []) : KeepsNames t w tx where
  unique := namesUnique_of_subset hu fun k e n hn => by
    cases e with
    | file i => simpa only [Db.Named, Db.shown, hfi] using hn
    | folder f => simpa only [Db.Named, Db.shown, hfo] using hn
  alone k hk := by
    rw [he] at hk
    cases hk

/-- A new file under a chosen name. -/
theorem KeepsNames.addFile {file : File} {c : NameChoice} (hu : w.db.NamesUnique) (hr : Reserves w)
    (hok : AddFileOk t w file c) (hfo : (tx.apply w.db).folders = w.db.folders)
    (hfi : (tx.apply w.db).files = w.db.files.insert file)
    (he : tx.entered w.db = enters none file.shown) : KeepsNames t w tx where
  unique := by
    have hone : OneEntry w.db { w.db with files := w.db.files.put w.db.files.bound file }
        (.file w.db.files.bound) := .putFile fun k n hs => by
      obtain ⟨-, -, hk, hn⟩ := File.shown_eq_some hs
      subst hk hn
      exact .inr fun e _ => hok.chosen.free hr e List.not_mem_nil
    refine namesUnique_of_subset (hone.namesUnique hu) fun k e n hn => ?_
    cases e with
    | file i =>
      simp only [Db.Named, Db.shown, hfi] at hn
      exact hn
    | folder f =>
      simp only [Db.Named, Db.shown, hfo] at hn
      exact hn
  alone k hk t' c' hne hc' := by
    rw [he] at hk
    obtain ⟨n, hs, -⟩ := eq_of_mem_enters hk
    exact (File.shown_eq_some hs).2.2.1 ▸ hok.chosen.alone hr hc' hne

theorem KeepsNames.addFolder {folder : Folder} {receipt : Option PublicShareOperation}
    {c : NameChoice} (hu : w.db.NamesUnique) (hr : Reserves w) (hok : AddFolderOk t w folder c) :
    KeepsNames t w (.files (.addFolder folder receipt c)) where
  unique := by
    have hone : OneEntry w.db
        { w.db with
          folders := w.db.folders.put w.db.folders.bound folder
          files := w.db.files.put w.db.files.bound (folder.mirror w.db.folders.bound) }
        (.folder w.db.folders.bound) := .putFolder rfl fun k n hs => by
      obtain ⟨-, hk, hn⟩ := Folder.shown_eq_some hs
      subst hk hn
      exact .inr fun e _ => hok.chosen.free hr e List.not_mem_nil
    exact hone.namesUnique hu
  alone k hk t' c' hne hc' := by
    obtain ⟨n, hs, -⟩ := eq_of_mem_enters hk
    exact (Folder.shown_eq_some hs).2.1 ▸ hok.chosen.alone hr hc' hne

theorem KeepsNames.placeFile {id : ℕ} {file old : File} {choice : Option NameChoice}
    (hu : w.db.NamesUnique) (hr : Reserves w) (hok : PlaceFileOk t w id file choice old) :
    KeepsNames t w (.files (.placeFile id file choice)) := by
  cases choice with
  | none =>
    -- Nothing has changed in the directory.
    obtain ⟨hname, hparent, hdeleted⟩ := hok.kept rfl
    have hshown : w.db.shown (.file id) = file.shown := by
      simp only [Db.shown, hok.row, Option.bind_some, File.shown, File.slot, hname, hparent,
        hdeleted, hok.same.userId, hok.same.isFolder]
    refine ⟨(OneEntry.putFile fun k n hs => .inl (hshown.trans hs)).namesUnique hu, fun k hk => ?_⟩
    obtain ⟨n, hs, hne⟩ := eq_of_mem_enters hk
    exact absurd hshown hne
  | some c =>
    have hc := hok.chosen c rfl
    refine ⟨(OneEntry.putFile fun k n hs => ?_).namesUnique hu, fun k hk t' c' hne hc' => ?_⟩
    · obtain ⟨-, -, hk, hn⟩ := File.shown_eq_some hs
      subst hk hn
      exact .inr fun e he => hc.free hr e (by simpa using he)
    · obtain ⟨n, hs, -⟩ := eq_of_mem_enters hk
      exact (File.shown_eq_some hs).2.2.1 ▸ hc.alone hr hc' hne

/-- A mirror is never named. -/
theorem not_named_mirror {i : ℕ} {m : File} (hm : w.db.files.get i = some m)
    (hf : m.isFolder = true) (k : Slot) (n : DbText) : ¬ w.db.Named k (.file i) n := by
  intro hn
  simp only [Db.Named, Db.shown, hm, Option.bind_some, File.shown_of_isFolder hf] at hn
  cases hn

theorem KeepsNames.setFolder {id mirrorId : ℕ} {folder old : Folder} {mirror oldMirror : File}
    {choice : Option NameChoice} (hu : w.db.NamesUnique) (hr : Reserves w)
    (hok : SetFolderOk t w id mirrorId folder mirror choice old oldMirror)
    (hc : ChoosesNames (.commit (.files (.setFolder id mirrorId folder mirror choice))) t w) :
    KeepsNames t w (.files (.setFolder id mirrorId folder mirror choice)) := by
  have hmirror : mirror.isFolder = true := hok.same.isFolder.trans hok.isMirror.1
  cases choice with
  | none =>
    refine ⟨(OneEntry.putFolder hmirror fun k n hs => ?_).namesUnique hu, fun k hk => (hc k hk).2⟩
    rcases mem_enters (w.db.shown (.folder id)) hs with hsame | hent
    · exact .inl hsame
    · obtain ⟨-, -, hn⟩ := Folder.shown_eq_some hs
      exact .inr (hn ▸ (hc k hent).1)
  | some c =>
    have hch := hok.chosen c rfl
    refine ⟨(OneEntry.putFolder hmirror fun k n hs => ?_).namesUnique hu,
      fun k hk t' c' hne hc' => ?_⟩
    · obtain ⟨-, hk, hn⟩ := Folder.shown_eq_some hs
      subst hk hn
      refine .inr fun e he => ?_
      by_cases hem : e = .file mirrorId
      · rw [hem]
        exact not_named_mirror hok.mirrorRow hok.isMirror.1 _ _
      · exact hch.free hr e (by simp [he, hem])
    · obtain ⟨n, hs, -⟩ := eq_of_mem_enters hk
      exact (Folder.shown_eq_some hs).2.1 ▸ hch.alone hr hc' hne

theorem KeepsNames.trashFile {id : ℕ} {patch : FilePatch} {old : File} (hu : w.db.NamesUnique)
    (hok : TrashFileOk t w id patch old)
    (hc : ChoosesNames (.commit (.files (.trashFile id patch))) t w) :
    KeepsNames t w (.files (.trashFile id patch)) := by
  have happ : (FilesTx.trashFile id patch).apply w.db =
      { w.db with files := w.db.files.put id (patch.apply old) } := by
    simp only [FilesTx.apply, hok.row]
  have hentered : enters (w.db.shown (.file id)) (patch.apply old).shown = [] := by
    have hcond : (FilesTx.trashFile id patch).entered w.db = [] := hc
    simpa only [FilesTx.entered, hok.row, Option.bind_some] using hcond
  refine ⟨?_, fun k hk => ?_⟩
  · simp only [Tx.apply]
    rw [happ]
    refine (OneEntry.putFile fun k n hs => ?_).namesUnique hu
    rcases mem_enters (w.db.shown (.file id)) hs with hsame | hent
    · exact .inl hsame
    · rw [hentered] at hent
      cases hent
  · have hcond : (FilesTx.trashFile id patch).entered w.db = [] := hc
    change k ∈ (FilesTx.trashFile id patch).entered w.db at hk
    rw [hcond] at hk
    cases hk

/-- **A commit keeps names unique**, and enters no directory where another transaction has chosen a
name. -/
theorem KeepsNames.commit (hu : w.db.NamesUnique) (hr : Reserves w)
    (hc : Commits ChoosesNames t w tx) : KeepsNames t w tx := by
  have hok := hc.ok
  have ha : tx.constraints w.db = true := (Bool.and_eq_true_iff.mp hc.allowed).1
  cases tx with
  | none => exact .of_eq hu rfl rfl rfl
  | auth tx => cases tx <;> exact .of_eq hu rfl rfl rfl
  | sharing tx => cases tx <;> exact .of_eq hu rfl rfl rfl
  | uploads tx =>
    cases tx with
    | publish id session file c =>
      obtain ⟨old, attempt, ho⟩ := hok
      exact .addFile hu hr ho.added rfl rfl rfl
    | _ => exact .of_eq hu rfl rfl rfl
  | journal tx =>
    cases tx with
    | commit id sessionId file c =>
      obtain ⟨-, op, q, ho⟩ := hok
      exact .addFile hu hr ho.added rfl rfl rfl
    | _ => exact .of_eq hu rfl rfl rfl
  | files tx =>
    cases tx with
    | addFile file c => exact .addFile hu hr hok.1 rfl rfl rfl
    | addFolder folder receipt c => exact .addFolder hu hr hok.1
    | placeFile id file choice =>
      obtain ⟨old, ho⟩ := hok
      exact .placeFile hu hr ho
    | setFolder id mirrorId folder mirror choice =>
      obtain ⟨old, oldMirror, ho⟩ := hok
      exact .setFolder hu hr ho hc.cond
    | trashFile id patch =>
      obtain ⟨old, ho⟩ := hok
      exact .trashFile hu ho hc.cond
    | reinsertFile id file =>
      -- A trashed file is not shown.
      have hshown : file.shown = none := by simp [File.shown, hok.trashed]
      refine ⟨(OneEntry.putFile fun k n hs => ?_).namesUnique hu, fun k hk => ?_⟩
      · rw [hshown] at hs
        cases hs
      · obtain ⟨n, hs, -⟩ := eq_of_mem_enters hk
        rw [hshown] at hs
        cases hs
    | deleteFile id u bytes =>
      refine ⟨namesUnique_of_subset hu fun k e n hn => ?_, fun k hk => absurd hk List.not_mem_nil⟩
      cases e with
      | folder f => exact hn
      | file i =>
        obtain ⟨r, hr', hs⟩ := Option.bind_eq_some_iff.mp hn
        exact Option.bind_eq_some_iff.mpr ⟨r, (Table.get_eraseAll_eq_some.mp hr').2, hs⟩
    | deleteTree view u folders files mirrors bytes =>
      refine ⟨namesUnique_of_subset hu fun k e n hn => ?_, fun k hk => absurd hk List.not_mem_nil⟩
      exact (hc.respects.named k e n hn).resolve_right List.not_mem_nil

end

/-! ## Runs -/

section

variable {s : Settings} {cond : Instr → ℕ → World → Prop} {w w' : World}

/-- What a step does to the names that are chosen: nothing but that a transaction ends, a choice, or
a commit. -/
theorem Effect.window (hi : Inv w) (he : Effect (system s) contract cond w w') :
    (w'.db = w.db ∧ w'.reserved = w.reserved ∧
      ∀ t, w'.window t = w.window t ∨ w'.window t = none) ∨
    (∃ t q, (Instr.names q).Pre t w ∧ cond (.names q) t w ∧ w' = w.readNames q t) ∨
    ∃ t tx, Commits cond t w tx ∧ w' = (w.write tx t).release t := by
  have hrelease : ∀ t t', (w.release t).window t' = w.window t' ∨
      (w.release t).window t' = none := by
    intro t t'
    by_cases ht : t' = t
    · exact .inr (if_pos ht)
    · exact .inl (if_neg ht)
  cases he with
  | none => exact .inl ⟨rfl, rfl, fun _ => .inl rfl⟩
  | @instr i t w' hp hc hx =>
    change i.exec t w = some w' at hx
    unfold Instr.exec at hx
    split_ifs at hx with hlost
    · cases hx
      cases i <;> exact .inl ⟨rfl, rfl, fun _ => .inl rfl⟩
    · have hl : w.lost t = false := by simpa using hlost
      cases i with
      | lock k =>
        obtain ⟨-, rfl⟩ | ⟨-, rfl⟩ := Instr.perform_lock hx
        · exact .inl ⟨World.lock_db k, World.lock_reserved k,
            fun _ => .inl (by rw [World.lock_window])⟩
        · exact .inl ⟨rfl, rfl, fun _ => .inl rfl⟩
      | fence session exclusive =>
        obtain ⟨fences, hf⟩ := World.takeFence_eq (w := w) (t := t) session exclusive
        cases (Option.some.inj hx).symm.trans hf
        exact .inl ⟨rfl, rfl, fun _ => .inl rfl⟩
      | names q =>
        cases hx
        exact .inr (.inl ⟨t, q, hp (.inl hl), hc, rfl⟩)
      | commit tx =>
        obtain ⟨ha, hw, rfl⟩ | ⟨-, rfl⟩ := Instr.perform_commit hx
        · exact .inr (.inr ⟨t, tx, ⟨⟨hi, ha, hw, hp (.inl hl) ha⟩, hl, hc⟩, rfl⟩)
        · exact .inl ⟨rfl, rfl, hrelease t⟩
      | rollback =>
        cases hx
        exact .inl ⟨rfl, rfl, hrelease t⟩
      | _ =>
        cases hx
        exact .inl ⟨rfl, rfl, fun _ => .inl rfl⟩
  | abort t => exact .inl ⟨rfl, rfl, hrelease t⟩
  | @event e w' hx =>
    cases hx
    cases e with
    | lose t => exact .inl ⟨rfl, rfl, hrelease t⟩
    | _ => exact .inl ⟨rfl, rfl, fun _ => .inl rfl⟩

/-- **One step keeps names unique.** -/
theorem NamesUnique.effect (hi : Inv w) (hu : w.db.NamesUnique) (hr : Reserves w)
    (he : Effect (system s) contract ChoosesNames w w') : w'.db.NamesUnique ∧ Reserves w' := by
  obtain ⟨hdb, hres, hwin⟩ | ⟨t, q, hp, hc, rfl⟩ | ⟨t, tx, hc, rfl⟩ := Effect.window hi he
  · refine ⟨hdb ▸ hu, fun t c hw => ?_⟩
    rcases hwin t with heq | heq <;> rw [heq] at hw
    · rw [hres]
      exact hr t c hw
    · cases hw
  · exact ⟨hu, hr.readNames hi hp hc⟩
  · have hk : KeepsNames t w tx := .commit hu hr hc
    exact ⟨hk.unique, hr.commit hk.alone⟩

/-- A check for `ChoosesNames` that also wants every requested name free: a thread that has been
started may have chosen a name. -/
def choosesNames : Check
  | .names q, t, c =>
    WellFormed q.requested && q.requested ∉ c.state.db.occupied q &&
      (List.range c.threads.bound).all fun t' =>
        t' = t || (c.state.window t').all fun c' => c'.slot ≠ q.slot
  | .commit (.files (.setFolder id _ folder _ none)), _, c =>
    enters (c.state.db.shown (.folder id)) folder.shown = []
  | .commit (.files (.trashFile id patch)), _, c =>
    (FilesTx.trashFile id patch).entered c.state.db = []
  | _, _, _ => true

/-- The check is enough when threads that have not been started have chosen no name. -/
theorem choosesNames_sound {c : Config World Instr Err Unit} (h : ∀ t, c.threads.bound ≤ t → c.state.Idle t)
    {i : Instr} {t : ℕ} (hok : choosesNames i t c = true) : ChoosesNames i t c.state := by
  cases i with
  | names q =>
    simp only [choosesNames, Bool.and_eq_true, decide_eq_true_eq, List.all_eq_true,
      Bool.or_eq_true] at hok
    refine ⟨⟨hok.1.1, fun ho => absurd ho hok.1.2⟩, fun _ t' c' hne hc' => ?_⟩
    by_cases ht : t' < c.threads.bound
    · have hslot := (hok.2 t' (List.mem_range.mpr ht)).resolve_left hne
      simpa [hc'] using hslot
    · rw [(h t' (not_lt.mp ht)).1] at hc'
      cases hc'
  | commit tx =>
    cases tx with
    | files tx =>
      cases tx with
      | setFolder id mirrorId folder mirror choice =>
        cases choice with
        | none =>
          intro k hk
          rw [of_decide_eq_true hok] at hk
          cases hk
        | some c => trivial
      | trashFile id patch =>
        have hentered : (FilesTx.trashFile id patch).entered c.state.db = [] := of_decide_eq_true hok
        exact hentered
      | _ => trivial
    | _ => trivial
  | _ => trivial

end

end HomeCloud
