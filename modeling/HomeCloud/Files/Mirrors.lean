import HomeCloud.System

/-!
# Folders and their mirrors

Every folder has a mirror among the files, and no mirror is without its folder, as long as no mirror
is deleted on its own.

* `MirrorsMatch`: folders and mirrors go together.
* `HasMirrors.commit`: one commit; **`mirrors_match_of_spared`**: every run.
-/

namespace HomeCloud

open Concurrent

/-- The file `i` is a mirror of the folder `f`. -/
def Db.IsMirror (db : Db) (f i : ℕ) (m : File) : Prop :=
  db.files.get i = some m ∧ m.isFolder = true ∧ m.folderId = some f

/-- Every folder has exactly one mirror, which agrees with it, and every mirror has a folder. -/
structure MirrorsMatch (db : Db) : Prop where
  unique : ∀ f r, db.folders.get f = some r → ∃! i, ∃ m, db.IsMirror f i m
  agree : ∀ f r i m, db.folders.get f = some r → db.IsMirror f i m →
    m.userId = r.userId ∧ m.name = r.name ∧ m.parentId = r.parentId ∧ m.isDeleted = r.isDeleted
  folder : ∀ i m, db.files.get i = some m → m.isFolder = true →
    ∃ f r, db.IsMirror f i m ∧ db.folders.get f = some r

/-- Every folder has a mirror. -/
def HasMirrors (db : Db) : Prop :=
  ∀ f r, db.folders.get f = some r → ∃ i m, db.IsMirror f i m

theorem Intact.mirrorsMatch {db : Db} (h : Intact db) (hm : HasMirrors db) : MirrorsMatch db where
  unique f r hr := by
    obtain ⟨i, m, hi⟩ := hm f r hr
    refine ⟨i, ⟨m, hi⟩, ?_⟩
    rintro j ⟨m', hj⟩
    exact h.mirror_unique j i m' m hj.1 hi.1 hj.2.1 hi.2.1 (hj.2.2.trans hi.2.2.symm)
  agree f r i m hr hi := by
    obtain ⟨f', q, hid, hq, hu, hn, hp, hd⟩ := h.mirror i m hi.1 hi.2.1
    have hf : f' = f := Option.some.inj (hid.symm.trans hi.2.2)
    subst hf
    cases hq.symm.trans hr
    exact ⟨hu.symm, hn.symm, hp.symm, hd.symm⟩
  folder i m hi hf := by
    obtain ⟨f, q, hid, hq, -⟩ := h.mirror i m hi hf
    exact ⟨f, q, ⟨hi, hf, hid⟩, hq⟩

/-- The permanent deletion of a file is not one of a mirror. -/
def sparesMirrors : Instr → ℕ → World → Bool
  | .commit (.files (.deleteFile id _ _)), _, w => (w.db.files.get id).all (!·.isFolder)
  | _, _, _ => true

/-- Mirrors are not deleted on their own. -/
def SparesMirrors (i : Instr) (t : ℕ) (w : World) : Prop := sparesMirrors i t w = true

section

variable {db db' : Db} {f i : ℕ} {m : File}

/-- Folders that stay keep their mirrors when these stay. -/
theorem HasMirrors.mono (h : HasMirrors db)
    (hfo : ∀ f r, db'.folders.get f = some r → ∃ r', db.folders.get f = some r')
    (hfi : ∀ f i m, db.IsMirror f i m → (db'.folders.get f).isSome → ∃ m', db'.IsMirror f i m') :
    HasMirrors db' := fun f r hr => by
  obtain ⟨r', hr'⟩ := hfo f r hr
  obtain ⟨i, m, hi⟩ := h f r' hr'
  obtain ⟨m', hi'⟩ := hfi f i m hi (Option.isSome_iff_exists.mpr ⟨r, hr⟩)
  exact ⟨i, m', hi'⟩

/-- Writing an ordinary file row over an ordinary one, or as a new one, takes no mirror away. -/
theorem HasMirrors.putFile (h : HasMirrors db) {file : File}
    (hold : ∀ old, db.files.get i = some old → old.isFolder = false) :
    HasMirrors { db with files := db.files.put i file } := by
  refine h.mono (fun f r hr => ⟨r, hr⟩) fun f j m hj _ => ⟨m, ?_, hj.2⟩
  have hne : j ≠ i := by
    rintro rfl
    have := hold m hj.1
    rw [hj.2.1] at this
    cases this
  exact (Table.get_put_ne _ _ hne).trans hj.1

theorem HasMirrors.insertFile (h : HasMirrors db) {file : File} :
    HasMirrors { db with files := db.files.insert file } :=
  h.putFile fun old ho => by
    rw [Table.get_bound] at ho
    cases ho

theorem HasMirrors.addFolder (h : HasMirrors db) {folder : Folder}
    {receipt : Option PublicShareOperation} {c : NameChoice} :
    HasMirrors ((FilesTx.addFolder folder receipt c).apply db) := by
  intro f r hr
  simp only [FilesTx.apply, Table.get_insert] at hr
  split_ifs at hr with hb
  · exact ⟨db.files.bound, folder.mirror db.folders.bound, Table.get_insert_bound .., rfl,
      congrArg some hb.symm⟩
  · obtain ⟨i, m, hi, hm⟩ := h f r hr
    exact ⟨i, m, Table.get_insert_of_some hi, hm⟩

theorem HasMirrors.setFolder (h : HasMirrors db) {id mirrorId : ℕ} {folder old : Folder}
    {mirror oldMirror : File} {choice : Option NameChoice} (hr : db.folders.get id = some old)
    (hm : db.IsMirror id mirrorId oldMirror) (hs : oldMirror.SameObject mirror) :
    HasMirrors ((FilesTx.setFolder id mirrorId folder mirror choice).apply db) := by
  refine h.mono (fun f r hf => ?_) fun f i m hi _ => ?_
  · simp only [FilesTx.apply, Table.get_put] at hf
    split_ifs at hf with hid
    · exact ⟨old, hid ▸ hr⟩
    · exact ⟨r, hf⟩
  · by_cases him : i = mirrorId
    · subst him
      cases hi.1.symm.trans hm.1
      exact ⟨mirror, Table.get_put_self .., hs.isFolder.trans hi.2.1, hs.folderId.trans hi.2.2⟩
    · exact ⟨m, (Table.get_put_ne _ _ him).trans hi.1, hi.2⟩

theorem HasMirrors.deleteFile (h : HasMirrors db) {id u bytes : ℕ}
    (hplain : ∀ r, db.files.get id = some r → r.isFolder = false) :
    HasMirrors ((FilesTx.deleteFile id u bytes).apply db) := by
  refine h.mono (fun f r hr => ⟨r, hr⟩) fun f i m hi _ => ⟨m, ?_, hi.2⟩
  have hne : i ∉ [id] := by
    rw [List.mem_singleton]
    rintro rfl
    have := hplain m hi.1
    rw [hi.2.1] at this
    cases this
  exact Table.get_eraseAll_eq_some.mpr ⟨hne, hi.1⟩

end

theorem HasMirrors.deleteTree {t : ℕ} {w : World} {view : Db} {u bytes : ℕ}
    {folders files mirrors : List ℕ} (h : HasMirrors w.db) (hi : Inv w)
    (hok : DeleteTreeOk t w view u folders files mirrors bytes)
    (ha : w.db.crosscheck view folders (files ++ mirrors) = true) :
    HasMirrors ((FilesTx.deleteTree view u folders files mirrors bytes).apply w.db) := by
  refine h.mono (fun f r hr => ?_) fun f i m hm hf => ?_
  · rw [hok.get_folders hi ha] at hr
    split_ifs at hr
    exact ⟨r, hr⟩
  · have hnf : f ∉ folders := fun hmem => by
      rw [hok.get_folders hi ha, if_pos hmem] at hf
      cases hf
    have hni : i ∉ files ++ mirrors := fun hmem => by
      rcases List.mem_append.mp hmem with hmf | hmm
      · obtain ⟨-, r, hr, -, hp⟩ := hok.files_row i hmf
        cases hr.symm.trans hm.1
        rw [hm.2.1] at hp
        cases hp
      · obtain ⟨-, r, f', hr, -, -, hid, hf'⟩ := hok.mirrors_row i hmm
        cases hr.symm.trans hm.1
        cases hid.symm.trans hm.2.2
        exact hnf hf'
    refine ⟨m, ?_, hm.2⟩
    rw [hok.get_files hi ha, if_neg hni]
    exact hm.1

/-- **A commit leaves every folder its mirror**, when it is not the deletion of a mirror. -/
theorem HasMirrors.commit {t : ℕ} {w : World} {tx : Tx} (h : HasMirrors w.db)
    (hc : Commits SparesMirrors t w tx) : HasMirrors (tx.apply w.db) := by
  have hok := hc.ok
  have ha : tx.constraints w.db = true := (Bool.and_eq_true_iff.mp hc.allowed).1
  cases tx with
  | none => exact h
  | auth tx => cases tx <;> exact h
  | sharing tx => cases tx <;> exact h
  | uploads tx =>
    cases tx with
    | publish id session file c => exact h.insertFile
    | _ => exact h
  | journal tx =>
    cases tx with
    | commit id sessionId file c => exact h.insertFile
    | _ => exact h
  | files tx =>
    cases tx with
    | addFile file c => exact h.insertFile
    | addFolder folder receipt c =>
      have hadd : HasMirrors ((FilesTx.addFolder folder receipt c).apply w.db) := h.addFolder
      exact hadd
    | placeFile id file choice =>
      obtain ⟨old, ho⟩ := hok
      refine h.putFile fun r hr => ?_
      cases hr.symm.trans ho.row
      exact ho.plain
    | setFolder id mirrorId folder mirror choice =>
      obtain ⟨old, oldMirror, ho⟩ := hok
      have hput : HasMirrors ((FilesTx.setFolder id mirrorId folder mirror choice).apply w.db) :=
        h.setFolder ho.row ⟨ho.mirrorRow, ho.isMirror⟩ ho.same
      exact hput
    | trashFile id patch =>
      obtain ⟨old, ho⟩ := hok
      have happ : (Tx.files (.trashFile id patch)).apply w.db =
          { w.db with files := w.db.files.put id (patch.apply old) } := by
        simp only [Tx.apply, FilesTx.apply, ho.row]
      rw [happ]
      refine h.putFile fun r hr => ?_
      cases hr.symm.trans ho.row
      exact ho.plain
    | reinsertFile id file =>
      refine h.putFile fun r hr => ?_
      simp only [Tx.constraints, FilesTx.allowed, hr, Bool.and_eq_true] at ha
      exact absurd ha.1.1 (by simp)
    | deleteFile id u bytes =>
      have hplain : ∀ r, w.db.files.get id = some r → r.isFolder = false := fun r hr => by
        have hspared := hc.cond
        simpa only [SparesMirrors, sparesMirrors, hr, Option.all_some, Bool.not_eq_true'] using hspared
      exact h.deleteFile hplain
    | deleteTree view u folders files mirrors bytes => exact h.deleteTree hc.inv hok ha

/-- **Folders and mirrors go together in every run that deletes no mirror on its own.** -/
theorem mirrors_match_of_spared (s : Settings) (users : Table User)
    (c : Config World Instr Err Unit) (h : Reachable s SparesMirrors users c) :
    MirrorsMatch c.state.db := by
  refine h.inv.intact.mirrorsMatch (h.db_invariant (fun f r hr => ?_) fun t w tx hc hm => hm.commit hc)
  cases hr

theorem sparesMirrors_ok {users : Table User} (c : Config World Instr Err Unit)
    (_ : Reachable plainSettings SparesMirrors users c) (i : Instr) (t : ℕ)
    (h : (fun i t (c : Config World Instr Err Unit) => sparesMirrors i t c.state) i t c = true) :
    SparesMirrors i t c.state := h

/-- A folder is created, and a file in it, which is deleted. -/
def deletedFile : List (Move Call Event) :=
  .call (.createFolder 1 [97] none) :: steps 1 4 ++
    .call (.createFile 1 [98] 5 none (some 1)) :: steps 2 9 ++
    .call (.deleteFilePermanently 1 2) :: steps 3 6

theorem mirrors_match_after_deletion :
    ∃ c, Reachable plainSettings SparesMirrors oneUser c ∧
      (c.state.db.folders.get 1).isSome ∧ MirrorsMatch c.state.db := by
  obtain ⟨c, hc, hp⟩ := exists_reachable plainSettings oneUser sparesMirrors_ok deletedFile
    (fun c => (c.state.db.folders.get 1).isSome) (by decide +kernel)
  exact ⟨c, hc, hp, mirrors_match_of_spared plainSettings oneUser c hc⟩

/-- A folder is created and its mirror deleted as a file. -/
def deletedMirror : List (Move Call Event) :=
  .call (.createFolder 1 [97] none) :: steps 1 4 ++
    .call (.deleteFilePermanently 1 1) :: steps 2 5

theorem folder_without_mirror :
    ¬ ∀ s users c, Reachable s anyStep users c → MirrorsMatch c.state.db := by
  intro h
  obtain ⟨c, hc, hp⟩ := exists_reachable plainSettings oneUser unchecked_ok deletedMirror
    (fun c => (c.state.db.folders.get 1).isSome &&
      (c.state.db.files.select fun _ m => m.folderId = some 1).isEmpty) (by decide +kernel)
  simp only [Bool.and_eq_true, List.isEmpty_iff] at hp
  obtain ⟨r, hr⟩ := Option.isSome_iff_exists.mp hp.1
  obtain ⟨i, ⟨m, hm⟩, -⟩ := (h _ _ c hc).unique 1 r hr
  have hmem : i ∈ c.state.db.files.select fun _ m => m.folderId = some 1 :=
    Table.mem_select.mpr ⟨m, hm.1, by simp [hm.2.2]⟩
  rw [hp.2] at hmem
  cases hmem

end HomeCloud
