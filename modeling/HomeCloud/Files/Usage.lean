import HomeCloud.System

/-!
# Storage used

What a user's row counts as used is the sum of the sizes of the user's ordinary files, as long as no
trashed file comes back and no stale usage is written.

* `StorageConserved`, `UsageExact`: every user's usage is right.
* `UsageExact.commit`: one commit; **`storage_conserved_of_kept`**: every run.
-/

namespace HomeCloud

open Concurrent

/-! ## The invariant -/

/-- What users' rows count as used is the sum of the sizes of their ordinary files. -/
def UsageExact (db : Db) : Prop :=
  ∀ u r, db.users.get u = some r → r.storageUsed = db.usage u

/-- No trashed file is inserted again, and no usage is written that is not the current one. -/
def keepsUsage : Instr → ℕ → World → Bool
  | .commit (.files (.reinsertFile _ _)), _, _ => false
  | .commit (.auth (.saveUser id patch)), _, w =>
    patch.storageUsed.all fun v => (w.db.users.get id).all fun r => r.storageUsed = v
  | _, _, _ => true

/-- The same, as a condition on statements. -/
def KeepsUsage (i : Instr) (t : ℕ) (w : World) : Prop := keepsUsage i t w = true

/-! ## Sizes -/

theorem File.SameObject.charge {r r' : File} (h : r.SameObject r') (u : ℕ) :
    r'.charge u = r.charge u := by
  unfold File.charge
  rw [h.userId, h.size, h.isFolder]

theorem File.charge_of_isFolder {r : File} (h : r.isFolder = true) (u : ℕ) : r.charge u = 0 := by
  simp [File.charge, h]

theorem File.charge_plain {r : File} (h : r.isFolder = false) (u : ℕ) :
    r.charge u = if r.userId = u then r.size else 0 := by
  simp [File.charge, h]

section

variable {db db' : Db}

/-- Users and sizes stay as they are. -/
theorem UsageExact.of_eq (h : UsageExact db) (hu : ∀ u r', db'.users.get u = some r' →
    ∃ r, db.users.get u = some r ∧ r'.storageUsed = r.storageUsed)
    (hf : ∀ u, db'.usage u = db.usage u) : UsageExact db' := fun u r' hr' => by
  obtain ⟨r, hr, he⟩ := hu u r' hr'
  rw [he, hf]
  exact h u r hr

/-- A charge to the owner goes with a change of the owner's files. -/
theorem UsageExact.charge (h : UsageExact db) {v : ℕ} {b : ℤ} (hu : db'.users = db.users)
    (hf : ∀ u, (db'.usage u : ℤ) = db.usage u + if u = v then b else 0) :
    UsageExact (db'.charge v b) := fun u r' hr' => by
  change r'.storageUsed = (db'.usage u : ℤ)
  simp only [Db.charge, hu, Table.get_map, Option.map_eq_some_iff] at hr'
  obtain ⟨r, hr, rfl⟩ := hr'
  have hr₀ := h u r hr
  have hf₀ := hf u
  split_ifs at hf₀ ⊢
  · simp only
    omega
  · omega

theorem UsageExact.addFile (h : UsageExact db) {file : File} (hplain : file.isFolder = false) :
    UsageExact ({ db with files := db.files.insert file }.charge file.userId file.size) := by
  refine h.charge rfl fun u => ?_
  have htotal : (db.files.insert file).total (fun _ r => r.charge u) =
      db.usage u + file.charge u := Table.total_insert ..
  rw [File.charge_plain hplain] at htotal
  change ((db.files.insert file).total fun _ r => r.charge u : ℤ) = _
  split_ifs at htotal ⊢ <;> omega

/-- Writing a row of the same object leaves the usage as it is. -/
theorem usage_put {id : ℕ} {old file : File} (hr : db.files.get id = some old)
    (hs : old.SameObject file) (u : ℕ) :
    (db.files.put id file).total (fun _ r => r.charge u) = db.usage u :=
  Table.total_put_of_some _ hr (hs.charge u)

theorem UsageExact.putFile (h : UsageExact db) {id : ℕ} {old file : File}
    (hr : db.files.get id = some old) (hs : old.SameObject file) :
    UsageExact { db with files := db.files.put id file } :=
  h.of_eq (fun _ r' hr' => ⟨r', hr', rfl⟩) (usage_put hr hs)

theorem UsageExact.addFolder (h : UsageExact db) {folder : Folder}
    {receipt : Option PublicShareOperation} {c : NameChoice} :
    UsageExact ((FilesTx.addFolder folder receipt c).apply db) := by
  refine h.of_eq (fun _ r' hr' => ⟨r', hr', rfl⟩) fun u => ?_
  have htotal : (db.files.insert (folder.mirror db.folders.bound)).total (fun _ r => r.charge u) =
      db.usage u + (folder.mirror db.folders.bound).charge u := Table.total_insert ..
  rw [File.charge_of_isFolder rfl] at htotal
  exact htotal

theorem UsageExact.deleteFile (h : UsageExact db) {id : ℕ} {old : File}
    (hr : db.files.get id = some old) (hm : old.isFolder = true → old.size = 0) :
    UsageExact ((FilesTx.deleteFile id old.userId old.size).apply db) := by
  have hsize : ∀ u, old.charge u = if old.userId = u then old.size else 0 := by
    intro u
    cases hf : old.isFolder with
    | false => exact File.charge_plain hf u
    | true => simp [File.charge_of_isFolder hf, hm hf]
  refine h.charge (b := -old.size) rfl fun u => ?_
  have htotal := Table.total_eraseAll db.files (fun _ r => r.charge u) (List.nodup_singleton id)
  simp only [List.map_cons, List.map_nil, List.sum_cons, List.sum_nil, hr, Option.elim_some,
    hsize u, Nat.add_zero] at htotal
  change ((db.files.eraseAll [id]).total fun _ r => r.charge u : ℤ) = db.usage u + _
  have huse : db.usage u = db.files.total fun _ r => r.charge u := rfl
  by_cases hu : u = old.userId
  · rw [if_pos hu.symm] at htotal
    rw [if_pos hu]
    omega
  · rw [if_neg (Ne.symm hu)] at htotal
    rw [if_neg hu]
    omega

end

/-- The sum of what rows count for a user is the sum of their sizes, when all are files of the
user. -/
theorem sum_charge_files {db : Db} {u v : ℕ} : ∀ {ids : List ℕ},
    (∀ i ∈ ids, ∃ r, db.files.get i = some r ∧ r.userId = u ∧ r.isFolder = false) →
    (ids.map fun i => (db.files.get i).elim 0 fun r => r.charge v).sum =
      if v = u then (ids.map fun i => (db.files.get i).elim 0 fun r => r.size).sum else 0
  | [], _ => by simp
  | i :: ids, h => by
    obtain ⟨r, hr, hu, hp⟩ := h i List.mem_cons_self
    have ih := sum_charge_files (v := v) fun j hj => h j (List.mem_cons_of_mem _ hj)
    simp only [List.map_cons, List.sum_cons, hr, Option.elim_some, ih, File.charge_plain hp, hu]
    by_cases hv : v = u
    · simp [hv]
    · simp [hv, Ne.symm hv]

theorem sum_charge_mirrors {db : Db} {v : ℕ} : ∀ {ids : List ℕ},
    (∀ i ∈ ids, ∃ r, db.files.get i = some r ∧ r.isFolder = true) →
    (ids.map fun i => (db.files.get i).elim 0 fun r => r.charge v).sum = 0
  | [], _ => rfl
  | i :: ids, h => by
    obtain ⟨r, hr, hp⟩ := h i List.mem_cons_self
    have ih := sum_charge_mirrors (v := v) fun j hj => h j (List.mem_cons_of_mem _ hj)
    simp only [List.map_cons, List.sum_cons, hr, Option.elim_some, ih, File.charge_of_isFolder hp]

theorem UsageExact.deleteTree {t : ℕ} {w : World} {view : Db} {u bytes : ℕ}
    {folders files mirrors : List ℕ} (h : UsageExact w.db) (hi : Inv w)
    (hok : DeleteTreeOk t w view u folders files mirrors bytes)
    (ha : w.db.crosscheck view folders (files ++ mirrors) = true) :
    UsageExact ((FilesTx.deleteTree view u folders files mirrors bytes).apply w.db) := by
  refine h.charge (b := -bytes) rfl fun v => ?_
  have hfiles := sum_charge_files (v := v) fun i hm => (hok.files_row i hm).2
  have hmirrors := sum_charge_mirrors (v := v) fun i hm => by
    obtain ⟨-, r, f, hr, -, hf, -⟩ := hok.mirrors_row i hm
    exact ⟨r, hr, hf⟩
  have htotal := Table.total_eraseAll w.db.files (fun _ r => r.charge v) hok.nodup
  rw [List.map_append, List.sum_append, hfiles, hmirrors, ← hok.bytes_eq] at htotal
  have hrest : ((w.db.dropFiles (files ++ mirrors)).dropFolders folders).usage v =
      (w.db.files.eraseAll (files ++ mirrors)).total fun _ r => r.charge v :=
    Table.total_eq_of_get _ fun i => (hok.get_files hi ha i).trans (Table.get_eraseAll ..).symm
  have huse : w.db.usage v = w.db.files.total fun _ r => r.charge v := rfl
  split_ifs at htotal ⊢ <;> omega

/-! ## Commits -/

section Commit

variable {cond : Instr → ℕ → World → Prop} {t : ℕ} {w : World} {tx : Tx}

/-- **A commit keeps the usage right**, when it inserts no trashed file again and writes no stale
usage. -/
theorem UsageExact.commit (h : UsageExact w.db) (hm : MirrorsEmpty w.seen)
    (hc : Commits KeepsUsage t w tx) : UsageExact (tx.apply w.db) := by
  have hok := hc.ok
  have ha : tx.constraints w.db = true := (Bool.and_eq_true_iff.mp hc.allowed).1
  have hcond : keepsUsage (.commit tx) t w = true := hc.cond
  cases tx with
  | none => exact h
  | auth tx =>
    cases tx with
    | saveUser id patch =>
      refine h.of_eq (fun u r' hr' => ?_) fun _ => rfl
      simp only [Tx.apply, AuthTx.apply, Table.get_map, Option.map_eq_some_iff] at hr'
      obtain ⟨r, hr, rfl⟩ := hr'
      refine ⟨r, hr, ?_⟩
      split_ifs with hu
      · subst hu
        simp only [keepsUsage, hr, Option.all_some] at hcond
        cases hp : patch.storageUsed with
        | none => simp only [UserPatch.apply, hp, Option.getD_none]
        | some v =>
          simp only [hp, Option.all_some, decide_eq_true_eq] at hcond
          simp only [UserPatch.apply, hp, Option.getD_some, hcond]
      · rfl
    | _ => exact h
  | sharing tx => cases tx <;> exact h
  | uploads tx =>
    cases tx with
    | publish id session file c =>
      obtain ⟨old, attempt, ho⟩ := hok
      exact h.addFile ho.added.plain.1
    | _ => exact h
  | journal tx =>
    cases tx with
    | commit id sessionId file c =>
      obtain ⟨-, op, q, ho⟩ := hok
      exact h.addFile ho.added.plain.1
    | _ => exact h
  | files tx =>
    cases tx with
    | addFile file c => exact h.addFile hok.1.plain.1
    | addFolder folder receipt c =>
      have hadd : UsageExact ((FilesTx.addFolder folder receipt c).apply w.db) := h.addFolder
      exact hadd
    | placeFile id file choice =>
      obtain ⟨old, ho⟩ := hok
      exact h.putFile ho.row ho.same
    | setFolder id mirrorId folder mirror choice =>
      obtain ⟨old, oldMirror, ho⟩ := hok
      exact h.putFile ho.mirrorRow ho.same
    | trashFile id patch =>
      obtain ⟨old, ho⟩ := hok
      have happ : (Tx.files (.trashFile id patch)).apply w.db =
          { w.db with files := w.db.files.put id (patch.apply old) } := by
        simp only [Tx.apply, FilesTx.apply, ho.row]
      rw [happ]
      exact h.putFile ho.row ⟨rfl, rfl, rfl, rfl, rfl, rfl⟩
    | reinsertFile id file => cases hcond
    | deleteFile id u bytes =>
      obtain ⟨old, ho⟩ := hok
      have hdel := h.deleteFile ho.row (hm id old (hc.inv.seen id old ho.row))
      rw [ho.owner, ho.size] at hdel
      exact hdel
    | deleteTree view u folders files mirrors bytes => exact h.deleteTree hc.inv hok ha

end Commit

end HomeCloud
