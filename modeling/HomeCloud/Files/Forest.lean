import HomeCloud.System

/-!
# The forest of folders

Every folder has a parent of its owner or none, and the parents lead up to the root, so that the
recursive query for the folders below another one ends.

* `Db.RootIn`, `Forest`: the way from a folder to the root.
* `Forest.commit`: one commit; **`folders_forest`**: every run.
* `Db.rounds`, **`Forest.rounds_end`**: the query with `UNION ALL`.
-/

namespace HomeCloud

open Concurrent

/-- The parents lead from the folder to the root in so many steps. -/
inductive Db.RootIn (db : Db) : ℕ → ℕ → Prop
  | top {f r} : db.folders.get f = some r → r.parentId = none → db.RootIn 0 f
  | up {f r p n} : db.folders.get f = some r → r.parentId = some p → db.RootIn n p →
      db.RootIn (n + 1) f

/-- The parents lead from every folder to the root. -/
def Forest (db : Db) : Prop := ∀ f r, db.folders.get f = some r → ∃ n, db.RootIn n f

/-- The rows that the recursive query of `assertNoCycle` adds in each round; with `UNION ALL` a row
counts as often as it is found. -/
def Db.rounds (db : Db) (id : ℕ) : ℕ → List ℕ
  | 0 => db.folders.select fun i _ => i = id
  | n + 1 => (db.rounds id n).flatMap fun d => db.folders.select fun _ r => r.parentId = some d

section

variable {db db' : Db} {f id n : ℕ}

/-! ## Writes to folders -/

/-- The way to the root stays when rows only come in. -/
theorem Db.RootIn.mono (h : db.RootIn n f)
    (hrows : ∀ i r, db.folders.get i = some r → db'.folders.get i = some r) : db'.RootIn n f := by
  induction h with
  | top hr hn => exact .top (hrows _ _ hr) hn
  | up hr hp _ ih => exact .up (hrows _ _ hr) hp ih

/-- The way to the root stays when rows go and no parent with them. -/
theorem Db.RootIn.of_subset (h : db.RootIn n f) (hi : Intact db')
    (hrows : ∀ i r, db'.folders.get i = some r → db.folders.get i = some r) :
    ∀ r', db'.folders.get f = some r' → db'.RootIn n f := by
  induction h with
  | top hr hn =>
    intro r' hr'
    cases hr.symm.trans (hrows _ r' hr')
    exact .top hr' hn
  | up hr hp _ ih =>
    intro r' hr'
    cases hr.symm.trans (hrows _ r' hr')
    obtain ⟨q, hq, -⟩ := hi.folder_parent _ _ _ hr' hp
    exact .up hr' hp (ih q hq)

/-- There is one way to the root. -/
theorem Db.RootIn.unique {m : ℕ} (h : db.RootIn n f) (h' : db.RootIn m f) : n = m := by
  induction h generalizing m with
  | top hr hn =>
    cases h' with
    | top => rfl
    | up hr' hp _ =>
      cases hr.symm.trans hr'
      cases hn.symm.trans hp
  | up hr hp _ ih =>
    cases h' with
    | top hr' hn =>
      cases hr.symm.trans hr'
      cases hn.symm.trans hp
    | up hr' hp' hup =>
      cases hr.symm.trans hr'
      cases hp.symm.trans hp'
      exact congrArg (· + 1) (ih hup)

/-- The way from a folder leads through the folders that it is below. -/
theorem Db.RootIn.of_below (h : db.RootIn n f) (hbelow : db.Below id f) :
    ∃ m ≤ n, db.RootIn m id := by
  induction hbelow generalizing n with
  | refl => exact ⟨n, le_rfl, h⟩
  | tail _ hstep ih =>
    obtain ⟨r, hr, hp⟩ := hstep
    cases h with
    | top hr' hn =>
      cases hr.symm.trans hr'
      cases hn.symm.trans hp
    | up hr' hp' hup =>
      cases hr.symm.trans hr'
      cases hp.symm.trans hp'
      obtain ⟨m, hm, hroot⟩ := ih hup
      exact ⟨m, hm.trans (Nat.le_succ _), hroot⟩

/-- The way to the root does not lead through a folder that the folder is not below. -/
theorem Db.RootIn.put {folder : Folder} (h : db.RootIn n f) (hno : ¬ db.Below id f)
    (hdb : db'.folders = db.folders.put id folder) : db'.RootIn n f := by
  have hget : ∀ {i}, ¬ db.Below id i → db'.folders.get i = db.folders.get i := by
    intro i hi
    have hne : i ≠ id := by
      rintro rfl
      exact hi .refl
    rw [hdb, Table.get_put_ne _ _ hne]
  induction h with
  | top hr hn => exact .top ((hget hno).trans hr) hn
  | up hr hp _ ih =>
    exact .up ((hget hno).trans hr) hp (ih fun hbelow => hno (hbelow.tail ⟨_, hr, hp⟩))

theorem Forest.congr (h : Forest db) (hdb : db'.folders = db.folders) : Forest db' := by
  intro f r hr
  rw [hdb] at hr
  obtain ⟨n, hn⟩ := h f r hr
  exact ⟨n, hn.mono fun i q hq => hdb ▸ hq⟩

/-- A new folder comes in below an existing one or the root. -/
theorem Forest.insert {folder : Folder} (h : Forest db)
    (hparent : ∀ p, folder.parentId = some p → ∃ q, db.folders.get p = some q)
    (hdb : db'.folders = db.folders.insert folder) : Forest db' := by
  have hrows : ∀ i r, db.folders.get i = some r → db'.folders.get i = some r := fun i r hr => by
    rw [hdb, Table.get_insert_of_some hr]
  intro f r hr
  rw [hdb, Table.get_insert] at hr
  split_ifs at hr with hf
  · cases hr
    have hnew : db'.folders.get f = some folder := by rw [hdb, hf, Table.get_insert_bound]
    cases hp : folder.parentId with
    | none => exact ⟨0, .top hnew hp⟩
    | some p =>
      obtain ⟨q, hq⟩ := hparent p hp
      obtain ⟨n, hn⟩ := h p q hq
      exact ⟨n + 1, .up hnew hp (hn.mono hrows)⟩
  · obtain ⟨n, hn⟩ := h f r hr
    exact ⟨n, hn.mono hrows⟩

/-- A folder gets a parent that is not below it, or keeps its own. -/
theorem Forest.put {folder old : Folder} (h : Forest db) (hold : db.folders.get id = some old)
    (hparent : ∀ p, folder.parentId = some p → ∃ q, db.folders.get p = some q)
    (houtside : ∀ p, folder.parentId = some p → folder.parentId ≠ old.parentId → ¬ db.Below id p)
    (hdb : db'.folders = db.folders.put id folder) : Forest db' := by
  have hnew : db'.folders.get id = some folder := by rw [hdb, Table.get_put_self]
  -- The own parent is not below the folder, since there is one way to the root.
  have hbelow : ∀ p, folder.parentId = some p → ¬ db.Below id p := by
    intro p hp
    by_cases hsame : folder.parentId = old.parentId
    · intro hb
      obtain ⟨q, hq⟩ := hparent p hp
      obtain ⟨n, hn⟩ := h p q hq
      obtain ⟨m, hm, hroot⟩ := hn.of_below hb
      have hn' := hroot.unique (.up hold (hsame ▸ hp) hn)
      omega
    · exact houtside p hp hsame
  have hid : ∃ n, db'.RootIn n id := by
    cases hp : folder.parentId with
    | none => exact ⟨0, .top hnew hp⟩
    | some p =>
      obtain ⟨q, hq⟩ := hparent p hp
      obtain ⟨n, hn⟩ := h p q hq
      exact ⟨n + 1, .up hnew hp (hn.put (hbelow p hp) hdb)⟩
  have hall : ∀ n f, db.RootIn n f → ∃ n, db'.RootIn n f := by
    intro n f hn
    induction hn with
    | @top f r hr hn =>
      by_cases hf : f = id
      · exact hf ▸ hid
      · exact ⟨0, .top (by rw [hdb, Table.get_put_ne _ _ hf, hr]) hn⟩
    | @up f r p n hr hp _ ih =>
      by_cases hf : f = id
      · exact hf ▸ hid
      · obtain ⟨m, hm⟩ := ih
        exact ⟨m + 1, .up (by rw [hdb, Table.get_put_ne _ _ hf, hr]) hp hm⟩
  intro f r hr
  by_cases hf : f = id
  · exact hf ▸ hid
  · rw [hdb, Table.get_put_ne _ _ hf] at hr
    obtain ⟨n, hn⟩ := h f r hr
    exact hall n f hn

end

/-- **Every commit keeps the forest.** -/
theorem Forest.commit {cond : Instr → ℕ → World → Prop} {t : ℕ} {w : World} {tx : Tx} (h : Forest w.db)
    (hc : Commits cond t w tx) : Forest (tx.apply w.db) := by
  have hok := hc.ok
  have ha : tx.constraints w.db = true := (Bool.and_eq_true_iff.mp hc.allowed).1
  have hintact : Intact (tx.apply w.db) := hc.respects.intact
  cases tx with
  | none => exact h
  | auth tx => cases tx <;> exact h.congr rfl
  | sharing tx => cases tx <;> exact h.congr rfl
  | uploads tx => cases tx <;> exact h.congr rfl
  | journal tx => cases tx <;> exact h.congr rfl
  | files tx =>
    cases tx with
    | addFolder folder receipt c =>
      refine h.insert (fun p hp => ?_) rfl
      obtain ⟨q, hq, -⟩ := hok.1.chosen.settled.owned p hp
      exact ⟨q, hq⟩
    | setFolder id mirrorId folder mirror choice =>
      obtain ⟨old, oldMirror, ho⟩ := hok
      refine h.put ho.row (fun p hp => ?_) ho.outside rfl
      obtain ⟨q, hq, -⟩ := ho.parent hc.inv hp
      exact ⟨q, hq⟩
    | deleteTree view u folders files mirrors bytes =>
      intro f r hr
      have hrows : ∀ i r, ((Tx.files (.deleteTree view u folders files mirrors bytes)).apply
          w.db).folders.get i = some r → w.db.folders.get i = some r := by
        intro i r hi
        have hget := hok.get_folders hc.inv ha i
        rw [Tx.apply, hget] at hi
        split_ifs at hi
        exact hi
      obtain ⟨n, hn⟩ := h f r (hrows f r hr)
      exact ⟨n, hn.of_subset hintact hrows r hr⟩
    | trashFile id patch =>
      refine h.congr ?_
      simp only [Tx.apply, FilesTx.apply]
      split <;> rfl
    | _ => exact h.congr rfl

/-! ## The query with UNION ALL -/

section

variable {db : Db} {id n i : ℕ}

theorem mem_rounds_succ : i ∈ db.rounds id (n + 1) ↔
    ∃ d ∈ db.rounds id n, ∃ r, db.folders.get i = some r ∧ r.parentId = some d := by
  simp only [Db.rounds, List.mem_flatMap, Table.mem_select, decide_eq_true_eq]

/-- A folder is found no later than its way to the root is long. -/
theorem Db.RootIn.round_le {m : ℕ} (h : db.RootIn n i) (hi : i ∈ db.rounds id m) : m ≤ n := by
  induction m generalizing n i with
  | zero => exact Nat.zero_le n
  | succ m ih =>
    obtain ⟨d, hd, r, hr, hp⟩ := mem_rounds_succ.mp hi
    cases h with
    | top hr' hn =>
      cases hr.symm.trans hr'
      cases hp.symm.trans hn
    | up hr' hp' hup =>
      cases hr.symm.trans hr'
      cases hp.symm.trans hp'
      exact Nat.succ_le_succ (ih hup hd)

theorem get_of_mem_rounds (h : i ∈ db.rounds id n) : ∃ r, db.folders.get i = some r := by
  cases n with
  | zero =>
    obtain ⟨r, hr, -⟩ := Table.mem_select.mp h
    exact ⟨r, hr⟩
  | succ n =>
    obtain ⟨d, -, r, hr, -⟩ := mem_rounds_succ.mp h
    exact ⟨r, hr⟩

/-- **The query ends**: some round finds nothing. -/
theorem Forest.rounds_end (h : Forest db) (id : ℕ) : ∃ n, db.rounds id n = [] := by
  have hbound : ∀ b, ∃ N, ∀ i < b, ∀ m, i ∈ db.rounds id m → m ≤ N := by
    intro b
    induction b with
    | zero => exact ⟨0, fun i hi => absurd hi (Nat.not_lt_zero i)⟩
    | succ b ih =>
      obtain ⟨N, hN⟩ := ih
      cases hb : db.folders.get b with
      | none =>
        refine ⟨N, fun i hi m hm => ?_⟩
        rcases Nat.lt_succ_iff_lt_or_eq.mp hi with hlt | rfl
        · exact hN i hlt m hm
        · obtain ⟨r, hr⟩ := get_of_mem_rounds hm
          cases hb.symm.trans hr
      | some r =>
        obtain ⟨n, hn⟩ := h b r hb
        refine ⟨max N n, fun i hi m hm => ?_⟩
        rcases Nat.lt_succ_iff_lt_or_eq.mp hi with hlt | rfl
        · exact (hN i hlt m hm).trans (le_max_left N n)
        · exact (hn.round_le hm).trans (le_max_right N n)
  obtain ⟨N, hN⟩ := hbound db.folders.bound
  refine ⟨N + 1, List.eq_nil_iff_forall_not_mem.mpr fun i hi => ?_⟩
  obtain ⟨r, hr⟩ := get_of_mem_rounds hi
  have hle := hN i (Table.lt_bound hr) (N + 1) hi
  omega

/-- The rounds find the folders that a query with `UNION` does. -/
theorem mem_descendants_iff_rounds : i ∈ db.descendants (fun _ => true) (fun _ j => j = id) ↔
    ∃ n, i ∈ db.rounds id n := by
  constructor
  · intro h
    refine saturate_of_step (P := fun ids => ∀ i ∈ ids, ∃ n, i ∈ db.rounds id n)
      (fun ids hids i hi => ?_) _ (fun i hi => ⟨0, hi⟩) i h
    obtain ⟨r, hr, hi | ⟨-, p, hp, hpar⟩⟩ := mem_childStep.mp hi
    · exact hids i hi
    · obtain ⟨n, hn⟩ := hids p hp
      exact ⟨n + 1, mem_rounds_succ.mpr ⟨p, hn, r, hr, hpar⟩⟩
  · rintro ⟨n, hn⟩
    induction n generalizing i with
    | zero =>
      obtain ⟨r, hr, hid⟩ := Table.mem_select.mp hn
      exact Db.root_mem_descendants hr hid
    | succ n ih =>
      obtain ⟨d, hd, r, hr, hp⟩ := mem_rounds_succ.mp hn
      exact Db.mem_descendants_of_parent hr rfl hp (ih hd)

end

/-- **In every reachable state the parent of a folder is a folder of its owner, the parents lead to the
root, and the query for the folders below any one ends**, with the folders that the check of a move
compares. -/
theorem folders_forest (s : Settings) (cond : Instr → ℕ → World → Prop) (users : Table User)
    (c : Config World Instr Err Unit) (h : Reachable s cond users c) :
    (∀ f r, c.state.db.folders.get f = some r →
      (∀ p, r.parentId = some p → ∃ q, c.state.db.folders.get p = some q ∧ q.userId = r.userId) ∧
      ∃ n, c.state.db.RootIn n f) ∧
    ∀ id, (∃ n, c.state.db.rounds id n = []) ∧
      ∀ i, i ∈ c.state.db.descendants (fun _ => true) (fun _ j => j = id) ↔
        ∃ n, i ∈ c.state.db.rounds id n := by
  have hforest : Forest c.state.db :=
    h.db_invariant (fun f r hr => nomatch hr) fun t w tx hc hf => hf.commit hc
  exact ⟨fun f r hr => ⟨fun p => h.inv.intact.folder_parent f r p hr, hforest f r hr⟩,
    fun id => ⟨hforest.rounds_end id, fun i => mem_descendants_iff_rounds⟩⟩

/-- Two folders, one in the other, each of which is moved into the other at the same time. -/
def crossedMoves : List (Move Call Event) :=
  .call (.createFolder 1 [97] none) :: steps 1 4 ++
    .call (.createFolder 1 [98] none) :: steps 2 4 ++
    .call (.updateFolder 1 1 none (some (some 2))) :: steps 3 2 ++
    .call (.updateFolder 1 2 none (some (some 1))) :: steps 4 2 ++ steps 3 9 ++ steps 4 6

theorem folders_forest_after_moves :
    ∃ c, Reachable plainSettings (fun _ _ _ => True) oneUser c ∧
      (c.state.db.folders.get 1).map (·.parentId) = some (some 2) ∧
      (∃ n, c.state.db.RootIn n 1) ∧ ∃ n, c.state.db.rounds 2 n = [] := by
  obtain ⟨c, hc, hp⟩ := exists_reachable plainSettings oneUser unchecked_ok crossedMoves
    (fun c => (c.state.db.folders.get 1).map (·.parentId) = some (some 2)) (by decide +kernel)
  have hparent := of_decide_eq_true hp
  obtain ⟨hforest, hquery⟩ := folders_forest plainSettings _ oneUser c hc
  obtain ⟨r, hr, -⟩ := Option.map_eq_some_iff.mp hparent
  exact ⟨c, hc, hparent, (hforest 1 r hr).2, (hquery 2).1⟩

end HomeCloud
