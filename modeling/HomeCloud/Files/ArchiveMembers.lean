import HomeCloud.Files.ArchivePlan

/-!
# The members of a private archive

* `Listed`: what is selected, and what is below a selected folder.
* `LiveAt`: the levels below a folder.
* `folderTree_ends`: the rows of a tree.
* `Hung`: every member comes after the folder that it is in, with a path below that one's.
* `FoldersDone`, `FilesDone`: what the two loops keep.
* **`archive_members`**: what a plan lists.
-/

namespace HomeCloud

namespace ArchivePlan

open Concurrent

section

variable (db : Db) (userId : ℕ)

/-! ## What is selected -/

/-- A live folder or a live ordinary file of the user. -/
def Live : ArchiveSelection → Prop
  | .file i => ∃ r, db.files.get i = some r ∧ r.userId = userId ∧ r.isDeleted = false ∧ r.isFolder = false
  | .folder i => ∃ r, db.folders.get i = some r ∧ r.userId = userId ∧ r.isDeleted = false

def parentOf : ArchiveSelection → Option ℕ
  | .file i => (db.files.get i).bind (·.parentId)
  | .folder i => (db.folders.get i).bind (·.parentId)

/-- What is selected and live, and what is live in a folder that is listed. -/
inductive Listed (roots : List ArchiveSelection) : ArchiveSelection → Prop
  | selected {key} : key ∈ roots → Live db userId key → Listed roots key
  | inside {key p} : Listed roots (.folder p) → parentOf db key = some p → Live db userId key → Listed roots key

/-- A live folder, so many levels below another one. -/
inductive LiveAt (root : ℕ) : ℕ → ℕ → Prop
  | root : Live db userId (.folder root) → LiveAt root 0 root
  | child {d p i} : LiveAt root d p → parentOf db (.folder i) = some p → Live db userId (.folder i) →
      LiveAt root (d + 1) i

end

section

variable {db : Db} {userId root root' d e i n : ℕ} {roots roots' : List ArchiveSelection}

theorem parentOf_folder {r : Folder} (h : db.folders.get i = some r) : parentOf db (.folder i) = r.parentId := by
  simp [parentOf, h]

theorem parentOf_file {r : File} (h : db.files.get i = some r) : parentOf db (.file i) = r.parentId := by
  simp [parentOf, h]

theorem LiveAt.live (h : LiveAt db userId root d i) : Live db userId (.folder i) := by
  cases h <;> assumption

theorem LiveAt.rootIn (h : LiveAt db userId root d i) (hroot : db.RootIn n root) : db.RootIn (n + d) i := by
  induction h with
  | root => exact hroot
  | child _ hp hlive ih =>
    obtain ⟨r, hr, -⟩ := hlive
    exact .up hr ((parentOf_folder hr).symm.trans hp) ih

/-- There is a folder at every level above. -/
theorem LiveAt.exists_at (h : LiveAt db userId root d i) (he : e ≤ d) : ∃ j, LiveAt db userId root e j := by
  induction h with
  | root hlive =>
    rw [Nat.le_zero] at he
    exact ⟨root, he ▸ .root hlive⟩
  | @child d p i hup hp hlive ih =>
    rcases Nat.le_succ_iff.mp he with hle | rfl
    · exact ih hle
    · exact ⟨i, .child hup hp hlive⟩

/-- Of two folders above one, the nearer is below the other. -/
theorem LiveAt.between {b a : ℕ} (h : LiveAt db userId root b i) (h' : LiveAt db userId root' a i) (hle : b ≤ a) :
    LiveAt db userId root' (a - b) root := by
  induction h generalizing a with
  | root => exact h'
  | child _ hp _ ih =>
    cases h' with
    | root => omega
    | child hup' hp' _ =>
      cases hp.symm.trans hp'
      have := ih hup' (Nat.le_of_succ_le_succ hle)
      rwa [Nat.add_sub_add_right]

theorem Listed.live {key : ArchiveSelection} (h : Listed db userId roots key) : Live db userId key := by
  cases h <;> assumption

theorem Listed.mono {key : ArchiveSelection} (h : Listed db userId roots key) (hsub : roots ⊆ roots') :
    Listed db userId roots' key := by
  induction h with
  | selected hmem hlive => exact .selected (hsub hmem) hlive
  | inside _ hp hlive ih => exact .inside ih hp hlive

theorem Listed.of_liveAt (h : Listed db userId roots (.folder root)) (hat : LiveAt db userId root d i) :
    Listed db userId roots (.folder i) := by
  induction hat with
  | root => exact h
  | child _ hp hlive ih => exact .inside ih hp hlive

theorem listed_folder : Listed db userId roots (.folder i) ↔
    ∃ r d, .folder r ∈ roots ∧ LiveAt db userId r d i := by
  constructor
  · intro h
    generalize hkey : ArchiveSelection.folder i = key at h
    induction h generalizing i with
    | selected hmem hlive =>
      subst hkey
      exact ⟨i, 0, hmem, .root hlive⟩
    | inside _ hp hlive ih =>
      subst hkey
      obtain ⟨r, d, hr, hat⟩ := ih rfl
      exact ⟨r, d + 1, hr, .child hat hp hlive⟩
  · rintro ⟨r, d, hr, hat⟩
    refine Listed.of_liveAt (.selected hr ?_) hat
    obtain ⟨j, hj⟩ := hat.exists_at (Nat.zero_le d)
    cases hj with
    | root hlive => exact hlive

theorem listed_file : Listed db userId roots (.file i) ↔
    Live db userId (.file i) ∧ (.file i ∈ roots ∨ ∃ p, parentOf db (.file i) = some p ∧ Listed db userId roots (.folder p)) := by
  constructor
  · intro h
    cases h with
    | selected hmem hlive => exact ⟨hlive, .inl hmem⟩
    | inside hlisted hp hlive => exact ⟨hlive, .inr ⟨_, hp, hlisted⟩⟩
  · rintro ⟨hlive, hmem | ⟨p, hp, hlisted⟩⟩
    · exact .selected hmem hlive
    · exact .inside hlisted hp hlive

theorem listed_append {key : ArchiveSelection} : Listed db userId (roots ++ roots') key ↔
    Listed db userId roots key ∨ Listed db userId roots' key := by
  constructor
  · intro h
    induction h with
    | selected hmem hlive => exact (List.mem_append.mp hmem).imp (.selected · hlive) (.selected · hlive)
    | inside _ hp hlive ih => exact ih.imp (.inside · hp hlive) (.inside · hp hlive)
  · rintro (h | h)
    · exact h.mono (List.subset_append_left _ _)
    · exact h.mono (List.subset_append_right _ _)

/-! ## The ancestors of a folder -/

/-- The rows end at a folder without a parent when all of those above were found. -/
theorem rootIn_of_chain {left : ℕ} {visited : List ℕ} (hne : chain db left visited i ≠ [])
    (hlast : ((chain db left visited i).getLast?.any (·.2.parentId.isSome)) = false) :
    ∃ r rest, chain db left visited i = (i, r) :: rest ∧ db.folders.get i = some r ∧ db.RootIn rest.length i := by
  induction left generalizing i visited with
  | zero =>
    unfold chain at hne hlast ⊢
    cases hr : db.folders.get i with
    | none =>
      rw [hr] at hne
      exact absurd rfl hne
    | some r =>
      rw [hr] at hlast
      refine ⟨r, [], rfl, rfl, .top hr ?_⟩
      simpa using hlast
  | succ left ih =>
    unfold chain at hne hlast ⊢
    cases hr : db.folders.get i with
    | none =>
      rw [hr] at hne
      exact absurd rfl hne
    | some r =>
      rw [hr] at hlast
      refine ⟨r, _, rfl, rfl, ?_⟩
      cases hp : r.parentId with
      | none => exact .top hr hp
      | some p =>
        simp only [hp, Option.elim_some] at hlast ⊢
        split at hlast
        · simp [hp] at hlast
        · next hvisited =>
          have htail : chain db left (i :: visited) p ≠ [] := by
            intro hnil
            simp [hnil, hp] at hlast
          rw [List.getLast?_cons_of_ne_nil htail] at hlast
          obtain ⟨q, rest, hchain, hq, hrest⟩ := ih htail hlast
          rw [if_neg hvisited, hchain]
          exact .up hr hp hrest

theorem ancestors_ends : Ends (fun rows => ∃ r rest, rows = (i, r) :: rest ∧ db.folders.get i = some r ∧
      Live db userId (.folder i) ∧ db.RootIn rest.length i) (· ≠ .nameCollision) (ancestors db userId i) := by
  unfold ancestors
  simp only
  split
  · exact fun h => by cases h
  · next h =>
    simp only [Bool.or_eq_true, not_or, Bool.not_eq_true, List.isEmpty_eq_false_iff] at h
    obtain ⟨⟨⟨hne, -⟩, hlast⟩, hall⟩ := h
    obtain ⟨r, rest, hchain, hr, hroot⟩ := rootIn_of_chain hne hlast
    rw [hchain, List.any_cons, Bool.or_eq_false_iff] at hall
    have hlive : db.liveFolder userId i r = true := by simpa using hall.1
    unfold Db.liveFolder at hlive
    simp only [Bool.and_eq_true, decide_eq_true_eq, Bool.not_eq_true'] at hlive
    exact ⟨r, rest, hchain, hr, ⟨r, hr, hlive.1⟩, hroot⟩

/-! ## The tree below a folder -/

theorem mem_treeRound {t : FolderRow} (h : t ∈ treeRound db userId root d) :
    db.folders.get t.id = some t.folder ∧ t.depth = d ∧ LiveAt db userId root d t.id ∧
      ∀ j ∈ t.visited, ∃ e ≤ d, LiveAt db userId root e j := by
  induction d generalizing t with
  | zero =>
    obtain ⟨i, r, hr, hp, rfl⟩ := Table.mem_rows.mp h
    simp only [Bool.and_eq_true, decide_eq_true_eq, Bool.not_eq_true'] at hp
    obtain ⟨⟨rfl, huser⟩, hdel⟩ := hp
    have hat : LiveAt db userId i 0 i := .root ⟨r, hr, huser, hdel⟩
    refine ⟨hr, rfl, hat, fun j hj => ⟨0, le_rfl, ?_⟩⟩
    rw [List.mem_singleton.mp hj]
    exact hat
  | succ d ih =>
    obtain ⟨t', ht', hmem⟩ := List.mem_flatMap.mp h
    obtain ⟨i, r, hr, hp, rfl⟩ := Table.mem_rows.mp hmem
    simp only [Bool.and_eq_true, decide_eq_true_eq, Bool.not_eq_true'] at hp
    obtain ⟨⟨⟨hparent, huser⟩, hdel⟩, -⟩ := hp
    obtain ⟨-, -, hat', hvisited⟩ := ih ht'
    have hat : LiveAt db userId root (d + 1) i := .child hat' ((parentOf_folder hr).trans hparent) ⟨r, hr, huser, hdel⟩
    refine ⟨hr, rfl, hat, fun j hj => ?_⟩
    rcases List.mem_cons.mp hj with rfl | hj
    · exact ⟨d + 1, le_rfl, hat⟩
    · obtain ⟨e, he, hj⟩ := hvisited j hj
      exact ⟨e, he.trans (Nat.le_succ d), hj⟩

/-- No live folder is missed, since the way from the root is without repetition. -/
theorem exists_mem_treeRound (hroot : db.RootIn n root) (h : LiveAt db userId root d i) :
    ∃ t ∈ treeRound db userId root d, t.id = i := by
  induction h with
  | root hlive =>
    obtain ⟨r, hr, huser, hdel⟩ := hlive
    exact ⟨_, Table.mem_rows.mpr ⟨root, r, hr, by simp [huser, hdel], rfl⟩, rfl⟩
  | @child d p i hup hp hlive ih =>
    obtain ⟨t, ht, hid⟩ := ih
    have hat := LiveAt.child hup hp hlive
    obtain ⟨r, hr, huser, hdel⟩ := hlive
    have hnew : i ∉ t.visited := by
      intro hmem
      obtain ⟨e, he, hagain⟩ := (mem_treeRound ht).2.2.2 i hmem
      have := (hagain.rootIn hroot).unique (hat.rootIn hroot)
      omega
    rw [parentOf_folder hr] at hp
    exact ⟨_, List.mem_flatMap.mpr ⟨t, ht, Table.mem_rows.mpr ⟨i, r, hr, by simp [huser, hdel, hp, hid, hnew], rfl⟩⟩, rfl⟩

theorem nodup_treeRound : ((treeRound db userId root d).map (·.id)).Nodup := by
  induction d with
  | zero =>
    unfold treeRound
    rw [Table.map_rows fun _ _ => rfl]
    exact Table.nodup_select _ _
  | succ d ih =>
    unfold treeRound
    rw [List.map_flatMap, List.nodup_flatMap]
    constructor
    · intro t _
      rw [Table.map_rows fun _ _ => rfl]
      exact Table.nodup_select _ _
    · refine (List.pairwise_map.mp ih).imp fun {a b} hne => ?_
      intro i hi hi'
      beta_reduce at hi hi'
      rw [Table.map_rows fun _ _ => rfl] at hi hi'
      obtain ⟨r, hr, hp⟩ := Table.mem_select.mp hi
      obtain ⟨r', hr', hp'⟩ := Table.mem_select.mp hi'
      cases hr.symm.trans hr'
      simp only [Bool.and_eq_true, decide_eq_true_eq] at hp hp'
      exact hne (Option.some.inj (hp.1.1.1.symm.trans hp'.1.1.1))

/-- The rows of the live folders and files of a tree. -/
structure Tree (db : Db) (userId root : ℕ) (folders : List FolderRow) (files : List (ℕ × File)) : Prop where
  nodup : (folders.map (·.id)).Nodup
  row : ∀ t ∈ folders, db.folders.get t.id = some t.folder
  mem : ∀ i, i ∈ folders.map (·.id) ↔ ∃ d, LiveAt db userId root d i
  file_nodup : (files.map (·.1)).Nodup
  file_row : ∀ f ∈ files, db.files.get f.1 = some f.2
  file_mem : ∀ i, i ∈ files.map (·.1) ↔
    Live db userId (.file i) ∧ ∃ p, parentOf db (.file i) = some p ∧ ∃ d, LiveAt db userId root d p

/-- **All of a tree is found**, unless it is too deep or too large. -/
theorem folderTree_ends (hroot : db.RootIn n root) :
    Ends (fun out => Tree db userId root out.1 out.2) (· ≠ .nameCollision) (folderTree db userId root) := by
  unfold folderTree
  simp only
  split
  · exact fun h => by cases h
  · next hfolders =>
    simp only [Bool.or_eq_true, not_or, Bool.not_eq_true, List.any_eq_false] at hfolders
    split
    · exact fun h => by cases h
    · let rows := (List.range (maxDepth + 2)).flatMap (treeRound db userId root)
      have hmem (t : FolderRow) : t ∈ rows ↔ ∃ d < maxDepth + 2, t ∈ treeRound db userId root d := by
        simp only [rows, List.mem_flatMap, List.mem_range]
      have hperm : (rows.insertionSort fun a b => a.before b).Perm rows := List.perm_insertionSort _ _
      have hdeep {t : FolderRow} (ht : t ∈ rows) : t.depth ≤ maxDepth := by
        have := of_decide_eq_false (hfolders.2 t ht).1
        omega
      have hids (i : ℕ) : i ∈ rows.map (·.id) ↔ ∃ d, LiveAt db userId root d i := by
        constructor
        · intro hi
          obtain ⟨t, ht, rfl⟩ := List.mem_map.mp hi
          obtain ⟨d, -, hround⟩ := (hmem t).mp ht
          exact ⟨d, (mem_treeRound hround).2.2.1⟩
        · rintro ⟨d, hat⟩
          by_cases hd : d < maxDepth + 2
          · obtain ⟨t, ht, rfl⟩ := exists_mem_treeRound hroot hat
            exact List.mem_map.mpr ⟨t, (hmem t).mpr ⟨d, hd, ht⟩, rfl⟩
          · -- A deeper tree has a row at the depth that is refused.
            obtain ⟨j, hj⟩ := hat.exists_at (e := maxDepth + 1) (by omega)
            obtain ⟨t, ht, -⟩ := exists_mem_treeRound hroot hj
            have hle := hdeep ((hmem t).mpr ⟨maxDepth + 1, by omega, ht⟩)
            rw [(mem_treeRound ht).2.1] at hle
            omega
      refine ⟨?_, fun t ht => ?_, fun i => ?_, ?_, fun f hf => ?_, fun i => ?_⟩
      · rw [(hperm.map _).nodup_iff]
        simp only [rows]
        rw [List.map_flatMap, List.nodup_flatMap]
        refine ⟨fun d _ => nodup_treeRound, List.nodup_range.imp fun {a b} hne => ?_⟩
        intro i hi hi'
        obtain ⟨t, ht, rfl⟩ := List.mem_map.mp hi
        obtain ⟨t', ht', hid⟩ := List.mem_map.mp hi'
        have hat := (mem_treeRound ht).2.2.1.rootIn hroot
        have hat' := (mem_treeRound ht').2.2.1.rootIn hroot
        rw [hid] at hat'
        exact hne (Nat.add_left_cancel (hat.unique hat'))
      · obtain ⟨d, -, hround⟩ := (hmem t).mp (hperm.mem_iff.mp ht)
        exact (mem_treeRound hround).1
      · rw [(hperm.map _).mem_iff]
        exact hids i
      · rw [Table.map_rows fun _ _ => rfl]
        exact Table.nodup_select _ _
      · obtain ⟨i, r, hr, -, rfl⟩ := Table.mem_rows.mp hf
        exact hr
      · rw [Table.map_rows fun _ _ => rfl, Table.mem_select]
        simp only [Bool.and_eq_true, decide_eq_true_eq, Bool.not_eq_true', Option.any_eq_true]
        constructor
        · rintro ⟨r, hr, ⟨⟨⟨p, hp, hin⟩, huser⟩, hdel⟩, hfile⟩
          exact ⟨⟨r, hr, huser, hdel, hfile⟩, p, (parentOf_file hr).trans hp, (hids p).mp hin⟩
        · rintro ⟨⟨r, hr, huser, hdel, hfile⟩, p, hp, hat⟩
          rw [parentOf_file hr] at hp
          exact ⟨r, hr, ⟨⟨⟨p, hp, (hids p).mpr hat⟩, huser⟩, hdel⟩, hfile⟩

end

/-! ## Members in order -/

/-- If the folder that a member is in is listed, it is among the members, with a path that the member's continues
by a name. -/
def Placed (db : Db) (userId : ℕ) (roots : List ArchiveSelection) (members : List Member) (m : Member) : Prop :=
  ∀ p, parentOf db m.key = some p → Listed db userId roots (.folder p) →
    ∃ q ∈ members, q.key = .folder p ∧ ∃ name, 0x2F ∉ name ∧ m.logicalPath = q.logicalPath ++ 0x2F :: name

/-- Every member has its place after those before it. -/
def Hung (db : Db) (userId : ℕ) (roots : List ArchiveSelection) (members : List Member) : Prop :=
  ∀ before m after, members = before ++ m :: after → Placed db userId roots before m

section Loops

variable {T : Folding} {db : Db} {userId rootId : ℕ} {roots : List ArchiveSelection} {members old : List Member} {m : Member}

theorem Hung.concat (h : Hung db userId roots members) (hm : Placed db userId roots members m) :
    Hung db userId roots (members ++ [m]) := by
  intro before m' after hsplit
  rcases List.eq_nil_or_concat after with rfl | ⟨rest, last, rfl⟩
  · obtain ⟨rfl, hone⟩ := List.append_inj' hsplit rfl
    cases hone
    exact hm
  · rw [List.concat_eq_append, ← List.cons_append, ← List.append_assoc] at hsplit
    exact h before m' rest (List.append_inj' hsplit rfl).1

theorem add_ends (hnew : m.key ∉ members.map (·.key)) :
    Ends (fun ms => ms = members ++ [m]) (· ≠ .nameCollision) (add members m) := by
  unfold add
  rw [if_neg hnew]
  split
  · exact fun h => by cases h
  · rfl

theorem member_ends {id : ℕ} {r : File} {path : JsString} :
    Ends (fun m => m.key = .file id ∧ m.logicalPath = path) (· ≠ .nameCollision) (member id r path) := by
  unfold member
  split
  · exact fun h => by cases h
  · exact ⟨rfl, rfl⟩

/-- What the loop over the folders of a tree keeps. -/
structure FolderLoop (db : Db) (userId : ℕ) (roots : List ArchiveSelection) (old : List Member) (done : List FolderRow)
    (s : (ℕ → Option JsString) × List Member) : Prop where
  keys : s.2.map (·.key) = old.map (·.key) ++ done.map fun t => .folder t.id
  hung : Hung db userId roots s.2
  paths : ∀ i path, s.1 i = some path → ∃ q ∈ s.2, q.key = .folder i ∧ q.logicalPath = path

theorem FolderLoop.step {done : List FolderRow} {s : (ℕ → Option JsString) × List Member} {t : FolderRow}
    {topName : JsString} (h : FolderLoop db userId roots old done s) (hrow : db.folders.get t.id = some t.folder)
    (hnew : .folder t.id ∉ s.2.map (·.key))
    (htop : ∀ p, parentOf db (.folder rootId) = some p → ¬Listed db userId roots (.folder p)) :
    Ends (FolderLoop db userId roots old (done ++ [t])) (· ≠ .nameCollision) (addFolder T rootId topName s t) := by
  have hpath : Ends (fun path => ∀ m : Member, m.key = .folder t.id → m.logicalPath = path →
      Placed db userId roots s.2 m) (· ≠ .nameCollision)
      (folderPath T rootId topName s.1 t) := by
    unfold folderPath
    split
    · next hid =>
      intro m hkey _ p hp hlisted
      rw [hkey, hid] at hp
      exact absurd hlisted (htop p hp)
    · split
      · exact fun h => by cases h
      · next parent hparent =>
        refine (segment_ends _).bind fun name hname => ?_
        intro m hkey hlogical p hp _
        rw [hkey, parentOf_folder hrow] at hp
        rw [hp, Option.bind_some] at hparent
        obtain ⟨q, hq, hqkey, hqpath⟩ := h.paths p parent hparent
        exact ⟨q, hq, hqkey, name, hname.2, hlogical.trans (by rw [hqpath])⟩
  unfold addFolder
  refine hpath.bind fun path hplaced => (add_ends (m := folderMember t.id t.folder path) hnew).bind ?_
  rintro _ rfl
  refine ⟨?_, h.hung.concat (hplaced _ rfl rfl), fun i path' hi => ?_⟩
  · rw [List.map_append, h.keys, List.map_append, List.append_assoc]
    rfl
  · simp only at hi
    split at hi
    · next hid =>
      cases hi
      exact ⟨_, List.mem_append_right _ List.mem_cons_self, congrArg _ hid.symm, rfl⟩
    · obtain ⟨q, hq, hqkey, hqpath⟩ := h.paths i path' hi
      exact ⟨q, List.mem_append_left _ hq, hqkey, hqpath⟩

/-- What the loop over the files of a tree keeps. -/
structure FileLoop (db : Db) (userId : ℕ) (roots : List ArchiveSelection) (old : List Member)
    (paths : ℕ → Option JsString) (done : List (ℕ × File)) (members : List Member) : Prop where
  keys : members.map (·.key) = old.map (·.key) ++ done.map fun f => .file f.1
  hung : Hung db userId roots members
  paths : ∀ i path, paths i = some path → ∃ q ∈ members, q.key = .folder i ∧ q.logicalPath = path

theorem FileLoop.step {paths : ℕ → Option JsString} {done : List (ℕ × File)} {f : ℕ × File}
    (h : FileLoop db userId roots old paths done members) (hrow : db.files.get f.1 = some f.2)
    (hnew : .file f.1 ∉ members.map (·.key)) :
    Ends (FileLoop db userId roots old paths (done ++ [f])) (· ≠ .nameCollision) (addFile T paths members f) := by
  unfold addFile
  split
  · exact fun h => by cases h
  · exact fun h => by cases h
  · next parent _ hparent =>
    refine (segment_ends _).bind fun name hname => member_ends.bind fun m hm => ?_
    rw [← hm.1] at hnew
    refine (add_ends hnew).mono ?_
    rintro _ rfl
    refine ⟨?_, h.hung.concat fun p hp _ => ?_, fun i path hi => ?_⟩
    · rw [List.map_append, h.keys, List.map_append, List.append_assoc, List.map_singleton, List.map_singleton, hm.1]
    · rw [hm.1, parentOf_file hrow] at hp
      rw [hp, Option.bind_some] at hparent
      obtain ⟨q, hq, hqkey, hqpath⟩ := h.paths p parent hparent
      exact ⟨q, hq, hqkey, name, hname.2, hm.2.trans (by rw [hqpath])⟩
    · obtain ⟨q, hq, hqkey, hqpath⟩ := h.paths i path hi
      exact ⟨q, List.mem_append_left _ hq, hqkey, hqpath⟩

/-- What the loop over the selected folders keeps. -/
structure FoldersDone (db : Db) (userId : ℕ) (roots : List ArchiveSelection) (done : List FolderRoot) (s : Draft) : Prop where
  nodup : (s.members.map (·.key)).Nodup
  mem : ∀ key, key ∈ s.members.map (·.key) ↔ Listed db userId (done.map fun r => .folder r.id) key
  hung : Hung db userId roots s.members
  names : s.topNames.length ≤ done.length

/-- A selected folder that was found, with its depth. -/
def Found (db : Db) (userId : ℕ) (r : FolderRoot) : Prop :=
  Live db userId (.folder r.id) ∧ ∃ n, db.RootIn n r.id ∧ r.depth = n + 1

/-- Of a tree whose root is not listed yet nothing is. -/
theorem not_listed_of_root {done : List FolderRoot} {r : FolderRoot} {d i : ℕ} (hfound : ∀ q ∈ done, Found db userId q)
    (hr : Found db userId r) (hdepth : ∀ q ∈ done, q.depth ≤ r.depth)
    (hroot : ¬Listed db userId (done.map fun q => .folder q.id) (.folder r.id)) (hat : LiveAt db userId r.id d i) :
    ¬Listed db userId (done.map fun q => .folder q.id) (.folder i) := by
  intro hlisted
  obtain ⟨j, a, hj, hat'⟩ := listed_folder.mp hlisted
  obtain ⟨q, hq, hqid⟩ := List.mem_map.mp hj
  cases hqid
  obtain ⟨-, n, hn, hrn⟩ := hr
  obtain ⟨-, k, hk, hqk⟩ := hfound q hq
  have hsame := (hat.rootIn hn).unique (hat'.rootIn hk)
  have hle := hdepth q hq
  exact hroot (listed_folder.mpr ⟨q.id, a - d, hj, hat.between hat' (by omega)⟩)

/-- **One selected folder.** -/
theorem FoldersDone.step {done : List FolderRoot} {s : Draft} {r : FolderRoot} (h : FoldersDone db userId roots done s)
    (hfound : ∀ q ∈ done, Found db userId q) (hr : Found db userId r) (hdepth : ∀ q ∈ done, q.depth ≤ r.depth)
    (hroots : ∀ i, .folder i ∈ roots → ∃ q, Found db userId q ∧ q.id = i ∧ (q ∈ done ∨ r.depth ≤ q.depth))
    (hlength : done.length < maxRoots) :
    Ends (FoldersDone db userId roots (done ++ [r])) (· ≠ .nameCollision) (addFolderRoot T db userId s r) := by
  unfold addFolderRoot
  have hlisted (key : ArchiveSelection) : Listed db userId ((done ++ [r]).map fun q => .folder q.id) key ↔
      Listed db userId (done.map fun q => .folder q.id) key ∨ Listed db userId [.folder r.id] key := by
    rw [List.map_append, listed_append, List.map_singleton]
  have hbelow (i : ℕ) : Listed db userId [.folder r.id] (.folder i) ↔ ∃ d, LiveAt db userId r.id d i := by
    rw [listed_folder]
    constructor
    · rintro ⟨j, d, hj, hat⟩
      cases List.mem_singleton.mp hj
      exact ⟨d, hat⟩
    · rintro ⟨d, hat⟩
      exact ⟨r.id, d, List.mem_singleton_self _, hat⟩
  split
  · next hseen =>
    refine ⟨h.nodup, fun key => ?_, h.hung, h.names.trans (by simp)⟩
    rw [h.mem, hlisted]
    have hroot := (h.mem _).mp hseen
    refine ⟨Or.inl, ?_⟩
    rintro (hold | hkey)
    · exact hold
    -- What is below the folder was listed with it.
    induction hkey with
    | selected hmem => exact (List.mem_singleton.mp hmem) ▸ hroot
    | inside _ hp hlive ih => exact .inside ih hp hlive
  · next hseen =>
    rw [h.mem] at hseen
    obtain ⟨n, hn, hrn⟩ := hr.2
    refine (reserveRootName_ends r.name (lt_of_le_of_lt h.names hlength)).bind fun top htop => ?_
    refine (folderTree_ends hn).bind fun tree htree => ?_
    have hfresh {i : ℕ} (hi : i ∈ tree.1.map (·.id)) : .folder i ∉ s.members.map (·.key) := by
      obtain ⟨d, hat⟩ := (htree.mem i).mp hi
      rw [h.mem]
      exact not_listed_of_root hfound hr hdepth hseen hat
    have hfileFresh {i : ℕ} (hi : i ∈ tree.2.map (·.1)) : .file i ∉ s.members.map (·.key) := by
      obtain ⟨-, p, hp, d, hat⟩ := (htree.file_mem i).mp hi
      rw [h.mem, listed_file]
      rintro ⟨-, hmem | ⟨p', hp', hl⟩⟩
      · simp at hmem
      · cases hp.symm.trans hp'
        exact not_listed_of_root hfound hr hdepth hseen hat hl
    have hparent : ∀ p, parentOf db (.folder r.id) = some p → ¬Listed db userId roots (.folder p) := by
      intro p hp hl
      obtain ⟨j, a, hj, hat⟩ := listed_folder.mp hl
      obtain ⟨q, hq, rfl, hdone⟩ := hroots j hj
      obtain ⟨-, k, hk, hqk⟩ := hq
      have hat' : LiveAt db userId q.id (a + 1) r.id := .child hat hp hr.1
      have hsame := (hat'.rootIn hk).unique hn
      rcases hdone with hdone | hle
      · exact hseen (listed_folder.mpr ⟨q.id, a + 1, List.mem_map.mpr ⟨q, hdone, rfl⟩, hat'⟩)
      · omega
    have hfolders : Ends (FolderLoop db userId roots s.members tree.1) (· ≠ .nameCollision)
        (tree.1.foldlM (addFolder T r.id top.1) (fun _ => none, s.members)) := by
      refine Ends.foldlM (FolderLoop db userId roots s.members) ⟨by simp, h.hung, fun i path hi => by cases hi⟩ ?_
      intro passed t rest st hsplit hloop
      have ht : t ∈ tree.1 := hsplit ▸ List.mem_append_right passed List.mem_cons_self
      refine hloop.step (htree.row t ht) ?_ hparent
      rw [hloop.keys, List.mem_append]
      rintro (hold | hpassed)
      · exact hfresh (List.mem_map_of_mem (f := (·.id)) ht) hold
      · have hnodup := htree.nodup
        rw [hsplit, List.map_append, List.map_cons, List.nodup_append'] at hnodup
        obtain ⟨t', ht', hid⟩ := List.mem_map.mp hpassed
        refine hnodup.2.2 (List.mem_map.mpr ⟨t', ht', rfl⟩) ?_
        rw [ArchiveSelection.folder.inj hid]
        exact List.mem_cons_self
    refine hfolders.bind fun st hst => ?_
    have hfiles : Ends (FileLoop db userId roots st.2 st.1 tree.2) (· ≠ .nameCollision)
        (tree.2.foldlM (addFile T st.1) st.2) := by
      refine Ends.foldlM (FileLoop db userId roots st.2 st.1) ⟨by simp, hst.hung, hst.paths⟩ ?_
      intro passed f rest ms hsplit hloop
      have hf : f ∈ tree.2 := hsplit ▸ List.mem_append_right passed List.mem_cons_self
      refine hloop.step (htree.file_row f hf) ?_
      rw [hloop.keys, hst.keys, List.mem_append, List.mem_append]
      rintro ((hold | hfolder) | hpassed)
      · exact hfileFresh (List.mem_map_of_mem (f := (·.1)) hf) hold
      · simp at hfolder
      · have hnodup := htree.file_nodup
        rw [hsplit, List.map_append, List.map_cons, List.nodup_append'] at hnodup
        obtain ⟨f', hf', hid⟩ := List.mem_map.mp hpassed
        refine hnodup.2.2 (List.mem_map.mpr ⟨f', hf', rfl⟩) ?_
        rw [ArchiveSelection.file.inj hid]
        exact List.mem_cons_self
    refine hfiles.bind fun ms hms => ?_
    have hkeys : ms.map (·.key) = s.members.map (·.key) ++
        (tree.1.map (fun t => ArchiveSelection.folder t.id) ++ tree.2.map fun f => ArchiveSelection.file f.1) := by
      rw [hms.keys, hst.keys, List.append_assoc]
    refine ⟨?_, fun key => ?_, hms.hung, ?_⟩
    · simp only
      rw [hkeys, List.nodup_append', List.nodup_append']
      refine ⟨h.nodup, ⟨?_, ?_, ?_⟩, ?_⟩
      · have := htree.nodup.map (f := ArchiveSelection.folder) fun a b h => ArchiveSelection.folder.inj h
        rwa [List.map_map] at this
      · have := htree.file_nodup.map (f := ArchiveSelection.file) fun a b h => ArchiveSelection.file.inj h
        rwa [List.map_map] at this
      · intro key hfolder hfile
        obtain ⟨t, -, rfl⟩ := List.mem_map.mp hfolder
        simp at hfile
      · intro key hold hnew
        rcases List.mem_append.mp hnew with hfolder | hfile
        · obtain ⟨t, ht, rfl⟩ := List.mem_map.mp hfolder
          exact hfresh (List.mem_map_of_mem (f := (·.id)) ht) hold
        · obtain ⟨f, hf, rfl⟩ := List.mem_map.mp hfile
          exact hfileFresh (List.mem_map_of_mem (f := (·.1)) hf) hold
    · simp only
      rw [hkeys, List.mem_append, List.mem_append, h.mem, hlisted]
      refine or_congr_right ?_
      cases key with
      | folder i =>
        rw [hbelow, ← htree.mem]
        simp
      | file i =>
        have hin := htree.file_mem i
        rw [listed_file]
        simp only [hbelow, List.mem_singleton, reduceCtorEq, false_or]
        rw [← hin]
        simp
    · simp only [List.length_append, List.length_singleton]
      rw [htop]
      have := h.names
      omega

/-- What the loop over the selected files keeps. -/
structure FilesDone (db : Db) (userId : ℕ) (roots : List ArchiveSelection) (folders : List FolderRoot)
    (done : List (ℕ × File)) (s : Draft) : Prop where
  nodup : (s.members.map (·.key)).Nodup
  mem : ∀ key, key ∈ s.members.map (·.key) ↔
    Listed db userId (folders.map fun r => .folder r.id) key ∨ key ∈ done.map fun f => .file f.1
  hung : Hung db userId roots s.members
  names : s.topNames.length ≤ folders.length + done.length

/-- **One selected file.** -/
theorem FilesDone.step {folders : List FolderRoot} {done : List (ℕ × File)} {s : Draft} {f : ℕ × File}
    (h : FilesDone db userId roots folders done s) (hlive : Live db userId (.file f.1))
    (hroots : ∀ i, .folder i ∈ roots → i ∈ folders.map (·.id)) (hlength : folders.length + done.length < maxRoots) :
    Ends (FilesDone db userId roots folders (done ++ [f])) (· ≠ .nameCollision) (addFileRoot T s f) := by
  unfold addFileRoot
  split
  · next hseen =>
    refine ⟨h.nodup, fun key => ?_, h.hung, h.names.trans (by simp)⟩
    rw [List.map_append, List.mem_append, ← or_assoc, ← h.mem, List.map_singleton, List.mem_singleton]
    refine ⟨Or.inl, ?_⟩
    rintro (hold | rfl)
    · exact hold
    · exact hseen
  · next hseen =>
    refine (reserveRootName_ends f.2.name.val (lt_of_le_of_lt h.names hlength)).bind fun top htop => ?_
    refine member_ends.bind fun m hm => ?_
    rw [← hm.1] at hseen
    refine (add_ends hseen).bind ?_
    rintro _ rfl
    refine ⟨?_, fun key => ?_, h.hung.concat fun p hp hlisted => ?_, ?_⟩
    · simp only [List.map_append, List.map_singleton]
      exact List.nodup_append'.mpr ⟨h.nodup, List.nodup_singleton _, by simpa using hseen⟩
    · simp only [List.map_append, List.map_singleton]
      rw [List.mem_append, h.mem, List.mem_append, or_assoc, hm.1]
    · -- Its folder is not listed, or the file were in a tree.
      rw [hm.1] at hp hseen
      refine absurd ((h.mem _).mpr (.inl (.inside ?_ hp hlive))) hseen
      obtain ⟨i, d, hi, hat⟩ := listed_folder.mp hlisted
      obtain ⟨r, hr, rfl⟩ := List.mem_map.mp (hroots i hi)
      exact listed_folder.mpr ⟨r.id, d, List.mem_map.mpr ⟨r, hr, rfl⟩, hat⟩
    · simp only [List.length_append, List.length_singleton]
      rw [htop]
      have := h.names
      omega

/-! ## What was selected is found -/

/-- What a look-up says of what was selected. -/
def Resolved (db : Db) (userId : ℕ) (root : ArchiveSelection) : FolderRoot ⊕ (ℕ × File) → Prop
  | .inl r => root = .folder r.id ∧ Found db userId r
  | .inr f => root = .file f.1 ∧ Live db userId (.file f.1)

theorem resolve_ends (root : ArchiveSelection) :
    Ends (Resolved db userId root) (· ≠ .nameCollision) (resolve db userId root) := by
  cases root with
  | folder id =>
    unfold resolve
    refine ancestors_ends.bind ?_
    rintro _ ⟨r, rest, rfl, -, hlive, hroot⟩
    exact ⟨rfl, hlive, rest.length, hroot, rfl⟩
  | file id =>
    have hfile : Ends (fun _ => Live db userId (.file id)) (· ≠ .nameCollision) (file db userId id) := by
      unfold file
      split
      · exact fun h => by cases h
      · next r hr =>
        split
        · exact fun h => by cases h
        · next h =>
          simp only [Bool.or_eq_true, not_or, Bool.not_eq_true, decide_eq_true_eq, not_not] at h
          exact ⟨r, hr, h.1.1.1, h.1.1.2, h.1.2⟩
    unfold resolve
    refine hfile.bind fun row hlive => ?_
    split
    · exact ancestors_ends.bind fun _ _ => ⟨rfl, hlive⟩
    · exact ⟨rfl, hlive⟩

theorem validate_ends : Ends (fun _ => (members.map fun m => T.toLocaleLowerCase (T.normalize m.logicalPath)).Nodup)
    (· ≠ .nameCollision) (validateManifest T members) := by
  have hcheck : Ends (fun s => s.1 = (members.map fun m => T.toLocaleLowerCase (T.normalize m.logicalPath)).reverse ∧
      s.1.Nodup) (· ≠ .nameCollision) (members.foldlM (checkMember T) ([], 0)) := by
    refine Ends.foldlM (fun (done : List Member) (s : List JsString × ℕ) =>
      s.1 = (done.map fun m => T.toLocaleLowerCase (T.normalize m.logicalPath)).reverse ∧ s.1.Nodup)
      ⟨rfl, List.nodup_nil⟩ fun done m rest s _ hs => ?_
    have hadd (hnew : T.toLocaleLowerCase (T.normalize m.logicalPath) ∉ s.1) :
        T.toLocaleLowerCase (T.normalize m.logicalPath) :: s.1 =
          ((done ++ [m]).map fun m => T.toLocaleLowerCase (T.normalize m.logicalPath)).reverse ∧
        (T.toLocaleLowerCase (T.normalize m.logicalPath) :: s.1).Nodup :=
      ⟨by rw [List.map_append, List.reverse_append, hs.1]; rfl, List.nodup_cons.mpr ⟨hnew, hs.2⟩⟩
    unfold checkMember
    simp only
    split
    · exact fun h => by cases h
    · split
      · exact fun h => by cases h
      · next hnew =>
        split
        · exact hadd hnew
        · split
          · exact fun h => by cases h
          · split
            · exact fun h => by cases h
            · exact hadd hnew
  unfold validateManifest
  split
  · exact fun h => by cases h
  · exact hcheck.bind fun s hs => List.nodup_reverse.mp (hs.1 ▸ hs.2)

/-! ## The plan -/

section Order

instance : Std.Total fun a b : FolderRoot => (a.before b : Prop) where
  total a b := by
    simp only [FolderRoot.before, Bool.or_eq_true, Bool.and_eq_true, decide_eq_true_eq, beq_iff_eq]
    omega

instance : IsTrans FolderRoot fun a b => (a.before b : Prop) where
  trans a b c := by
    simp only [FolderRoot.before, Bool.or_eq_true, Bool.and_eq_true, decide_eq_true_eq, beq_iff_eq]
    omega

theorem depth_le_of_before {a b : FolderRoot} (h : a.before b = true) : a.depth ≤ b.depth := by
  simp only [FolderRoot.before, Bool.or_eq_true, Bool.and_eq_true, decide_eq_true_eq, beq_iff_eq] at h
  omega

variable {found found' : List (FolderRoot ⊕ (ℕ × File))} {r : FolderRoot} {f : ℕ × File}

theorem mem_folderRoots : r ∈ folderRoots found ↔ .inl r ∈ found := by
  unfold folderRoots
  simp [List.mem_insertionSort]

theorem mem_fileRoots : f ∈ fileRoots found ↔ .inr f ∈ found := by
  unfold fileRoots
  simp [List.mem_insertionSort]

theorem length_roots : (folderRoots found).length + (fileRoots found).length = found.length := by
  unfold folderRoots fileRoots
  rw [List.length_insertionSort, List.length_insertionSort]
  induction found with
  | nil => rfl
  | cons x found ih =>
    cases x with
    | inl r =>
      simp only [List.filterMap_cons, Sum.getLeft?_inl, Sum.getRight?_inl, List.length_cons]
      omega
    | inr f =>
      simp only [List.filterMap_cons, Sum.getLeft?_inr, Sum.getRight?_inr, List.length_cons]
      omega

/-- Sorted lists of things with one identifier each do not depend on the order before. -/
theorem folderRoots_perm (h : found.Perm found')
    (hid : ∀ a b, .inl a ∈ found → .inl b ∈ found → a.id = b.id → a = b) : folderRoots found = folderRoots found' := by
  refine List.Perm.eq_of_pairwise (fun a b ha hb hab hba => ?_)
    (List.pairwise_insertionSort (fun a b : FolderRoot => a.before b = true) _) (List.pairwise_insertionSort _ _) ?_
  · refine hid a b (mem_folderRoots.mp ha) (h.mem_iff.mpr (mem_folderRoots.mp hb)) ?_
    simp only [FolderRoot.before, Bool.or_eq_true, Bool.and_eq_true, decide_eq_true_eq, beq_iff_eq] at hab hba
    omega
  · exact (List.perm_insertionSort _ _).trans ((h.filterMap _).trans (List.perm_insertionSort _ _).symm)

theorem fileRoots_perm (h : found.Perm found')
    (hid : ∀ a b, .inr a ∈ found → .inr b ∈ found → a.1 = b.1 → a = b) : fileRoots found = fileRoots found' := by
  have : Std.Total fun a b : ℕ × File => a.1 ≤ b.1 := ⟨fun a b => le_total a.1 b.1⟩
  have : IsTrans (ℕ × File) fun a b => a.1 ≤ b.1 := ⟨fun _ _ _ => le_trans⟩
  refine List.Perm.eq_of_pairwise (fun a b ha hb hab hba => ?_)
    (List.pairwise_insertionSort (fun a b : ℕ × File => a.1 ≤ b.1) _) (List.pairwise_insertionSort _ _) ?_
  · exact hid a b (mem_fileRoots.mp ha) (h.mem_iff.mpr (mem_fileRoots.mp hb)) (le_antisymm hab hba)
  · exact (List.perm_insertionSort _ _).trans ((h.filterMap _).trans (List.perm_insertionSort _ _).symm)

end Order

/-- Every member once; what is selected and what is below it; one path for each, also in normal form and lower case;
and every member after its folder. -/
structure Lists (T : Folding) (db : Db) (userId : ℕ) (roots : List ArchiveSelection) (members : List Member) : Prop where
  nodup : (members.map (·.key)).Nodup
  mem : ∀ key, key ∈ members.map (·.key) ↔ Listed db userId roots key
  paths : (members.map fun m => T.toLocaleLowerCase (T.normalize m.logicalPath)).Nodup
  hung : Hung db userId roots members

/-- What was found for a selection. -/
structure Search (db : Db) (userId : ℕ) (roots : List ArchiveSelection) (found : List (FolderRoot ⊕ (ℕ × File))) : Prop where
  length : found.length = roots.length
  root : ∀ x ∈ found, ∃ root ∈ roots, Resolved db userId root x ∧ resolve db userId root = .ok x
  found : ∀ root ∈ roots, ∃ x ∈ found, Resolved db userId root x

theorem search_of_map_eq {found : List (FolderRoot ⊕ (ℕ × File))} (h : roots.map (resolve db userId) = found.map .ok) :
    Search db userId roots found := by
  have hends {root : ArchiveSelection} {x : FolderRoot ⊕ (ℕ × File)} (hx : resolve db userId root = .ok x) :
      Resolved db userId root x := by
    have : Ends (Resolved db userId root) (· ≠ .nameCollision) (resolve db userId root) := resolve_ends root
    rwa [hx] at this
  refine ⟨?_, fun x hx => ?_, fun root hroot => ?_⟩
  · have := congrArg List.length h
    rw [List.length_map, List.length_map] at this
    exact this.symm
  · have hmem : Except.ok x ∈ roots.map (resolve db userId) := h ▸ List.mem_map_of_mem hx
    obtain ⟨root, hroot, heq⟩ := List.mem_map.mp hmem
    exact ⟨root, hroot, hends heq, heq⟩
  · have hmem : resolve db userId root ∈ found.map Except.ok := h ▸ List.mem_map_of_mem hroot
    obtain ⟨x, hx, heq⟩ := List.mem_map.mp hmem
    exact ⟨x, hx, hends heq.symm⟩

namespace Search

variable {found : List (FolderRoot ⊕ (ℕ × File))} (h : Search db userId roots found)

include h

theorem folder {r : FolderRoot} (hr : r ∈ folderRoots found) : .folder r.id ∈ roots ∧ Found db userId r := by
  obtain ⟨root, hroot, ⟨rfl, hfound⟩, -⟩ := h.root _ (mem_folderRoots.mp hr)
  exact ⟨hroot, hfound⟩

theorem file {f : ℕ × File} (hf : f ∈ fileRoots found) : .file f.1 ∈ roots ∧ Live db userId (.file f.1) := by
  obtain ⟨root, hroot, ⟨rfl, hlive⟩, -⟩ := h.root _ (mem_fileRoots.mp hf)
  exact ⟨hroot, hlive⟩

theorem exists_folder {i : ℕ} (hi : .folder i ∈ roots) : ∃ r ∈ folderRoots found, r.id = i := by
  obtain ⟨x, hx, hres⟩ := h.found _ hi
  cases x with
  | inl r => exact ⟨r, mem_folderRoots.mpr hx, (ArchiveSelection.folder.inj hres.1).symm⟩
  | inr f => cases hres.1

theorem exists_file {i : ℕ} (hi : .file i ∈ roots) : ∃ f ∈ fileRoots found, f.1 = i := by
  obtain ⟨x, hx, hres⟩ := h.found _ hi
  cases x with
  | inl r => cases hres.1
  | inr f => exact ⟨f, mem_fileRoots.mpr hx, (ArchiveSelection.file.inj hres.1).symm⟩

/-- What is listed is listed with the folders or selected as a file. -/
theorem listed_iff {key : ArchiveSelection} : Listed db userId roots key ↔
    Listed db userId ((folderRoots found).map fun r => .folder r.id) key ∨
      key ∈ (fileRoots found).map fun f => .file f.1 := by
  constructor
  · intro hlisted
    induction hlisted with
    | @selected key hmem hlive =>
      cases key with
      | folder i =>
        obtain ⟨r, hr, rfl⟩ := h.exists_folder hmem
        exact .inl (.selected (List.mem_map.mpr ⟨r, hr, rfl⟩) hlive)
      | file i =>
        obtain ⟨f, hf, rfl⟩ := h.exists_file hmem
        exact .inr (List.mem_map.mpr ⟨f, hf, rfl⟩)
    | inside _ hp hlive ih =>
      rcases ih with hfolder | hfile
      · exact .inl (.inside hfolder hp hlive)
      · simp at hfile
  · rintro (hlisted | hfile)
    · refine hlisted.mono fun key hkey => ?_
      obtain ⟨r, hr, rfl⟩ := List.mem_map.mp hkey
      exact (h.folder hr).1
    · obtain ⟨f, hf, rfl⟩ := List.mem_map.mp hfile
      exact .selected (h.file hf).1 (h.file hf).2

/-- The first loop. -/
theorem folders_ends (hlength : roots.length ≤ maxRoots) :
    Ends (FoldersDone db userId roots (folderRoots found)) (· ≠ .nameCollision)
      ((folderRoots found).foldlM (addFolderRoot T db userId) ⟨[], []⟩) := by
  have hstart : FoldersDone db userId roots [] ⟨[], []⟩ := by
    refine ⟨List.nodup_nil, fun key => ⟨fun hmem => (by cases hmem), fun hlisted => ?_⟩, fun before m after hsplit => ?_, le_rfl⟩
    · induction hlisted with
      | selected hmem => cases hmem
      | inside _ _ _ ih => cases ih
    · simp at hsplit
  refine Ends.foldlM (FoldersDone db userId roots) hstart fun done r rest s hsplit hdone => ?_
  have hmem (q : FolderRoot) : q ∈ folderRoots found ↔ q ∈ done ∨ q ∈ r :: rest := by
    rw [hsplit, List.mem_append]
  have hsorted : (done ++ r :: rest).Pairwise fun a b => a.before b = true := by
    rw [← hsplit]
    exact List.pairwise_insertionSort _ _
  obtain ⟨-, htail, hbefore⟩ := List.pairwise_append.mp hsorted
  refine hdone.step (fun q hq => (h.folder ((hmem q).mpr (.inl hq))).2)
    (h.folder ((hmem r).mpr (.inr List.mem_cons_self))).2
    (fun q hq => depth_le_of_before (hbefore q hq r List.mem_cons_self)) (fun i hi => ?_) ?_
  · obtain ⟨q, hq, hid⟩ := h.exists_folder hi
    refine ⟨q, (h.folder hq).2, hid, ((hmem q).mp hq).imp id fun hrest => ?_⟩
    rcases List.mem_cons.mp hrest with rfl | hrest
    · exact le_rfl
    · exact depth_le_of_before ((List.pairwise_cons.mp htail).1 q hrest)
  · have hcount : (folderRoots found).length + (fileRoots found).length = found.length := length_roots
    rw [hsplit, List.length_append, List.length_cons, h.length] at hcount
    omega

/-- The second loop. -/
theorem files_ends {s : Draft} (hs : FoldersDone db userId roots (folderRoots found) s) (hlength : roots.length ≤ maxRoots) :
    Ends (FilesDone db userId roots (folderRoots found) (fileRoots found)) (· ≠ .nameCollision)
      ((fileRoots found).foldlM (addFileRoot T) s) := by
  have hstart : FilesDone db userId roots (folderRoots found) [] s :=
    ⟨hs.nodup, fun key => by simpa using hs.mem key, hs.hung, hs.names⟩
  refine Ends.foldlM (FilesDone db userId roots (folderRoots found)) hstart fun done f rest s hsplit hdone => ?_
  have hf : f ∈ fileRoots found := hsplit ▸ List.mem_append_right done List.mem_cons_self
  refine hdone.step (h.file hf).2 (fun i hi => ?_) ?_
  · obtain ⟨r, hr, rfl⟩ := h.exists_folder hi
    exact List.mem_map_of_mem hr
  · have hcount : (folderRoots found).length + (fileRoots found).length = found.length := length_roots
    rw [hsplit, List.length_append, List.length_cons, h.length] at hcount
    omega

end Search

/-- **What a plan lists.** -/
theorem plan_ends (hlength : roots.length ≤ maxRoots) :
    Ends (Lists T db userId roots) (· ≠ .nameCollision) (plan T db userId roots) := by
  unfold plan
  refine (Ends.mapM fun root => (resolve_ends root).mono fun _ _ => trivial).bind fun found hfound => ?_
  have hsearch := search_of_map_eq hfound
  refine (hsearch.folders_ends hlength).bind fun s hs => ?_
  refine (hsearch.files_ends hs hlength).bind fun s' hs' => ?_
  refine validate_ends.bind fun _ hpaths => ?_
  exact ⟨hs'.nodup, fun key => (hs'.mem key).trans hsearch.listed_iff.symm, hpaths, hs'.hung⟩

/-- The results for a list in another order. -/
theorem exists_perm_of_map_eq {α β ε : Type} {f : α → Except ε β} {l l' : List α} {bs : List β} (h : l.Perm l')
    (hmap : l.map f = bs.map .ok) : ∃ bs', l'.map f = bs'.map .ok ∧ bs.Perm bs' := by
  induction h generalizing bs with
  | nil => exact ⟨bs, hmap, .refl bs⟩
  | cons a _ ih =>
    obtain ⟨b, bs, rfl, hb, hbs⟩ := List.map_eq_cons_iff.mp hmap.symm
    obtain ⟨bs', hbs', hperm⟩ := ih hbs.symm
    exact ⟨b :: bs', by rw [List.map_cons, List.map_cons, hb, hbs'], hperm.cons b⟩
  | swap a a' l =>
    obtain ⟨b, bs, rfl, hb, hbs⟩ := List.map_eq_cons_iff.mp hmap.symm
    obtain ⟨b', bs, rfl, hb', hbs'⟩ := List.map_eq_cons_iff.mp hbs
    exact ⟨b' :: b :: bs, by simp only [List.map_cons, hb, hb', hbs'], .swap b' b bs⟩
  | trans _ _ ih ih' =>
    obtain ⟨bs', hbs', hperm⟩ := ih hmap
    obtain ⟨bs'', hbs'', hperm'⟩ := ih' hbs'
    exact ⟨bs'', hbs'', hperm.trans hperm'⟩

theorem mapM_of_map_eq {α β ε : Type} {f : α → Except ε β} {l : List α} {bs : List β} (h : l.map f = bs.map .ok) :
    l.mapM f = .ok bs := by
  induction l generalizing bs with
  | nil =>
    rw [List.map_nil] at h
    rw [List.map_eq_nil_iff.mp h.symm]
    rfl
  | cons a l ih =>
    obtain ⟨b, bs, rfl, hb, hbs⟩ := List.map_eq_cons_iff.mp h.symm
    rw [List.mapM_cons, ← hb, ih hbs.symm]
    rfl

/-- **The order of the selection does not matter.** -/
theorem plan_perm {roots' : List ArchiveSelection} (h : roots.Perm roots') (hplan : plan T db userId roots = .ok members) :
    plan T db userId roots' = .ok members := by
  have hmap : Ends (fun found => roots.map (resolve db userId) = found.map .ok) (fun _ => True)
      (roots.mapM (resolve db userId)) :=
    Ends.mapM fun root => by cases resolve db userId root <;> trivial
  unfold plan at hplan ⊢
  cases hfound : roots.mapM (resolve db userId) with
  | error e =>
    rw [hfound] at hplan
    cases hplan
  | ok found =>
    rw [hfound] at hmap hplan
    obtain ⟨found', hmap', hperm⟩ := exists_perm_of_map_eq h hmap
    have hsearch := search_of_map_eq (show roots.map (resolve db userId) = found.map .ok from hmap)
    have hfolders : folderRoots found = folderRoots found' := by
      refine folderRoots_perm hperm fun a b ha hb hid => ?_
      obtain ⟨root, -, ⟨rfl, -⟩, heq⟩ := hsearch.root _ ha
      obtain ⟨root', -, ⟨rfl, -⟩, heq'⟩ := hsearch.root _ hb
      rw [hid] at heq
      exact Sum.inl.inj (Except.ok.inj (heq.symm.trans heq'))
    have hfiles : fileRoots found = fileRoots found' := by
      refine fileRoots_perm hperm fun a b ha hb hid => ?_
      obtain ⟨root, -, ⟨rfl, -⟩, heq⟩ := hsearch.root _ ha
      obtain ⟨root', -, ⟨rfl, -⟩, heq'⟩ := hsearch.root _ hb
      rw [hid] at heq
      exact Sum.inr.inj (Except.ok.inj (heq.symm.trans heq'))
    rw [mapM_of_map_eq hmap']
    dsimp only [bind, Except.bind] at hplan ⊢
    rwa [hfolders, hfiles] at hplan

end Loops

/-- **The plan of a private archive** lists what is live and selected or below a selected folder, everything once,
with paths that differ also in normal form and lower case, every member after the folder it is in and below its path;
the order of the selection does not matter, and a name for what is selected is always found. -/
theorem archive_members (T : Folding) (db : Db) (userId : ℕ) (selection : Selection) :
    plan T db userId selection.roots ≠ .error .nameCollision ∧
      ∀ members, plan T db userId selection.roots = .ok members →
        Lists T db userId selection.roots members ∧
          ∀ roots, roots.Perm selection.roots → plan T db userId roots = .ok members := by
  have hends : Ends (Lists T db userId selection.roots) (· ≠ .nameCollision) (plan T db userId selection.roots) :=
    plan_ends selection.length_le
  refine ⟨fun herror => ?_, fun members hplan => ⟨?_, fun roots hperm => plan_perm hperm.symm hplan⟩⟩
  · rw [herror] at hends
    exact hends rfl
  · rw [hplan] at hends
    exact hends

/-- Digits are below the letters. -/
theorem lowerUnit_decimal {k : ℕ} {c : UInt16} (h : c ∈ decimal k) : Storage.lowerUnit c = c := by
  obtain ⟨d, hd, rfl⟩ := List.mem_map.mp h
  have hdigit := Nat.isDigit_of_mem_toDigits (by decide) (by decide) hd
  have hle : d.val ≤ 57 := by
    simp only [Char.isDigit, Bool.and_eq_true, decide_eq_true_eq] at hdigit
    exact hdigit.2
  refine if_neg fun hupper => ?_
  have hbound := UInt16.le_iff_toNat_le.mp hupper.1
  have hnat := UInt32.le_iff_toNat_le.mp hle
  simp only [UInt32.toNat_toUInt16] at hbound
  have h41 : (0x41 : UInt16).toNat = 65 := rfl
  have h57 : (57 : UInt32).toNat = 57 := rfl
  omega

/-- Normal form and lower case of ASCII texts. -/
def asciiFolding : Folding where
  normalize s := s
  toLocaleLowerCase s := s.map Storage.lowerUnit
  normalize_normalize _ := rfl
  normalize_suffix _ _ := rfl
  lower_suffix s k := by
    have hdigits : (decimal k).map Storage.lowerUnit = decimal k := by
      conv_rhs => rw [← List.map_id (decimal k)]
      exact List.map_congr_left fun c hc => lowerUnit_decimal hc
    simp only [suffix, List.map_append, hdigits]
    rfl

/-- A folder in another, and a file in it, of one user. -/
def nestedFolders : Db where
  __ := Db.empty .empty
  folders := (Table.empty.put 1 ⟨.ofJs [97], none, 1, false, none⟩).put 2 ⟨.ofJs [66], some 1, 1, false, none⟩
  files := ((Table.empty.put 1 ⟨.ofJs [97], none, 0, none, none, true, false, none, none, some 1, none, 1⟩).put 2
    ⟨.ofJs [66], none, 0, none, none, true, false, none, some 1, some 2, none, 1⟩).put 3
    ⟨.ofJs [99], some ⟨1, .object 1⟩, 5, none, none, false, false, none, some 2, none, none, 1⟩

theorem archive_members_of_nestedFolders :
    ∃ members, plan asciiFolding nestedFolders 1 [.file 3, .folder 2, .folder 1] = .ok members ∧
      members.map (fun m => (m.key, m.logicalPath)) =
        [(.folder 1, [97]), (.folder 2, [97, 0x2F, 66]), (.file 3, [97, 0x2F, 66, 0x2F, 99])] ∧
      Lists asciiFolding nestedFolders 1 [.file 3, .folder 2, .folder 1] members ∧
      plan asciiFolding nestedFolders 1 [.folder 1, .file 3, .folder 2] = .ok members := by
  have hplan : (plan asciiFolding nestedFolders 1 [.file 3, .folder 2, .folder 1]).toOption.map
      (·.map fun m => (m.key, m.logicalPath)) =
        some [(.folder 1, [97]), (.folder 2, [97, 0x2F, 66]), (.file 3, [97, 0x2F, 66, 0x2F, 99])] := by
    decide +kernel
  cases h : plan asciiFolding nestedFolders 1 [.file 3, .folder 2, .folder 1] with
  | error e =>
    rw [h] at hplan
    cases hplan
  | ok members =>
    rw [h] at hplan
    obtain ⟨hlists, hperm⟩ := (archive_members asciiFolding nestedFolders 1
      ⟨[.file 3, .folder 2, .folder 1], by decide, by decide, by decide⟩).2 members h
    exact ⟨members, rfl, Option.some.inj hplan, hlists, hperm _ (by decide)⟩

end ArchivePlan

end HomeCloud
