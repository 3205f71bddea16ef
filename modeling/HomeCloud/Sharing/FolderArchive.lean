import HomeCloud.Sharing.SharedTree
import HomeCloud.System

/-!
# Paths in the archive of a shared folder

The rows of the shared tree come from the database in any order. Paths are built in one pass over the folders, from
a map that holds those of the folders visited before; they are to be the paths in the tree.

* `Db.archiveRows`: the query, and `listArchiveMembers`: what is made of its rows.
* `Db.TreePath`, `Db.Names`: the names from the shared folder to a member.
* `ParentsFirst`, `Titled`: the folders come after their parents, and those that are parents have names.
* `pathMap_of_mem`: what the map holds for a folder in the end is what it got when it was visited.
* **`paths_right_iff`**: the paths are those of the tree exactly for such rows.
* **`archive_paths_iff`**: with that, when different members have different paths.
-/

namespace HomeCloud

open Concurrent Relation

/-! ## Rows -/

/-- A row of the query: a folder or an ordinary file of the tree. -/
structure ArchiveRow where
  folderId : ℕ
  name : JsString
  isFolder : Bool
  placement : Option Placement
  size : ℕ
  parentId : Option ℕ
  deriving DecidableEq

def Folder.archiveRow (id : ℕ) (r : Folder) : ArchiveRow where
  folderId := id
  name := r.name.val
  isFolder := true
  placement := none
  size := 0
  parentId := r.parentId

def File.archiveRow (id : ℕ) (r : File) : ArchiveRow where
  folderId := id
  name := r.name.val
  isFolder := false
  placement := r.placement
  size := r.size
  parentId := r.parentId

section

variable (db : Db) (userId root : ℕ)

/-- The live folders of the shared tree; none unless its root is valid. -/
def Db.subtree : List ℕ := if db.validRoot userId root then db.reach (db.liveChild userId) root else []

/-- The rows: the live folders below folders of the tree, its root, and the live files in folders of the tree. A
folder has one mirror at most. -/
def Db.archiveRows : List ArchiveRow :=
  let below := db.folders.select fun i r =>
    r.parentId.any (· ∈ db.subtree userId root) && db.liveFolder userId i r
  let self := db.folders.select fun i r =>
    i = root && decide (i ∈ db.subtree userId root) && db.liveFolder userId i r
  let files := db.files.select fun _ r =>
    r.userId = userId && !r.isDeleted && !r.isFolder && r.parentId.any (· ∈ db.subtree userId root)
  below.filterMap (fun i => (db.folders.get i).map (·.archiveRow i)) ++
    self.filterMap (fun i => (db.folders.get i).map (·.archiveRow i)) ++
    files.filterMap fun i => (db.files.get i).map (·.archiveRow i)

end

/-! ## Paths -/

/-- The paths of the folders visited. -/
abbrev FolderPathMap := ℕ → Option JsString

/-- The path of an entry below its parent. -/
def FolderPathMap.below (folderPathMap : FolderPathMap) (row : ArchiveRow) : JsString :=
  let parentPath := (row.parentId.bind folderPathMap).getD []
  if parentPath = [] then row.name else parentPath ++ 0x2F :: row.name

def FolderPathMap.set (folderPathMap : FolderPathMap) (id : ℕ) (path : JsString) : FolderPathMap :=
  fun i => if i = id then some path else folderPathMap i

/-- Before the folders are visited there is the shared one. -/
def FolderPathMap.start (root : ℕ) : FolderPathMap := fun i => if i = root then some [] else none

/-- A folder is visited. -/
def FolderPathMap.visit (root : ℕ) (folderPathMap : FolderPathMap) (row : ArchiveRow) : FolderPathMap :=
  if row.folderId = root then folderPathMap else folderPathMap.set row.folderId (folderPathMap.below row)

/-- What the folders are sorted by, before any of them is visited. -/
def depth (root : ℕ) (row : ArchiveRow) : ℕ :=
  ((row.parentId.bind (FolderPathMap.start root)).getD []).length

def orderedFolders (root : ℕ) (rows : List ArchiveRow) : List ArchiveRow :=
  (rows.filter (·.isFolder)).mergeSort fun a b => depth root a ≤ depth root b

def folderPathMap (root : ℕ) (rows : List ArchiveRow) : FolderPathMap :=
  (orderedFolders root rows).foldl (FolderPathMap.visit root) (.start root)

/-- A member of an archive. -/
structure ArchiveMember where
  folderId : ℕ
  name : JsString
  logicalPath : JsString
  isFolder : Bool
  placement : Option Placement
  size : ℕ
  deriving DecidableEq

def logicalPath (map : FolderPathMap) (row : ArchiveRow) : JsString :=
  if row.isFolder then (map row.folderId).getD row.name else map.below row

/-- The member for a row. -/
def ArchiveRow.member (map : FolderPathMap) (row : ArchiveRow) : ArchiveMember where
  folderId := row.folderId
  name := row.name
  logicalPath := logicalPath map row
  isFolder := row.isFolder
  placement := row.placement
  size := row.size

/-- The members of the archive, from the rows as the database returns them. -/
def listArchiveMembers (root : ℕ) (rows : List ArchiveRow) : List ArchiveMember :=
  rows.map (·.member (folderPathMap root rows))

/-! ## The tree -/

/-- The names from the shared folder to a folder. -/
inductive Db.TreePath (db : Db) (root : ℕ) : ℕ → List JsString → Prop
  | root : db.TreePath root root []
  | child {i r p names} : db.folders.get i = some r → i ≠ root → r.parentId = some p → db.TreePath root p names →
      db.TreePath root i (names ++ [r.name.val])

/-- The names from the shared folder to a member. -/
def Db.Names (db : Db) (root : ℕ) (row : ArchiveRow) (names : List JsString) : Prop :=
  if row.isFolder then db.TreePath root row.folderId names
  else ∃ p names', row.parentId = some p ∧ db.TreePath root p names' ∧ names = names' ++ [row.name]

/-- Names joined by slashes. -/
def slashed (names : List JsString) : JsString := [0x2F].intercalate names

theorem Db.TreePath.unique {db : Db} {root i : ℕ} {names names' : List JsString} (h : db.TreePath root i names)
    (h' : db.TreePath root i names') : names = names' := by
  induction h generalizing names' with
  | root =>
    cases h' with
    | root => rfl
    | child _ hne => exact absurd rfl hne
  | child hr hne hp _ ih =>
    cases h' with
    | root => exact absurd rfl hne
    | child hr' _ hp' hup =>
      cases hr.symm.trans hr'
      cases hp.symm.trans hp'
      rw [ih hup]

theorem Db.Names.unique {db : Db} {root : ℕ} {row : ArchiveRow} {names names' : List JsString}
    (h : db.Names root row names) (h' : db.Names root row names') : names = names' := by
  unfold Db.Names at h h'
  split at h
  · next hfolder =>
    rw [if_pos hfolder] at h'
    exact h.unique h'
  · next hfolder =>
    rw [if_neg hfolder] at h'
    obtain ⟨p, ns, hp, hpath, rfl⟩ := h
    obtain ⟨p', ns', hp', hpath', rfl⟩ := h'
    cases hp.symm.trans hp'
    rw [hpath.unique hpath']

theorem slashed_append {names : List JsString} (h : names ≠ []) (name : JsString) :
    slashed (names ++ [name]) = slashed names ++ 0x2F :: name := by
  induction names with
  | nil => exact absurd rfl h
  | cons n ns ih =>
    cases ns with
    | nil => simp [slashed, List.intercalate]
    | cons m ns =>
      have htail := ih (List.cons_ne_nil m ns)
      simp only [slashed, List.intercalate, List.cons_append, List.intersperse_cons_cons, List.flatten_cons] at htail ⊢
      rw [htail]
      simp

theorem slashed_eq_nil {names : List JsString} (h : slashed names = []) : names = [] ∨ names = [[]] := by
  rcases List.eq_nil_or_concat names with rfl | ⟨ns, name, rfl⟩
  · exact .inl rfl
  · rw [List.concat_eq_append] at h ⊢
    by_cases hns : ns = []
    · subst hns
      have hname : name = [] := by simpa [slashed, List.intercalate] using h
      rw [hname]
      exact .inr rfl
    · rw [slashed_append hns] at h
      simp at h

/-! ## The map -/

section Map

variable {root i p : ℕ} {map : FolderPathMap} {row : ArchiveRow} {fs pre post rows : List ArchiveRow}

/-- The comparison is the same for all folders, so they keep their order. -/
theorem orderedFolders_eq (root : ℕ) (rows : List ArchiveRow) : orderedFolders root rows = rows.filter (·.isFolder) := by
  have hdepth (row : ArchiveRow) : depth root row = 0 := by
    unfold depth FolderPathMap.start
    cases row.parentId with
    | none => rfl
    | some p =>
      rw [Option.bind_some]
      split <;> rfl
  unfold orderedFolders
  refine List.mergeSort_of_pairwise (List.pairwise_of_forall fun a b => ?_)
  rw [hdepth, hdepth]
  exact decide_eq_true le_rfl

theorem visit_of_ne (h : row.folderId ≠ i) : map.visit root row i = map i := by
  unfold FolderPathMap.visit
  split
  · rfl
  · exact if_neg (Ne.symm h)

theorem visit_root : map.visit root row root = map root := by
  unfold FolderPathMap.visit
  split
  · rfl
  · next h => exact if_neg (Ne.symm h)

theorem foldl_visit_of_not_mem (h : i ∉ fs.map (·.folderId)) : (fs.foldl (.visit root) map) i = map i := by
  induction fs generalizing map with
  | nil => rfl
  | cons f fs ih =>
    rw [List.map_cons, List.mem_cons, not_or] at h
    rw [List.foldl_cons, ih h.2, visit_of_ne (Ne.symm h.1)]

theorem foldl_visit_root : (fs.foldl (.visit root) map) root = map root := by
  induction fs generalizing map with
  | nil => rfl
  | cons f fs ih => rw [List.foldl_cons, ih, visit_root]

theorem folderPathMap_root : folderPathMap root rows root = some [] := by
  unfold folderPathMap
  rw [foldl_visit_root]
  exact if_pos rfl

/-- What the map holds does not change after the visit. -/
theorem foldl_visit_prefix (hd : ((pre ++ post).map (·.folderId)).Nodup) (h : i = root ∨ i ∈ pre.map (·.folderId)) :
    ((pre ++ post).foldl (.visit root) map) i = (pre.foldl (.visit root) map) i := by
  rw [List.foldl_append]
  rcases h with rfl | h
  · exact foldl_visit_root
  · rw [List.map_append, List.nodup_append'] at hd
    exact foldl_visit_of_not_mem fun hmem => hd.2.2 h hmem

/-- **What a folder gets when it is visited**: its path below its parent if the parent came before, else its name. -/
theorem pathMap_of_mem (hd : ((rows.filter (·.isFolder)).map (·.folderId)).Nodup)
    (hsplit : rows.filter (·.isFolder) = pre ++ row :: post) (hne : row.folderId ≠ root)
    (hp : row.parentId = some p) :
    (p = root ∨ p ∈ pre.map (·.folderId) →
      folderPathMap root rows row.folderId = some ((folderPathMap root rows).below row)) ∧
    (p ≠ root → p ∉ pre.map (·.folderId) → folderPathMap root rows row.folderId = some row.name) := by
  have hmap : folderPathMap root rows = (pre ++ row :: post).foldl (.visit root) (.start root) := by
    unfold folderPathMap
    rw [orderedFolders_eq, hsplit]
  rw [hsplit] at hd
  have hvisited : folderPathMap root rows row.folderId =
      some ((pre.foldl (.visit root) (.start root) : FolderPathMap).below row) := by
    have hpost : row.folderId ∉ post.map (·.folderId) := by
      rw [List.map_append, List.map_cons, List.nodup_append', List.nodup_cons] at hd
      exact hd.2.1.1
    rw [hmap, List.foldl_append, List.foldl_cons, foldl_visit_of_not_mem hpost]
    unfold FolderPathMap.visit FolderPathMap.set
    rw [if_neg hne, if_pos rfl]
  constructor
  · intro hknown
    have hparent : folderPathMap root rows p = (pre.foldl (.visit root) (.start root) : FolderPathMap) p := by
      rw [hmap]
      exact foldl_visit_prefix hd hknown
    rw [hvisited]
    unfold FolderPathMap.below
    rw [hp, Option.bind_some, Option.bind_some, hparent]
  · intro hroot hunknown
    rw [hvisited]
    unfold FolderPathMap.below
    rw [hp, Option.bind_some, foldl_visit_of_not_mem hunknown]
    unfold FolderPathMap.start
    rw [if_neg hroot]
    rfl

/-- **A path below a parent whose path is that of the tree.** -/
theorem below_eq_slashed {names : List JsString} (hp : row.parentId = some p)
    (hmap : map p = some (slashed names)) (hnames : names ≠ [[]]) : map.below row = slashed (names ++ [row.name]) := by
  unfold FolderPathMap.below
  rw [hp, Option.bind_some, hmap, Option.getD_some]
  by_cases h : names = []
  · subst h
    simp [slashed, List.intercalate]
  · have hpath : slashed names ≠ [] := fun heq => (slashed_eq_nil heq).elim h hnames
    simp only [if_neg hpath]
    rw [slashed_append h]

/-- A right path is longer than the name, so the parent's path was known. -/
theorem slashed_of_below_eq {names : List JsString} (h : names ≠ [])
    (hright : map.below row = slashed (names ++ [row.name])) :
    (row.parentId.bind map).getD [] = slashed names ∧ slashed names ≠ [] := by
  unfold FolderPathMap.below at hright
  rw [slashed_append h] at hright
  simp only at hright
  split at hright
  · have hlength := congrArg List.length hright
    rw [List.length_append, List.length_cons] at hlength
    omega
  · next hpath =>
    have heq := List.append_cancel_right hright
    exact ⟨heq, heq ▸ hpath⟩

end Map

/-! ## Rows of a tree -/

/-- Rows of the tree below a folder, each folder once. -/
structure SharedRows (db : Db) (root : ℕ) (rows : List ArchiveRow) : Prop where
  nodup : ((rows.filter (·.isFolder)).map (·.folderId)).Nodup
  folder : ∀ row ∈ rows, row.isFolder = true →
    ∃ r, db.folders.get row.folderId = some r ∧ row.name = r.name.val ∧ row.parentId = r.parentId
  parent : ∀ row ∈ rows, ¬(row.isFolder = true ∧ row.folderId = root) →
    ∃ p, row.parentId = some p ∧ (p = root ∨ ∃ q ∈ rows, q.isFolder = true ∧ q.folderId = p)
  names : ∀ row ∈ rows, ∃ names, db.Names root row names

/-- Every folder comes after its parent, unless that is the shared folder. -/
def ParentsFirst (root : ℕ) (rows : List ArchiveRow) : Prop :=
  ∀ pre row post, rows = pre ++ row :: post → row.isFolder = true → row.folderId ≠ root →
    ∀ p, row.parentId = some p → p ≠ root → ∃ q ∈ pre, q.isFolder = true ∧ q.folderId = p

/-- No member lies in a folder without a name directly in the shared folder. -/
def Titled (root : ℕ) (rows : List ArchiveRow) : Prop :=
  ∀ row ∈ rows, ¬(row.isFolder = true ∧ row.folderId = root) → ∀ p, row.parentId = some p → p ≠ root →
    ∀ q ∈ rows, q.isFolder = true → q.folderId = p → q.parentId = some root → q.name ≠ []

/-- The members have the paths of the tree. -/
def PathsRight (db : Db) (root : ℕ) (rows : List ArchiveRow) : Prop :=
  ∀ row ∈ rows, ∀ names, db.Names root row names →
    (row.member (folderPathMap root rows)).logicalPath = slashed names

namespace SharedRows

variable {db : Db} {root : ℕ} {rows : List ArchiveRow} {row : ArchiveRow} (h : SharedRows db root rows)

include h

/-- The names of a member below the shared folder are those of its parent and its own. -/
theorem names_of_parent (hrow : row ∈ rows) (hne : ¬(row.isFolder = true ∧ row.folderId = root)) {p : ℕ}
    (hp : row.parentId = some p) {names : List JsString} (hnames : db.Names root row names) :
    ∃ names', db.TreePath root p names' ∧ names = names' ++ [row.name] := by
  unfold Db.Names at hnames
  split at hnames
  · next hfolder =>
    obtain ⟨r, hr, hname, hparent⟩ := h.folder row hrow hfolder
    cases hnames with
    | root => exact absurd ⟨hfolder, rfl⟩ hne
    | child hr' _ hp' hpath =>
      cases hr.symm.trans hr'
      cases (hparent.symm.trans hp).symm.trans hp'
      exact ⟨_, hpath, by rw [hname]⟩
  · obtain ⟨p', names', hp', hpath, rfl⟩ := hnames
    cases hp.symm.trans hp'
    exact ⟨names', hpath, rfl⟩

/-- The names of a folder other than the shared one are more than an empty one when it is titled. -/
theorem names_ne (ht : Titled root rows) (hrow : row ∈ rows) (hne : ¬(row.isFolder = true ∧ row.folderId = root)) {p : ℕ}
    (hp : row.parentId = some p) {names : List JsString} (hpath : db.TreePath root p names) : names ≠ [[]] := by
  rintro rfl
  obtain ⟨p', hp', hroot | ⟨q, hq, hqf, hqid⟩⟩ := h.parent row hrow hne
  · cases hp.symm.trans hp'
    rw [hroot] at hpath
    cases hpath.unique .root
  · cases hp.symm.trans hp'
    obtain ⟨r, hr, hname, hparent⟩ := h.folder q hq hqf
    generalize hns : ([[]] : List JsString) = ns at hpath
    cases hpath with
    | root => cases hns
    | @child _ r' pp names hr' hroot hpp hup =>
      rw [hqid] at hr
      cases hr.symm.trans hr'
      have hlist : ([] : List JsString) ++ [([] : JsString)] = _ ++ [_] := hns
      obtain ⟨hnil, hone⟩ := List.append_inj' hlist rfl
      subst hnil
      have hpr : pp = root := by
        generalize hnil : ([] : List JsString) = ns at hup
        cases hup with
        | root => rfl
        | child => simp at hnil
      subst hpr
      refine ht row hrow hne p hp hroot q hq hqf hqid (hparent.trans hpp) ?_
      rw [hname]
      exact (List.cons.inj hone).1.symm

/-- The parent of a member below the shared folder, with its names. -/
theorem exists_parent (hrow : row ∈ rows) (hne : ¬(row.isFolder = true ∧ row.folderId = root)) {p : ℕ}
    (hp : row.parentId = some p) :
    ∃ names, db.TreePath root p names ∧ db.Names root row (names ++ [row.name]) ∧ (p ≠ root → names ≠ []) := by
  obtain ⟨all, hall⟩ := h.names row hrow
  obtain ⟨names, hpath, rfl⟩ := h.names_of_parent hrow hne hp hall
  refine ⟨names, hpath, hall, fun hpr hnil => ?_⟩
  rw [hnil] at hpath
  generalize hns : ([] : List JsString) = ns at hpath
  cases hpath with
  | root => exact hpr rfl
  | child => simp at hns

/-- A right path needs its folder to come after the parent. -/
theorem parentsFirst_of_right (hright : PathsRight db root rows) : ParentsFirst root rows := by
  intro pre row post hsplit hf hne p hp hpr
  have hrow : row ∈ rows := hsplit ▸ List.mem_append_right pre List.mem_cons_self
  obtain ⟨names, -, hall, hnil⟩ := h.exists_parent hrow (fun hand => hne hand.2) hp
  by_contra hno
  have hfilter : rows.filter (·.isFolder) = pre.filter (·.isFolder) ++ row :: post.filter (·.isFolder) := by
    rw [hsplit, List.filter_append, List.filter_cons_of_pos hf]
  have hunknown : p ∉ (pre.filter (·.isFolder)).map (·.folderId) := by
    intro hmem
    obtain ⟨q, hq, hqid⟩ := List.mem_map.mp hmem
    exact hno ⟨q, (List.mem_filter.mp hq).1, (List.mem_filter.mp hq).2, hqid⟩
  have hpath := hright row hrow _ hall
  unfold ArchiveRow.member logicalPath at hpath
  simp only at hpath
  rw [if_pos hf, (pathMap_of_mem h.nodup hfilter hne hp).2 hpr hunknown, Option.getD_some,
    slashed_append (hnil hpr)] at hpath
  have hlength := congrArg List.length hpath
  rw [List.length_append, List.length_cons] at hlength
  omega

/-- A right path needs its parent to have a path. -/
theorem titled_of_right (hright : PathsRight db root rows) : Titled root rows := by
  intro row hrow hne p hp hpr q hq hqf hqid hqp hname
  obtain ⟨names, hup, hall, hnil⟩ := h.exists_parent hrow hne hp
  have hbelow : (folderPathMap root rows).below row = slashed (names ++ [row.name]) := by
    have hpath := hright row hrow _ hall
    unfold ArchiveRow.member logicalPath at hpath
    simp only at hpath
    split at hpath
    · next hf =>
      have hroot : row.folderId ≠ root := fun heq => hne ⟨hf, heq⟩
      obtain ⟨pre, post, hsplit⟩ := List.append_of_mem hrow
      obtain ⟨q', hq', hqf', hqid'⟩ := h.parentsFirst_of_right hright pre row post hsplit hf hroot p hp hpr
      have hfilter : rows.filter (·.isFolder) = pre.filter (·.isFolder) ++ row :: post.filter (·.isFolder) := by
        rw [hsplit, List.filter_append, List.filter_cons_of_pos hf]
      rw [(pathMap_of_mem h.nodup hfilter hroot hp).1
        (.inr (List.mem_map.mpr ⟨q', List.mem_filter.mpr ⟨hq', hqf'⟩, hqid'⟩))] at hpath
      exact hpath
    · exact hpath
  refine (slashed_of_below_eq (hnil hpr) hbelow).2 ?_
  obtain ⟨r, hr, hqname, hqparent⟩ := h.folder q hq hqf
  rw [hqid] at hr
  have htop := Db.TreePath.child hr hpr (hqparent.symm.trans hqp) .root
  rw [hup.unique htop, List.nil_append, ← hqname, hname]
  rfl

/-- With parents first, the map holds the paths of the tree. -/
theorem pathMap_eq (hfirst : ParentsFirst root rows) (ht : Titled root rows) {i : ℕ} {names : List JsString}
    (hpath : db.TreePath root i names) (hi : i = root ∨ ∃ q ∈ rows, q.isFolder = true ∧ q.folderId = i) :
    folderPathMap root rows i = some (slashed names) := by
  induction hpath with
  | root => exact folderPathMap_root
  | @child i r p names hr hne hp hup ih =>
    obtain ⟨row, hrow, hf, rfl⟩ := hi.resolve_left hne
    obtain ⟨r', hr', hname, hparent⟩ := h.folder row hrow hf
    cases hr.symm.trans hr'
    rw [hp] at hparent
    have hnot : ¬(row.isFolder = true ∧ row.folderId = root) := fun hand => hne hand.2
    obtain ⟨pre, post, hsplit⟩ := List.append_of_mem hrow
    have hfilter : rows.filter (·.isFolder) = pre.filter (·.isFolder) ++ row :: post.filter (·.isFolder) := by
      rw [hsplit, List.filter_append, List.filter_cons_of_pos hf]
    have hknown : p = root ∨ ∃ q ∈ pre, q.isFolder = true ∧ q.folderId = p := by
      by_cases hpr : p = root
      · exact .inl hpr
      · exact .inr (hfirst pre row post hsplit hf hne p hparent hpr)
    have hparentPath : folderPathMap root rows p = some (slashed names) := by
      refine ih (hknown.imp_right fun ⟨q, hq, hqf, hqid⟩ => ⟨q, ?_, hqf, hqid⟩)
      rw [hsplit]
      exact List.mem_append_left _ hq
    have hvisit := (pathMap_of_mem h.nodup hfilter hne hparent).1 (hknown.imp_right fun ⟨q, hq, hqf, hqid⟩ =>
      List.mem_map.mpr ⟨q, List.mem_filter.mpr ⟨hq, hqf⟩, hqid⟩)
    rw [hvisit, below_eq_slashed hparent hparentPath (h.names_ne ht hrow hnot hparent hup), hname]

end SharedRows

/-- **The paths are those of the tree exactly when every folder comes after its parent**, and no member lies in a
folder without a name directly in the shared one. -/
theorem paths_right_iff {db : Db} {root : ℕ} {rows : List ArchiveRow} (h : SharedRows db root rows) :
    PathsRight db root rows ↔ ParentsFirst root rows ∧ Titled root rows := by
  constructor
  · intro hright
    exact ⟨h.parentsFirst_of_right hright, h.titled_of_right hright⟩
  · rintro ⟨hfirst, ht⟩ row hrow names hnames
    unfold ArchiveRow.member logicalPath
    simp only
    split
    · next hf =>
      unfold Db.Names at hnames
      rw [if_pos hf] at hnames
      rw [h.pathMap_eq hfirst ht hnames (.inr ⟨row, hrow, hf, rfl⟩)]
      rfl
    · next hf =>
      have hne : ¬(row.isFolder = true ∧ row.folderId = root) := fun hand => hf hand.1
      obtain ⟨p, hp, hparent⟩ := h.parent row hrow hne
      obtain ⟨names', hpath, rfl⟩ := h.names_of_parent hrow hne hp hnames
      exact below_eq_slashed hp (h.pathMap_eq hfirst ht hpath hparent) (h.names_ne ht hrow hne hp hpath)

/-! ## The rows of the query -/

section Query

variable {db : Db} {userId root i : ℕ} {row : ArchiveRow}

theorem mem_subtree : i ∈ db.subtree userId root ↔ LiveRoot db userId root ∧
    ReflTransGen (fun p i => db.liveChild userId p i = true) root i := by
  unfold Db.subtree
  split
  · next hvalid =>
    have hroot := validRoot_iff.mp hvalid
    obtain ⟨r, hr, -⟩ := hroot.live
    rw [Db.mem_reach, and_iff_right (Option.isSome_iff_exists.mpr ⟨r, hr⟩), and_iff_right hroot]
    have hsame : (fun p i => (db.folders.get i).isSome ∧ db.liveChild userId p i = true) =
        fun p i => db.liveChild userId p i = true := by
      funext p i
      refine propext ⟨And.right, fun h => ⟨?_, h⟩⟩
      obtain ⟨r, hr, -⟩ := (Option.any_eq_true ..).mp h
      exact Option.isSome_iff_exists.mpr ⟨r, hr⟩
    rw [hsame]
  · next hvalid => exact ⟨fun h => absurd h List.not_mem_nil, fun h => absurd (validRoot_iff.mpr h.1) hvalid⟩

theorem liveChild_iff {p : ℕ} : db.liveChild userId p i = true ↔
    ∃ r, db.folders.get i = some r ∧ r.parentId = some p ∧ db.liveFolder userId i r = true := by
  unfold Db.liveChild
  rw [Option.any_eq_true]
  simp only [Bool.and_eq_true, decide_eq_true_eq]

/-- No way leads up from a live root and back to it. -/
theorem LiveRoot.not_above_itself (h : LiveRoot db userId root) :
    ¬TransGen (fun c i => db.parentOf c i = true) root root := by
  induction h with
  | top hr _ hn =>
    intro htrans
    obtain ⟨c, hc, -⟩ := TransGen.head'_iff.mp htrans
    obtain ⟨r', hr', hp⟩ := parentOf_iff.mp hc
    cases hr.symm.trans hr'
    cases hn.symm.trans hp
  | @up i r p hr _ hp _ ih =>
    intro htrans
    obtain ⟨c, hc, hrest⟩ := TransGen.head'_iff.mp htrans
    obtain ⟨r', hr', hp'⟩ := parentOf_iff.mp hc
    cases hr.symm.trans hr'
    cases hp.symm.trans hp'
    exact ih (TransGen.tail' hrest hc)

/-- The parents lead from the folders of the tree up to its root. -/
theorem above_of_below (h : ReflTransGen (fun p i => db.liveChild userId p i = true) root i) :
    ReflTransGen (fun c i => db.parentOf c i = true) i root := by
  induction h with
  | refl => exact .refl
  | tail _ hstep ih =>
    obtain ⟨r, hr, hp, -⟩ := liveChild_iff.mp hstep
    exact ih.head (parentOf_iff.mpr ⟨r, hr, hp⟩)

/-- No folder of the tree has its root as a child. -/
theorem ne_root_of_parent {p : ℕ} {r : Folder} (hp : p ∈ db.subtree userId root) (hr : db.folders.get i = some r)
    (hparent : r.parentId = some p) : i ≠ root := by
  rintro rfl
  obtain ⟨hroot, hpath⟩ := mem_subtree.mp hp
  exact hroot.not_above_itself (TransGen.head' (parentOf_iff.mpr ⟨r, hr, hparent⟩) (above_of_below hpath))

/-- A folder of the tree is its root or has its parent in the tree. -/
theorem subtree_cases (h : i ∈ db.subtree userId root) :
    ∃ r, db.folders.get i = some r ∧ db.liveFolder userId i r = true ∧
      (i = root ∨ i ≠ root ∧ ∃ p ∈ db.subtree userId root, r.parentId = some p) := by
  obtain ⟨hroot, hpath⟩ := mem_subtree.mp h
  rcases hpath.cases_tail with heq | ⟨p, hup, hstep⟩
  · obtain ⟨r, hr, hl⟩ := hroot.live
    subst heq
    exact ⟨r, hr, hl, .inl rfl⟩
  · obtain ⟨r, hr, hp, hl⟩ := liveChild_iff.mp hstep
    have hmem := mem_subtree.mpr ⟨hroot, hup⟩
    exact ⟨r, hr, hl, .inr ⟨ne_root_of_parent hmem hr hp, p, hmem, hp⟩⟩

theorem exists_treePath (h : i ∈ db.subtree userId root) : ∃ names, db.TreePath root i names := by
  obtain ⟨hroot, hpath⟩ := mem_subtree.mp h
  induction hpath with
  | refl => exact ⟨_, .root⟩
  | tail hup hstep ih =>
    obtain ⟨names, hnames⟩ := ih (mem_subtree.mpr ⟨hroot, hup⟩)
    obtain ⟨r, hr, hp, -⟩ := liveChild_iff.mp hstep
    exact ⟨_, .child hr (ne_root_of_parent (mem_subtree.mpr ⟨hroot, hup⟩) hr hp) hp hnames⟩

/-- **What the query returns**: the folders of the tree, and the live files in them. -/
theorem mem_archiveRows : row ∈ db.archiveRows userId root ↔
    (∃ i r, db.folders.get i = some r ∧ i ∈ db.subtree userId root ∧ row = r.archiveRow i) ∨
      ∃ i r p, db.files.get i = some r ∧ r.userId = userId ∧ r.isDeleted = false ∧ r.isFolder = false ∧
        r.parentId = some p ∧ p ∈ db.subtree userId root ∧ row = r.archiveRow i := by
  unfold Db.archiveRows
  simp only [List.mem_append, List.mem_filterMap, Table.mem_select, Option.map_eq_some_iff, Bool.and_eq_true,
    decide_eq_true_eq, Option.any_eq_true, Bool.not_eq_true']
  constructor
  · rintro ((⟨i, ⟨r, hr, ⟨p, hp, hmem⟩, hl⟩, q, hq, rfl⟩ | ⟨i, ⟨r, hr, ⟨-, hmem⟩, -⟩, q, hq, rfl⟩) |
      ⟨i, ⟨r, hr, ⟨⟨hu, hd⟩, hf⟩, p, hp, hmem⟩, q, hq, rfl⟩)
    · cases hr.symm.trans hq
      obtain ⟨hroot, hpath⟩ := mem_subtree.mp hmem
      exact .inl ⟨i, r, hr, mem_subtree.mpr ⟨hroot, hpath.tail (liveChild_iff.mpr ⟨r, hr, hp, hl⟩)⟩, rfl⟩
    · cases hr.symm.trans hq
      exact .inl ⟨i, r, hr, hmem, rfl⟩
    · cases hr.symm.trans hq
      exact .inr ⟨i, r, p, hr, hu, hd, hf, hp, hmem, rfl⟩
  · rintro (⟨i, r, hr, hmem, rfl⟩ | ⟨i, r, p, hr, hu, hd, hf, hp, hmem, rfl⟩)
    · obtain ⟨r', hr', hl, rfl | ⟨-, p, hpmem, hp⟩⟩ := subtree_cases hmem
      · cases hr.symm.trans hr'
        exact .inl (.inr ⟨i, ⟨r, hr, ⟨rfl, hmem⟩, hl⟩, r, hr, rfl⟩)
      · cases hr.symm.trans hr'
        exact .inl (.inl ⟨i, ⟨r, hr, ⟨p, hp, hpmem⟩, hl⟩, r, hr, rfl⟩)
    · exact .inr ⟨i, ⟨r, hr, ⟨⟨hu, hd⟩, hf⟩, p, hp, hmem⟩, r, hr, rfl⟩

/-- Rows for different numbers differ. -/
theorem nodup_filterMap {R : Type} {ids : List ℕ} (h : ids.Nodup) (get : ℕ → Option R) {make : ℕ → R → ArchiveRow}
    (hmake : ∀ i r, (make i r).folderId = i) : (ids.filterMap fun i => (get i).map (make i)).Nodup := by
  refine h.filterMap fun i j row hi hj => ?_
  obtain ⟨r, -, rfl⟩ := Option.map_eq_some_iff.mp hi
  obtain ⟨r', -, heq⟩ := Option.map_eq_some_iff.mp hj
  rw [← hmake i r, ← heq, hmake]

theorem nodup_archiveRows : (db.archiveRows userId root).Nodup := by
  unfold Db.archiveRows
  refine (List.Nodup.append (List.Nodup.append ?_ ?_ fun row hbelow hself => ?_) ?_ fun row hfolder hfile => ?_)
  · exact nodup_filterMap (Table.nodup_select ..) _ fun _ _ => rfl
  · exact nodup_filterMap (Table.nodup_select ..) _ fun _ _ => rfl
  · obtain ⟨i, hi, hrow⟩ := List.mem_filterMap.mp hbelow
    obtain ⟨j, hj, hrow'⟩ := List.mem_filterMap.mp hself
    obtain ⟨r, hr, rfl⟩ := Option.map_eq_some_iff.mp hrow
    obtain ⟨r', hr', heq⟩ := Option.map_eq_some_iff.mp hrow'
    have hij : j = i := congrArg ArchiveRow.folderId heq
    obtain ⟨q, hq, hkeep⟩ := Table.mem_select.mp hi
    obtain ⟨q', hq', hkeep'⟩ := Table.mem_select.mp hj
    simp only [Bool.and_eq_true, decide_eq_true_eq, Option.any_eq_true] at hkeep hkeep'
    obtain ⟨⟨p, hp, hmem⟩, -⟩ := hkeep
    exact ne_root_of_parent hmem hq hp (hij ▸ hkeep'.1.1)
  · exact nodup_filterMap (Table.nodup_select ..) _ fun _ _ => rfl
  · obtain ⟨j, -, hrow'⟩ := List.mem_filterMap.mp hfile
    obtain ⟨r', -, heq⟩ := Option.map_eq_some_iff.mp hrow'
    have hfalse : row.isFolder = false := heq ▸ rfl
    have htrue : row.isFolder = true := by
      rcases List.mem_append.mp hfolder with hmem | hmem
      · obtain ⟨i, -, hrow⟩ := List.mem_filterMap.mp hmem
        obtain ⟨r, -, heq⟩ := Option.map_eq_some_iff.mp hrow
        exact heq ▸ rfl
      · obtain ⟨i, -, hrow⟩ := List.mem_filterMap.mp hmem
        obtain ⟨r, -, heq⟩ := Option.map_eq_some_iff.mp hrow
        exact heq ▸ rfl
    rw [hfalse] at htrue
    cases htrue

variable {rows : List ArchiveRow} (hrows : rows.Perm (db.archiveRows userId root))

include hrows

/-- **In every order the rows are those of a tree.** -/
theorem sharedRows_of_perm : SharedRows db root rows where
  nodup := by
    refine List.Nodup.map_on (fun a ha b hb hab => ?_) ((hrows.nodup_iff.mpr nodup_archiveRows).filter _)
    obtain ⟨ha, haf⟩ := List.mem_filter.mp ha
    obtain ⟨hb, hbf⟩ := List.mem_filter.mp hb
    rcases mem_archiveRows.mp (hrows.mem_iff.mp ha) with ⟨i, r, hr, -, rfl⟩ | ⟨i, r, p, -, -, -, -, -, -, rfl⟩
    · rcases mem_archiveRows.mp (hrows.mem_iff.mp hb) with ⟨j, r', hr', -, rfl⟩ | ⟨j, r', p, -, -, -, -, -, -, rfl⟩
      · have hij : i = j := hab
        subst hij
        cases hr.symm.trans hr'
        rfl
      · cases hbf
    · cases haf
  folder row hrow hf := by
    rcases mem_archiveRows.mp (hrows.mem_iff.mp hrow) with ⟨i, r, hr, -, rfl⟩ | ⟨i, r, p, -, -, -, -, -, -, rfl⟩
    · exact ⟨r, hr, rfl, rfl⟩
    · cases hf
  parent row hrow hne := by
    have hparent : ∀ p ∈ db.subtree userId root, p = root ∨ ∃ q ∈ rows, q.isFolder = true ∧ q.folderId = p := by
      intro p hp
      obtain ⟨r, hr, -⟩ := subtree_cases hp
      exact .inr ⟨r.archiveRow p, hrows.mem_iff.mpr (mem_archiveRows.mpr (.inl ⟨p, r, hr, hp, rfl⟩)), rfl, rfl⟩
    rcases mem_archiveRows.mp (hrows.mem_iff.mp hrow) with ⟨i, r, hr, hmem, rfl⟩ | ⟨i, r, p, -, -, -, -, hp, hmem, rfl⟩
    · obtain ⟨r', hr', -, heq | ⟨-, p, hpmem, hp⟩⟩ := subtree_cases hmem
      · exact absurd ⟨rfl, heq⟩ hne
      · cases hr.symm.trans hr'
        exact ⟨p, hp, hparent p hpmem⟩
    · exact ⟨p, hp, hparent p hmem⟩
  names row hrow := by
    rcases mem_archiveRows.mp (hrows.mem_iff.mp hrow) with ⟨i, r, -, hmem, rfl⟩ | ⟨i, r, p, -, -, -, -, hp, hmem, rfl⟩
    · exact exists_treePath hmem
    · obtain ⟨names, hnames⟩ := exists_treePath hmem
      exact ⟨_, p, names, hp, hnames, rfl⟩

omit hrows

/-- **In a tree with unique names the names of the way determine the folder.** -/
theorem treePath_injective (hu : db.NamesUnique) {names : List JsString} {j : ℕ} (hi : i ∈ db.subtree userId root)
    (hj : j ∈ db.subtree userId root) (hpath : db.TreePath root i names) (hpath' : db.TreePath root j names) : i = j := by
  induction hpath generalizing j with
  | root =>
    generalize hns : ([] : List JsString) = ns at hpath'
    cases hpath' with
    | root => rfl
    | child => simp at hns
  | @child i r p names hr hne hp hup ih =>
    generalize hns : names ++ [r.name.val] = ns at hpath'
    cases hpath' with
    | root => simp at hns
    | @child _ r' p' names' hr' hne' hp' hup' =>
      obtain ⟨rfl, hname⟩ := List.append_inj' hns rfl
      obtain ⟨q, hq, hl, hcase⟩ := subtree_cases hi
      obtain ⟨q', hq', hl', hcase'⟩ := subtree_cases hj
      cases hr.symm.trans hq
      cases hr'.symm.trans hq'
      obtain ⟨-, pp, hpmem, hpp⟩ := hcase.resolve_left hne
      obtain ⟨-, pp', hpmem', hpp'⟩ := hcase'.resolve_left hne'
      cases hp.symm.trans hpp
      cases hp'.symm.trans hpp'
      have hparents : p = p' := ih hpmem hpmem' hup'
      have hshown {f : ℕ} {x : Folder} (hx : db.folders.get f = some x) (hxl : db.liveFolder userId f x = true)
          (hxp : x.parentId = some p) : db.Named ⟨userId, some p⟩ (.folder f) x.name := by
        simp only [Db.liveFolder, Bool.and_eq_true, decide_eq_true_eq, Bool.not_eq_true'] at hxl
        unfold Db.Named Db.shown
        simp only [hx, Option.bind_some, Folder.shown, hxl.1.2, Folder.slot, hxl.1.1, hxp]
        rfl
      have hsame : r.name = r'.name := Subtype.ext (List.cons.inj hname).1
      have hentry := hu _ _ _ _ (hshown hr hl hp) (hsame ▸ hshown hr' hl' (hparents ▸ hp'))
      exact Entry.folder.inj hentry

/-- The entry of a row. -/
def ArchiveRow.entry (row : ArchiveRow) : Entry := if row.isFolder then .folder row.folderId else .file row.folderId

/-- Rows of the query for one entry are one. -/
theorem row_eq_of_entry {row' : ArchiveRow} (h : row ∈ db.archiveRows userId root)
    (h' : row' ∈ db.archiveRows userId root) (heq : row.entry = row'.entry) : row = row' := by
  rcases mem_archiveRows.mp h with ⟨i, r, hr, -, rfl⟩ | ⟨i, r, p, hr, -, -, -, -, -, rfl⟩
  · rcases mem_archiveRows.mp h' with ⟨j, r', hr', -, rfl⟩ | ⟨j, r', p, -, -, -, -, -, -, rfl⟩
    · have hij : i = j := Entry.folder.inj heq
      subst hij
      cases hr.symm.trans hr'
      rfl
    · cases heq
  · rcases mem_archiveRows.mp h' with ⟨j, r', hr', -, rfl⟩ | ⟨j, r', p, hr', -, -, -, -, -, rfl⟩
    · cases heq
    · have hij : i = j := Entry.file.inj heq
      subst hij
      cases hr.symm.trans hr'
      rfl

/-- A member below the shared folder is a live entry of a folder of the tree. -/
theorem named_of_mem (h : row ∈ db.archiveRows userId root) (hne : ¬(row.isFolder = true ∧ row.folderId = root)) :
    ∃ p ∈ db.subtree userId root, row.parentId = some p ∧
      ∃ n : DbText, n.val = row.name ∧ db.Named ⟨userId, some p⟩ row.entry n := by
  rcases mem_archiveRows.mp h with ⟨i, r, hr, hmem, rfl⟩ | ⟨i, r, p, hr, hu, hd, hf, hp, hmem, rfl⟩
  · obtain ⟨r', hr', hl, heq | ⟨-, p, hpmem, hp⟩⟩ := subtree_cases hmem
    · exact absurd ⟨rfl, heq⟩ hne
    · cases hr.symm.trans hr'
      simp only [Db.liveFolder, Bool.and_eq_true, decide_eq_true_eq, Bool.not_eq_true'] at hl
      refine ⟨p, hpmem, hp, r.name, rfl, ?_⟩
      show (db.folders.get i).bind Folder.shown = _
      rw [hr, Option.bind_some, Folder.shown, hl.1.2, Folder.slot, hl.1.1, hp]
      rfl
  · refine ⟨p, hmem, hp, r.name, rfl, ?_⟩
    show (db.files.get i).bind File.shown = _
    rw [hr, Option.bind_some, File.shown, hf, hd, File.slot, hu, hp]
    rfl

/-- **In a tree with unique names the names of the way determine the member.** -/
theorem names_injective (hu : db.NamesUnique) {row' : ArchiveRow} (h : row ∈ db.archiveRows userId root)
    (h' : row' ∈ db.archiveRows userId root) {names : List JsString} (hnames : db.Names root row names)
    (hnames' : db.Names root row' names) : row = row' := by
  have hshared : SharedRows db root (db.archiveRows userId root) := sharedRows_of_perm (List.Perm.refl _)
  refine row_eq_of_entry h h' ?_
  by_cases hroot : row.isFolder = true ∧ row.folderId = root
  · by_cases hroot' : row'.isFolder = true ∧ row'.folderId = root
    · unfold ArchiveRow.entry
      rw [if_pos hroot.1, if_pos hroot'.1, hroot.2, hroot'.2]
    · obtain ⟨p, -, hp, -⟩ := named_of_mem h' hroot'
      obtain ⟨names', -, rfl⟩ := hshared.names_of_parent h' hroot' hp hnames'
      unfold Db.Names at hnames
      rw [if_pos hroot.1, hroot.2] at hnames
      have := hnames.unique .root
      simp at this
  · obtain ⟨p, hpmem, hp, n, hn, hnamed⟩ := named_of_mem h hroot
    obtain ⟨names₁, hpath, rfl⟩ := hshared.names_of_parent h hroot hp hnames
    by_cases hroot' : row'.isFolder = true ∧ row'.folderId = root
    · unfold Db.Names at hnames'
      rw [if_pos hroot'.1, hroot'.2] at hnames'
      have := hnames'.unique .root
      simp at this
    · obtain ⟨p', hpmem', hp', n', hn', hnamed'⟩ := named_of_mem h' hroot'
      obtain ⟨names₂, hpath', heq⟩ := hshared.names_of_parent h' hroot' hp' hnames'
      obtain ⟨rfl, hname⟩ := List.append_inj' heq rfl
      have hparents : p = p' := treePath_injective hu hpmem hpmem' hpath hpath'
      subst hparents
      have hsame : n = n' := Subtype.ext (hn.trans ((List.cons.inj hname).1.trans hn'.symm))
      subst hsame
      exact hu _ _ _ _ hnamed hnamed'

end Query

/-! ## Distinct paths -/

/-- A name that slashes separate: not empty, and without one. -/
def Separable (name : JsString) : Prop := name ≠ [] ∧ 0x2F ∉ name

/-- Different members have different paths in the tree. -/
def TreePathsDiffer (db : Db) (root : ℕ) (rows : List ArchiveRow) : Prop :=
  ∀ row ∈ rows, ∀ row' ∈ rows, row ≠ row' → ∀ names names', db.Names root row names → db.Names root row' names' →
    slashed names ≠ slashed names'

theorem slashed_injective {names names' : List JsString} (h : ∀ n ∈ names, Separable n)
    (h' : ∀ n ∈ names', Separable n) (heq : slashed names = slashed names') : names = names' := by
  have hnil {ns : List JsString} (hns : ∀ n ∈ ns, Separable n) (hempty : slashed ns = []) : ns = [] := by
    rcases slashed_eq_nil hempty with rfl | rfl
    · rfl
    · exact absurd rfl (hns [] List.mem_cons_self).1
  by_cases hempty : names = []
  · subst hempty
    exact (hnil h' heq.symm).symm
  · by_cases hempty' : names' = []
    · subst hempty'
      exact hnil h heq
    · have hsplit := List.splitOn_intercalate 0x2F (fun n hn => (h n hn).2) hempty
      have hsplit' := List.splitOn_intercalate 0x2F (fun n hn => (h' n hn).2) hempty'
      unfold slashed at heq
      rw [← hsplit, heq, hsplit']

section Paths

variable {db : Db} {userId root : ℕ} {rows : List ArchiveRow}

/-- The names on the way to a folder are names of rows. -/
theorem forall_names_of_treePath {P : JsString → Prop} {i : ℕ} {names : List JsString}
    (hrows : ∀ row ∈ db.archiveRows userId root, ¬(row.isFolder = true ∧ row.folderId = root) → P row.name)
    (hi : i ∈ db.subtree userId root) (hpath : db.TreePath root i names) : ∀ n ∈ names, P n := by
  induction hpath with
  | root => exact fun n hn => absurd hn List.not_mem_nil
  | @child i r p names hr hne hp hup ih =>
    obtain ⟨r', hr', -, hcase⟩ := subtree_cases hi
    cases hr.symm.trans hr'
    obtain ⟨-, p', hpmem, hp'⟩ := hcase.resolve_left hne
    cases hp.symm.trans hp'
    intro n hn
    rcases List.mem_append.mp hn with hn | hn
    · exact ih hpmem n hn
    · cases List.mem_singleton.mp hn
      exact hrows _ (mem_archiveRows.mpr (.inl ⟨i, r, hr, hi, rfl⟩)) fun hand => hne hand.2

theorem forall_names {P : JsString → Prop} {row : ArchiveRow} {names : List JsString}
    (hrows : ∀ row ∈ db.archiveRows userId root, ¬(row.isFolder = true ∧ row.folderId = root) → P row.name)
    (hrow : row ∈ db.archiveRows userId root) (hnames : db.Names root row names) : ∀ n ∈ names, P n := by
  have hshared : SharedRows db root (db.archiveRows userId root) := sharedRows_of_perm (List.Perm.refl _)
  by_cases hroot : row.isFolder = true ∧ row.folderId = root
  · unfold Db.Names at hnames
    rw [if_pos hroot.1, hroot.2] at hnames
    rw [hnames.unique .root]
    exact fun n hn => absurd hn List.not_mem_nil
  · obtain ⟨p, hpmem, hp, -⟩ := named_of_mem hrow hroot
    obtain ⟨names', hpath, rfl⟩ := hshared.names_of_parent hrow hroot hp hnames
    intro n hn
    rcases List.mem_append.mp hn with hn | hn
    · exact forall_names_of_treePath hrows hpmem hpath n hn
    · cases List.mem_singleton.mp hn
      exact hrows row hrow hroot

/-- **Unique names without slashes make different paths.** -/
theorem treePathsDiffer_of_separable (hrows : rows.Perm (db.archiveRows userId root)) (hu : db.NamesUnique)
    (hnames : ∀ row ∈ rows, ¬(row.isFolder = true ∧ row.folderId = root) → Separable row.name) :
    TreePathsDiffer db root rows := by
  intro row hrow row' hrow' hne names names' hn hn' heq
  have hall : ∀ row ∈ db.archiveRows userId root, ¬(row.isFolder = true ∧ row.folderId = root) → Separable row.name :=
    fun row hrow => hnames row (hrows.mem_iff.mpr hrow)
  have hmem := hrows.mem_iff.mp hrow
  have hmem' := hrows.mem_iff.mp hrow'
  have hsame := slashed_injective (forall_names hall hmem hn) (forall_names hall hmem' hn') heq
  subst hsame
  exact hne (names_injective hu hmem hmem' hn hn')

/-- Right paths differ exactly when the paths in the tree do. -/
theorem nodup_paths_iff (hrows : rows.Perm (db.archiveRows userId root)) (hright : PathsRight db root rows) :
    ((listArchiveMembers root rows).map (·.logicalPath)).Nodup ↔ TreePathsDiffer db root rows := by
  have hd : rows.Nodup := hrows.nodup_iff.mpr nodup_archiveRows
  have hshared := sharedRows_of_perm hrows
  unfold listArchiveMembers
  rw [List.map_map]
  constructor
  · intro hpaths row hrow row' hrow' hne names names' hn hn' heq
    refine hne (List.inj_on_of_nodup_map hpaths hrow hrow' ?_)
    rw [Function.comp_apply, Function.comp_apply, hright row hrow names hn, hright row' hrow' names' hn', heq]
  · intro hdiffer
    refine hd.map_on fun row hrow row' hrow' heq => ?_
    by_contra hne
    obtain ⟨names, hn⟩ := hshared.names row hrow
    obtain ⟨names', hn'⟩ := hshared.names row' hrow'
    rw [Function.comp_apply, Function.comp_apply, hright row hrow names hn, hright row' hrow' names' hn'] at heq
    exact hdiffer row hrow row' hrow' hne names names' hn hn' heq

/-- **Paths in the archive**: for every order of the rows, the members have the paths of the tree, and different
ones if names are unique, exactly when every folder comes after its parent, no member lies in a folder without a
name directly in the shared one, and the paths of the tree differ if names are unique; these do where no name has
a slash. -/
theorem archive_paths_iff (hrows : rows.Perm (db.archiveRows userId root)) :
    ((PathsRight db root rows ∧
        (db.NamesUnique → ((listArchiveMembers root rows).map (·.logicalPath)).Nodup)) ↔
      (ParentsFirst root rows ∧ Titled root rows) ∧ (db.NamesUnique → TreePathsDiffer db root rows)) ∧
      ((∀ row ∈ rows, ¬(row.isFolder = true ∧ row.folderId = root) → Separable row.name) → db.NamesUnique →
        TreePathsDiffer db root rows) := by
  have hiff := paths_right_iff (sharedRows_of_perm hrows)
  refine ⟨⟨fun ⟨hright, hdistinct⟩ => ?_, fun ⟨hfirst, hdiffer⟩ => ?_⟩,
    fun hnames hu => treePathsDiffer_of_separable hrows hu hnames⟩
  · exact ⟨hiff.mp hright, fun hu => (nodup_paths_iff hrows hright).mp (hdistinct hu)⟩
  · have hright := hiff.mpr hfirst
    exact ⟨hright, fun hu => (nodup_paths_iff hrows hright).mpr (hdiffer hu)⟩

end Paths

/-- A folder, one in it, and one in that. -/
def threeFolders : List (Move Call Event) :=
  .call (.createFolder 1 [114] none) :: steps 1 4 ++
    .call (.createFolder 1 [97] (some 1)) :: steps 2 5 ++
    .call (.createFolder 1 [98] (some 2)) :: steps 3 5

/-- The rows of three folders, one in the other. -/
def threeRows : List ArchiveRow :=
  [⟨2, [97], true, none, 0, some 1⟩, ⟨3, [98], true, none, 0, some 2⟩, ⟨1, [114], true, none, 0, none⟩]

theorem archive_paths_of_threeRows :
    ∃ c, Reachable plainSettings anyStep oneUser c ∧ c.state.db.archiveRows 1 1 = threeRows ∧
      (PathsRight c.state.db 1 threeRows ∧
          (c.state.db.NamesUnique → ((listArchiveMembers 1 threeRows).map (·.logicalPath)).Nodup) ↔
        (ParentsFirst 1 threeRows ∧ Titled 1 threeRows) ∧
          (c.state.db.NamesUnique → TreePathsDiffer c.state.db 1 threeRows)) := by
  obtain ⟨c, hc, hp⟩ := exists_reachable plainSettings oneUser unchecked_ok threeFolders
    (fun c => c.state.db.archiveRows 1 1 = threeRows) (by decide +kernel)
  have heq := of_decide_eq_true hp
  exact ⟨c, hc, heq, (archive_paths_iff (List.Perm.of_eq heq.symm)).1⟩

/-- **Where a folder comes before its parent**, its path lacks the names above it. -/
theorem path_of_child_before_parent :
    ¬∀ c, Reachable plainSettings anyStep oneUser c → ∀ rows : List ArchiveRow,
      rows.Perm (c.state.db.archiveRows 1 1) → PathsRight c.state.db 1 rows := by
  intro hall
  obtain ⟨c, hc, hp⟩ := exists_reachable plainSettings oneUser unchecked_ok threeFolders
    (fun c => c.state.db.archiveRows 1 1 = threeRows) (by decide +kernel)
  have hperm : threeRows.reverse.Perm (c.state.db.archiveRows 1 1) :=
    (List.reverse_perm threeRows).trans (List.Perm.of_eq (of_decide_eq_true hp).symm)
  have hfirst := (sharedRows_of_perm hperm).parentsFirst_of_right (hall c hc _ hperm)
  obtain ⟨q, hq, -, hqid⟩ := hfirst [⟨1, [114], true, none, 0, none⟩] ⟨3, [98], true, none, 0, some 2⟩
    [⟨2, [97], true, none, 0, some 1⟩] rfl rfl (by decide) 2 rfl (by decide)
  rw [List.mem_singleton.mp hq] at hqid
  cases hqid

end HomeCloud
