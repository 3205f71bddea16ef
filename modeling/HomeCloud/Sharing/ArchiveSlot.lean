import HomeCloud.Sharing.Downloads
import HomeCloud.Sharing.FolderArchive

/-!
# The slot of a folder archive

A request for the archive of a shared folder plans it, takes one of the downloads of the link, and streams the
members. The names of the entries are checked while streaming, when the slot has been taken.

* `safeArchivePath`, `entryName`: the names of the entries.
* `streamFolderArchive`: the request.
* `Known`: the names that make the path of a member, for an order of the rows.
* `properParts_pathText`: the parts of a path are those of its names.
* `Streamable`, **`streams_iff`**: when the names of all members become entries.
* **`archive_slot_iff`**: a slot is taken for such members only when all of them are such.
-/

namespace HomeCloud

open Concurrent Relation Downloads

namespace FolderArchive

/-! ## The names of entries -/

/-- The parts between slashes of either kind. -/
def normalizedParts (path : JsString) : List JsString :=
  (path.map fun c => if c = 0x5C then 0x2F else c).splitOn 0x2F

/-- Those of the parts that are kept. -/
def properParts (path : JsString) : List JsString :=
  (normalizedParts path).filter fun part => part ≠ [] && part ≠ [0x2E]

def safeArchivePath (relativePath : JsString) : Option JsString :=
  if relativePath = [] then some []
  else if relativePath.head? = some 0x2F then none
  else if [0x2E, 0x2E] ∈ normalizedParts relativePath then none
  else if properParts relativePath = [] then none
  else some (slashed (properParts relativePath))

/-- `safeArchivePath(logicalPath) || logicalPath || "./"`. -/
def pathFor (member : ArchiveMember) : Option JsString :=
  (safeArchivePath member.logicalPath).map fun path =>
    if path ≠ [] then path else if member.logicalPath ≠ [] then member.logicalPath else [0x2E, 0x2F]

/-- The name under which a member is appended. -/
def entryName (member : ArchiveMember) : Option JsString :=
  (pathFor member).map fun entryName =>
    if member.isFolder then if member.logicalPath = [] then [0x2E, 0x2F] else entryName ++ [0x2F] else entryName

/-- The names of the entries that are streamed, one after the other, where the library takes the names. -/
def streamArchiveMembers (accepts : JsString → Bool) : List ArchiveMember → Option (List JsString)
  | [] => some []
  | member :: members => do
    let entryName ← entryName member
    guard (accepts entryName)
    let entries ← streamArchiveMembers accepts members
    return entryName :: entries

/-! ## The request -/

/-- How a request ends. -/
inductive ArchiveOutcome where
  | refused
  | streamed (entries : List JsString)
  | failed
  deriving DecidableEq

/-- The folder that the file of the link stands for. -/
def sharedFolder (view : View) : Option ℕ :=
  (view.db.files.get view.link.fileId).bind fun file => if file.isFolder then file.folderId else none

/-- The request, with the rows that its two queries return. -/
def streamFolderArchive (accepts : JsString → Bool) (view : View) (planned streamed : List ArchiveRow) :
    Link × ArchiveOutcome :=
  match sharedFolder view with
  | none => (view.link, .refused)
  | some root =>
    -- The plan is made and dropped: its paths are not looked at.
    let _ := listArchiveMembers root planned
    if view.link.admits view.now && view.allowed .archive then
      let link := { view.link with downloadCount := view.link.downloadCount + 1 }
      match streamArchiveMembers accepts (listArchiveMembers root streamed) with
      | some entries => (link, .streamed entries)
      | none => (link, .failed)
    else (view.link, .refused)

/-! ## Parts of paths -/

theorem dotdot_mem_normalizedParts {path : JsString} :
    [0x2E, 0x2E] ∈ normalizedParts path ↔ [0x2E, 0x2E] ∈ properParts path := by
  unfold properParts
  rw [List.mem_filter]
  exact ⟨fun h => ⟨h, by decide⟩, And.left⟩

/-- **What `safeArchivePath` admits**, but for the shared folder itself. -/
theorem safeArchivePath_eq {path : JsString} (h : path ≠ []) :
    safeArchivePath path =
      if path.head? ≠ some 0x2F ∧ [0x2E, 0x2E] ∉ properParts path ∧ properParts path ≠ [] then
        some (slashed (properParts path))
      else none := by
  unfold safeArchivePath
  simp only [if_neg h, dotdot_mem_normalizedParts]
  split_ifs <;> simp_all

theorem properParts_nil : properParts [] = [] := by
  decide

theorem properParts_append (path path' : JsString) :
    properParts (path ++ 0x2F :: path') = properParts path ++ properParts path' := by
  unfold properParts normalizedParts
  rw [List.map_append, List.map_cons, if_neg (by decide), List.splitOn_append_cons_self, List.filter_append]

/-- The text of a path: names joined by slashes, but none after an empty path. -/
def pathText (names : List JsString) : JsString :=
  names.foldl (fun path name => if path = [] then name else path ++ 0x2F :: name) []

theorem pathText_append (names : List JsString) (name : JsString) :
    pathText (names ++ [name]) = if pathText names = [] then name else pathText names ++ 0x2F :: name := by
  unfold pathText
  rw [List.foldl_append]
  rfl

/-- **The parts of a path are those of its names.** -/
theorem properParts_pathText (names : List JsString) : properParts (pathText names) = names.flatMap properParts := by
  induction names using List.reverseRecOn with
  | nil => exact properParts_nil
  | append_singleton names name ih =>
    rw [pathText_append, List.flatMap_append, List.flatMap_singleton, ← ih]
    split
    · next h => rw [h, properParts_nil, List.nil_append]
    · exact properParts_append _ _

/-- A path begins like the first name, where that is not empty. -/
theorem head?_pathText {name : JsString} (h : name ≠ []) (names : List JsString) :
    pathText (name :: names) ≠ [] ∧ (pathText (name :: names)).head? = name.head? := by
  induction names using List.reverseRecOn with
  | nil => exact ⟨h, rfl⟩
  | append_singleton names last ih =>
    rw [← List.cons_append, pathText_append, if_neg ih.1]
    obtain ⟨c, cs, hc⟩ := List.exists_cons_of_ne_nil ih.1
    rw [hc] at ih ⊢
    exact ⟨List.cons_ne_nil _ _, ih.2⟩

/-- A part that is kept. -/
theorem separable_of_mem_properParts {path part : JsString} (h : part ∈ properParts path) :
    Separable part ∧ part ≠ [0x2E] := by
  obtain ⟨hmem, hkeep⟩ := List.mem_filter.mp h
  rw [Bool.and_eq_true, decide_eq_true_iff, decide_eq_true_iff] at hkeep
  exact ⟨⟨hkeep.1, not_mem_of_mem_splitOn hmem⟩, hkeep.2⟩

/-! ## The names of a path -/

/-- A row of the folder `p` comes before the row. -/
def Before (rows : List ArchiveRow) (p : ℕ) (row : ArchiveRow) : Prop :=
  ∃ pre post, rows = pre ++ row :: post ∧ ∃ q ∈ pre, q.isFolder = true ∧ q.folderId = p

/-- The row is that of the shared folder. -/
def IsRoot (root : ℕ) (row : ArchiveRow) : Prop := row.isFolder = true ∧ row.folderId = root

/-- The path of a member starts with its name: its parent is the shared folder, or is visited after it. -/
def Starts (root : ℕ) (rows : List ArchiveRow) (row : ArchiveRow) : Prop :=
  ∃ p, row.parentId = some p ∧ (p = root ∨ row.isFolder = true ∧ ¬Before rows p row)

/-- The names that make the path of a member, for the given order of the rows. -/
inductive Known (root : ℕ) (rows : List ArchiveRow) : ArchiveRow → List JsString → Prop
  | start {row} : Starts root rows row → Known root rows row [row.name]
  | under {row q names} : q ∈ rows → q.isFolder = true → q.folderId ≠ root → row.parentId = some q.folderId →
      (row.isFolder = true → Before rows q.folderId row) → Known root rows q names →
      Known root rows row (names ++ [row.name])

section Known

variable {db : Db} {root : ℕ} {rows : List ArchiveRow} {row : ArchiveRow} {names : List JsString}

theorem below_of_parent (names : List JsString) {map : FolderPathMap} {p : ℕ} (hp : row.parentId = some p)
    (hmap : map p = some (pathText names)) : map.below row = pathText (names ++ [row.name]) := by
  unfold FolderPathMap.below
  rw [hp, Option.bind_some, hmap, Option.getD_some, pathText_append]

/-- The path of a row, from what the map holds for folders. -/
theorem logicalPath_eq {map : FolderPathMap} {path : JsString}
    (hfolder : row.isFolder = true → map row.folderId = some path)
    (hfile : row.isFolder = false → map.below row = path) : logicalPath map row = path := by
  unfold logicalPath
  split
  · next hf =>
    rw [hfolder hf]
    rfl
  · next hf => exact hfile (Bool.not_eq_true _ ▸ hf)

theorem filter_split {pre post : List ArchiveRow} (hrows : rows = pre ++ row :: post) (hf : row.isFolder = true) :
    rows.filter (·.isFolder) = pre.filter (·.isFolder) ++ row :: post.filter (·.isFolder) := by
  rw [hrows, List.filter_append, List.filter_cons_of_pos hf]

/-- **What the map holds for a folder is made of its names.** -/
theorem pathMap_of_known (h : SharedRows db root rows) (hk : Known root rows row names) (hrow : row ∈ rows)
    (hf : row.isFolder = true) (hne : row.folderId ≠ root) :
    folderPathMap root rows row.folderId = some (pathText names) := by
  induction hk with
  | @start row hstart =>
    obtain ⟨p, hp, hcase⟩ := hstart
    obtain ⟨pre, post, hrows⟩ := List.append_of_mem hrow
    have hvisit := pathMap_of_mem h.nodup (filter_split hrows hf) hne hp
    by_cases hpr : p = root
    · rw [hvisit.1 (.inl hpr)]
      exact congrArg some (below_of_parent [] hp (hpr ▸ folderPathMap_root))
    · refine hvisit.2 hpr fun hmem => ?_
      obtain ⟨q, hq, hqid⟩ := List.mem_map.mp hmem
      obtain ⟨hq, hqf⟩ := List.mem_filter.mp hq
      exact (hcase.resolve_left hpr).2 ⟨pre, post, hrows, q, hq, hqf, hqid⟩
  | @under row q names hq hqf hqr hp hbefore _ ih =>
    obtain ⟨pre, post, hrows, q', hq', hqf', hqid'⟩ := hbefore hf
    rw [(pathMap_of_mem h.nodup (filter_split hrows hf) hne hp).1
      (.inr (List.mem_map.mpr ⟨q', List.mem_filter.mpr ⟨hq', hqf'⟩, hqid'⟩))]
    exact congrArg some (below_of_parent _ hp (ih hq hqf hqr))

/-- **The path of a member is made of its names.** -/
theorem path_of_known (h : SharedRows db root rows) (hk : Known root rows row names) (hrow : row ∈ rows)
    (hne : ¬IsRoot root row) : logicalPath (folderPathMap root rows) row = pathText names := by
  refine logicalPath_eq (fun hf => pathMap_of_known h hk hrow hf fun heq => hne ⟨hf, heq⟩) fun hf => ?_
  cases hk with
  | start hstart =>
    obtain ⟨p, hp, hcase⟩ := hstart
    have hpr : p = root := hcase.resolve_right fun hand => by simp [hf] at hand
    exact below_of_parent [] hp (hpr ▸ folderPathMap_root)
  | under hq hqf hqr hp _ hk => exact below_of_parent _ hp (pathMap_of_known h hk hq hqf hqr)

/-- Every member below the shared folder has names. -/
theorem exists_known (h : SharedRows db root rows) (hrow : row ∈ rows) (hne : ¬IsRoot root row) :
    ∃ names, Known root rows row names := by
  have hfolders {i : ℕ} {way : List JsString} (hpath : db.TreePath root i way) (hi : i ≠ root) :
      ∀ q ∈ rows, q.isFolder = true → q.folderId = i → ∃ names, Known root rows q names := by
    induction hpath with
    | root => exact absurd rfl hi
    | @child i r p way hr _ hp hup ih =>
      intro q hq hqf hqid
      obtain ⟨r', hr', -, hparent⟩ := h.folder q hq hqf
      rw [hqid] at hr'
      cases hr.symm.trans hr'
      rw [hp] at hparent
      by_cases hpr : p = root
      · exact ⟨_, .start ⟨p, hparent, .inl hpr⟩⟩
      · by_cases hbefore : Before rows p q
        · obtain ⟨pre, post, hrows, q', hq', hqf', hqid'⟩ := hbefore
          have hmem : q' ∈ rows := hrows ▸ List.mem_append_left _ hq'
          obtain ⟨names, hk⟩ := ih hpr q' hmem hqf' hqid'
          exact ⟨_, .under hmem hqf' (hqid' ▸ hpr) (hqid' ▸ hparent)
            (fun _ => ⟨pre, post, hrows, q', hq', hqf', rfl⟩) hk⟩
        · exact ⟨_, .start ⟨p, hparent, .inr ⟨hqf, hbefore⟩⟩⟩
  by_cases hf : row.isFolder = true
  · obtain ⟨way, hway⟩ := h.names row hrow
    unfold Db.Names at hway
    rw [if_pos hf] at hway
    exact hfolders hway (fun heq => hne ⟨hf, heq⟩) row hrow hf rfl
  · obtain ⟨p, hp, hcase⟩ := h.parent row hrow hne
    by_cases hpr : p = root
    · exact ⟨_, .start ⟨p, hp, .inl hpr⟩⟩
    · obtain ⟨q, hq, hqf, rfl⟩ := hcase.resolve_left hpr
      obtain ⟨way, hway, -⟩ := h.exists_parent hrow hne hp
      obtain ⟨names, hk⟩ := hfolders hway hpr q hq hqf rfl
      exact ⟨_, .under hq hqf hpr hp (fun hf' => absurd hf' hf) hk⟩

end Known

/-! ## Members that become entries -/

/-- The entry of a member with the given names. -/
def entryText (row : ArchiveRow) (names : List JsString) : JsString :=
  slashed (names.flatMap properParts) ++ if row.isFolder then [0x2F] else []

/-- The names of all members become entries, and different members different ones. -/
def Entries (accepts : JsString → Bool) (members : List ArchiveMember) : Prop :=
  (∀ member ∈ members, ∃ name ∈ entryName member, accepts name = true) ∧ (members.map entryName).Nodup

/-- **What the rows have to be like**: no name has a part `..`; where a path starts, the name does not begin with a
slash and has a part that is kept; different members of one kind differ in the parts of their names; and the
library takes the names. -/
structure Streamable (accepts : JsString → Bool) (root : ℕ) (rows : List ArchiveRow) : Prop where
  dotdot : ∀ row ∈ rows, ¬IsRoot root row → [0x2E, 0x2E] ∉ properParts row.name
  starts : ∀ row ∈ rows, ¬IsRoot root row → Starts root rows row →
    row.name.head? ≠ some 0x2F ∧ properParts row.name ≠ []
  differ : ∀ row ∈ rows, ∀ row' ∈ rows, ¬IsRoot root row → ¬IsRoot root row' → row ≠ row' →
    row.isFolder = row'.isFolder → ∀ names names', Known root rows row names → Known root rows row' names' →
      names.flatMap properParts ≠ names'.flatMap properParts
  accepted : accepts [0x2E, 0x2F] = true ∧ ∀ row ∈ rows, ¬IsRoot root row → ∀ names, Known root rows row names →
    accepts (entryText row names) = true

section Streamable

variable {db : Db} {root : ℕ} {rows : List ArchiveRow} {row : ArchiveRow} {names : List JsString}
  {accepts : JsString → Bool}

/-- The entry of the shared folder. -/
theorem entryName_root (hr : IsRoot root row) :
    entryName (row.member (folderPathMap root rows)) = some [0x2E, 0x2F] := by
  have hpath : (row.member (folderPathMap root rows)).logicalPath = [] := by
    refine logicalPath_eq (fun _ => ?_) fun hf => ?_
    · rw [hr.2]
      exact folderPathMap_root
    · rw [hr.1] at hf
      cases hf
  unfold entryName pathFor
  rw [hpath]
  simp only [safeArchivePath]
  split
  · rfl
  · next hf => exact absurd hr.1 hf

/-- The entry of a member whose path is not empty. -/
theorem entryName_of_known (h : SharedRows db root rows) (hk : Known root rows row names) (hrow : row ∈ rows)
    (hne : ¬IsRoot root row) (htext : pathText names ≠ []) :
    entryName (row.member (folderPathMap root rows)) =
      if (pathText names).head? ≠ some 0x2F ∧ [0x2E, 0x2E] ∉ names.flatMap properParts ∧
          names.flatMap properParts ≠ [] then some (entryText row names)
      else none := by
  have hpath : (row.member (folderPathMap root rows)).logicalPath = pathText names := path_of_known h hk hrow hne
  unfold entryName pathFor
  rw [hpath, safeArchivePath_eq htext, properParts_pathText]
  by_cases hsafe : (pathText names).head? ≠ some 0x2F ∧ [0x2E, 0x2E] ∉ names.flatMap properParts ∧
      names.flatMap properParts ≠ []
  · have hparts : slashed (names.flatMap properParts) ≠ [] := by
      intro hempty
      rcases slashed_eq_nil hempty with heq | heq
      · exact hsafe.2.2 heq
      · have hmem : ([] : JsString) ∈ names.flatMap properParts := heq ▸ List.mem_cons_self
        obtain ⟨n, -, hn⟩ := List.mem_flatMap.mp hmem
        exact (separable_of_mem_properParts hn).1.1 rfl
    rw [if_pos hsafe, if_pos hsafe, Option.map_some, Option.map_some, if_pos hparts, if_neg htext]
    unfold entryText
    congr 1
    show (if row.isFolder then _ else _) = _
    split
    · rfl
    · rw [List.append_nil]
  · rw [if_neg hsafe, if_neg hsafe]
    rfl

/-- The entry of a member whose path is empty is that of the shared folder. -/
theorem entryName_of_empty (h : SharedRows db root rows) (hk : Known root rows row names) (hrow : row ∈ rows)
    (hne : ¬IsRoot root row) (htext : pathText names = []) :
    entryName (row.member (folderPathMap root rows)) = some [0x2E, 0x2F] := by
  have hpath : (row.member (folderPathMap root rows)).logicalPath = [] := (path_of_known h hk hrow hne).trans htext
  unfold entryName pathFor
  rw [hpath]
  simp only [safeArchivePath]
  split <;> rfl

/-- The own name comes last, and no name of the way has a part `..`. -/
theorem mem_of_known (hk : Known root rows row names) : row.name ∈ names := by
  cases hk with
  | start => exact List.mem_cons_self
  | under => exact List.mem_append_right _ List.mem_cons_self

theorem Streamable.name_parts (h : Streamable accepts root rows) (hk : Known root rows row names) (hrow : row ∈ rows)
    (hne : ¬IsRoot root row) :
    (∀ n ∈ names, [0x2E, 0x2E] ∉ properParts n) ∧
      ∃ first rest, names = first :: rest ∧ first.head? ≠ some 0x2F ∧ properParts first ≠ [] := by
  induction hk with
  | @start row hstart =>
    refine ⟨fun n hn => ?_, row.name, [], rfl, h.starts row hrow hne hstart⟩
    cases List.mem_singleton.mp hn
    exact h.dotdot row hrow hne
  | @under row q names hq _ hqr _ _ _ ih =>
    obtain ⟨hall, first, rest, rfl, hfirst⟩ := ih hq fun hand => hqr hand.2
    refine ⟨fun n hn => ?_, first, rest ++ [row.name], rfl, hfirst⟩
    rcases List.mem_append.mp hn with hn | hn
    · exact hall n hn
    · cases List.mem_singleton.mp hn
      exact h.dotdot row hrow hne

/-- The entries of such members. -/
theorem Streamable.entryName (hs : Streamable accepts root rows) (h : SharedRows db root rows)
    (hk : Known root rows row names) (hrow : row ∈ rows) (hne : ¬IsRoot root row) :
    entryName (row.member (folderPathMap root rows)) = some (entryText row names) ∧
      names.flatMap properParts ≠ [] := by
  obtain ⟨hall, first, rest, rfl, hhead, hparts⟩ := hs.name_parts hk hrow hne
  have hfirst : first ≠ [] := by
    rintro rfl
    exact hparts properParts_nil
  obtain ⟨htext, hhead'⟩ := head?_pathText hfirst rest
  have hsome : (first :: rest).flatMap properParts ≠ [] := by
    rw [List.flatMap_cons]
    exact fun heq => hparts (List.append_eq_nil_iff.mp heq).1
  refine ⟨?_, hsome⟩
  rw [entryName_of_known h hk hrow hne htext, if_pos]
  refine ⟨hhead' ▸ hhead, fun hmem => ?_, hsome⟩
  obtain ⟨n, hn, hdots⟩ := List.mem_flatMap.mp hmem
  exact hall n hn hdots

/-- The parts of an entry can be read off it. -/
theorem splitOn_entryText (hparts : names.flatMap properParts ≠ []) :
    (entryText row names).splitOn 0x2F = names.flatMap properParts ++ if row.isFolder then [[]] else [] := by
  have hsplit : (slashed (names.flatMap properParts)).splitOn 0x2F = names.flatMap properParts := by
    refine List.splitOn_intercalate 0x2F (fun part hpart => ?_) hparts
    obtain ⟨n, -, hn⟩ := List.mem_flatMap.mp hpart
    exact (separable_of_mem_properParts hn).1.2
  unfold entryText
  split
  · rw [List.splitOn_append_cons_self, hsplit, List.splitOn_nil]
  · rw [List.append_nil, List.append_nil, hsplit]

theorem nil_not_mem_parts : ([] : JsString) ∉ names.flatMap properParts := by
  intro hmem
  obtain ⟨n, -, hn⟩ := List.mem_flatMap.mp hmem
  exact (separable_of_mem_properParts hn).1.1 rfl

/-- Equal entries are of one kind and have the same parts. -/
theorem entryText_injective {row' : ArchiveRow} {names' : List JsString} (hparts : names.flatMap properParts ≠ [])
    (hparts' : names'.flatMap properParts ≠ []) (heq : entryText row names = entryText row' names') :
    row.isFolder = row'.isFolder ∧ names.flatMap properParts = names'.flatMap properParts := by
  have hsplit := congrArg (·.splitOn 0x2F) heq
  simp only [splitOn_entryText hparts, splitOn_entryText hparts'] at hsplit
  cases hf : row.isFolder <;> cases hf' : row'.isFolder <;> rw [hf, hf'] at hsplit
  · simp only [Bool.false_eq_true, if_false, List.append_nil] at hsplit
    exact ⟨rfl, hsplit⟩
  · simp only [Bool.false_eq_true, if_false, if_true, List.append_nil] at hsplit
    have hmem : ([] : JsString) ∈ names.flatMap properParts :=
      hsplit ▸ List.mem_append_right _ List.mem_cons_self
    exact absurd hmem nil_not_mem_parts
  · simp only [Bool.false_eq_true, if_false, if_true, List.append_nil] at hsplit
    have hmem : ([] : JsString) ∈ names'.flatMap properParts :=
      hsplit ▸ List.mem_append_right _ List.mem_cons_self
    exact absurd hmem nil_not_mem_parts
  · exact ⟨rfl, (List.append_inj' hsplit rfl).1⟩

/-- No member has the entry of the shared folder. -/
theorem entryText_ne_root (hparts : names.flatMap properParts ≠ []) : entryText row names ≠ [0x2E, 0x2F] := by
  intro heq
  have hsplit := congrArg (·.splitOn 0x2F) heq
  simp only [splitOn_entryText hparts] at hsplit
  have hroot : ([0x2E, 0x2F] : JsString).splitOn 0x2F = [[0x2E], []] := by decide
  rw [hroot] at hsplit
  have hdot : [0x2E] ∈ names.flatMap properParts := by
    obtain ⟨part, parts, hcons⟩ := List.exists_cons_of_ne_nil hparts
    rw [hcons, List.cons_append] at hsplit
    rw [hcons, (List.cons.inj hsplit).1]
    exact List.mem_cons_self
  obtain ⟨n, -, hn⟩ := List.mem_flatMap.mp hdot
  exact (separable_of_mem_properParts hn).2 rfl

/-- **The names of all members become entries exactly for such rows.** -/
theorem entries_iff (h : SharedRows db root rows) (hd : rows.Nodup) (hroot : ∃ row ∈ rows, IsRoot root row) :
    Entries accepts (listArchiveMembers root rows) ↔ Streamable accepts root rows := by
  obtain ⟨top, htop, htoproot⟩ := hroot
  unfold Entries listArchiveMembers
  rw [List.map_map]
  simp only [List.forall_mem_map]
  constructor
  · rintro ⟨hall, hnodup⟩
    have hinj {a b : ArchiveRow} (ha : a ∈ rows) (hb : b ∈ rows)
        (heq : entryName (a.member (folderPathMap root rows)) = entryName (b.member (folderPathMap root rows))) : a = b :=
      List.inj_on_of_nodup_map hnodup ha hb heq
    have hsafe {row : ArchiveRow} {names : List JsString} (hrow : row ∈ rows) (hne : ¬IsRoot root row)
        (hk : Known root rows row names) :
        entryName (row.member (folderPathMap root rows)) = some (entryText row names) ∧
          (pathText names).head? ≠ some 0x2F ∧ [0x2E, 0x2E] ∉ names.flatMap properParts ∧
            names.flatMap properParts ≠ [] := by
      have htext : pathText names ≠ [] := by
        intro hempty
        have heq := hinj hrow htop ((entryName_of_empty h hk hrow hne hempty).trans (entryName_root htoproot).symm)
        exact hne (heq ▸ htoproot)
      obtain ⟨name, hname, -⟩ := hall row hrow
      have hentry := entryName_of_known h hk hrow hne htext
      by_cases hand : (pathText names).head? ≠ some 0x2F ∧ [0x2E, 0x2E] ∉ names.flatMap properParts ∧
          names.flatMap properParts ≠ []
      · exact ⟨hentry.trans (if_pos hand), hand⟩
      · rw [hentry, if_neg hand] at hname
        cases hname
    refine ⟨fun row hrow hne hdots => ?_, fun row hrow hne hstart => ?_, ?_, ?_, ?_⟩
    · obtain ⟨names, hk⟩ := exists_known h hrow hne
      exact (hsafe hrow hne hk).2.2.1 (List.mem_flatMap.mpr ⟨row.name, mem_of_known hk, hdots⟩)
    · obtain ⟨-, hhead, -, hparts⟩ := hsafe hrow hne (.start hstart)
      rw [List.flatMap_singleton] at hparts
      exact ⟨hhead, hparts⟩
    · intro row hrow row' hrow' hne hne' hdiffer hkind names names' hk hk' hparts
      refine hdiffer (hinj hrow hrow' ?_)
      rw [(hsafe hrow hne hk).1, (hsafe hrow' hne' hk').1]
      unfold entryText
      rw [hparts, hkind]
    · obtain ⟨name, hname, haccepts⟩ := hall top htop
      rw [entryName_root htoproot] at hname
      cases hname
      exact haccepts
    · intro row hrow hne names hk
      obtain ⟨name, hname, haccepts⟩ := hall row hrow
      rw [(hsafe hrow hne hk).1] at hname
      cases hname
      exact haccepts
  · intro hs
    refine ⟨fun row hrow => ?_, hd.map_on fun row hrow row' hrow' heq => ?_⟩
    · by_cases hne : IsRoot root row
      · exact ⟨_, entryName_root hne, hs.accepted.1⟩
      · obtain ⟨names, hk⟩ := exists_known h hrow hne
        exact ⟨_, (hs.entryName h hk hrow hne).1, hs.accepted.2 row hrow hne names hk⟩
    · rw [Function.comp_apply, Function.comp_apply] at heq
      by_cases hne : IsRoot root row
      · by_cases hne' : IsRoot root row'
        · have hid : row.folderId = row'.folderId := hne.2.trans hne'.2.symm
          exact List.inj_on_of_nodup_map h.nodup (List.mem_filter.mpr ⟨hrow, hne.1⟩)
            (List.mem_filter.mpr ⟨hrow', hne'.1⟩) hid
        · obtain ⟨names', hk'⟩ := exists_known h hrow' hne'
          obtain ⟨hentry', hparts'⟩ := hs.entryName h hk' hrow' hne'
          rw [entryName_root hne, hentry'] at heq
          exact absurd (Option.some.inj heq).symm (entryText_ne_root hparts')
      · obtain ⟨names, hk⟩ := exists_known h hrow hne
        obtain ⟨hentry, hparts⟩ := hs.entryName h hk hrow hne
        by_cases hne' : IsRoot root row'
        · rw [entryName_root hne', hentry] at heq
          exact absurd (Option.some.inj heq) (entryText_ne_root hparts)
        · obtain ⟨names', hk'⟩ := exists_known h hrow' hne'
          obtain ⟨hentry', hparts'⟩ := hs.entryName h hk' hrow' hne'
          rw [hentry, hentry'] at heq
          obtain ⟨hkind, hsame⟩ := entryText_injective hparts hparts' (Option.some.inj heq)
          by_contra hdiffer
          exact hs.differ row hrow row' hrow' hne hne' hdiffer hkind names names' hk hk' hsame

end Streamable

/-! ## Names that make entries -/

/-- A name that is kept as it is. -/
structure Clean (name : JsString) : Prop where
  ne_nil : name ≠ []
  ne_dot : name ≠ [0x2E]
  ne_dotdot : name ≠ [0x2E, 0x2E]
  slash : 0x2F ∉ name
  backslash : 0x5C ∉ name

theorem properParts_of_clean {name : JsString} (h : Clean name) : properParts name = [name] := by
  have hmap : name.map (fun c => if c = 0x5C then 0x2F else c) = name := by
    refine (List.map_congr_left fun c hc => ?_).trans (List.map_id name)
    rw [if_neg fun heq : c = 0x5C => h.backslash (heq ▸ hc), id]
  unfold properParts normalizedParts
  rw [hmap, List.splitOn_eq_singleton h.slash, List.filter_cons_of_pos, List.filter_nil]
  simp [h.ne_nil, h.ne_dot]

/-- With parents first, the names of a path are those of the way from the shared folder. -/
theorem names_of_known {db : Db} {root : ℕ} {rows : List ArchiveRow} {row : ArchiveRow} {names : List JsString}
    (h : SharedRows db root rows) (hfirst : ParentsFirst root rows) (hk : Known root rows row names) (hrow : row ∈ rows)
    (hne : ¬IsRoot root row) : db.Names root row names := by
  have hunder {row : ArchiveRow} {p : ℕ} {way : List JsString} (hrow : row ∈ rows) (hne : ¬IsRoot root row)
      (hp : row.parentId = some p) (hway : db.TreePath root p way) : db.Names root row (way ++ [row.name]) := by
    unfold Db.Names
    split
    · next hf =>
      obtain ⟨r, hr, hname, hparent⟩ := h.folder row hrow hf
      rw [hname]
      exact .child hr (fun heq => hne ⟨hf, heq⟩) (hparent.symm.trans hp) hway
    · exact ⟨p, way, hp, hway, rfl⟩
  induction hk with
  | @start row hstart =>
    obtain ⟨p, hp, hcase⟩ := hstart
    have hpr : p = root := by
      by_contra hpr
      obtain ⟨hf, hbefore⟩ := hcase.resolve_left hpr
      obtain ⟨pre, post, hrows⟩ := List.append_of_mem hrow
      exact hbefore ⟨pre, post, hrows, hfirst pre row post hrows hf (fun heq => hne ⟨hf, heq⟩) p hp hpr⟩
    subst hpr
    exact hunder hrow hne hp .root
  | @under row q names hq hqf hqr hp _ _ ih =>
    have hway := ih hq fun hand => hqr hand.2
    unfold Db.Names at hway
    rw [if_pos hqf] at hway
    exact hunder hrow hne hp hway

/-- **Clean and unique names, and parents first, are enough.** -/
theorem streamable_of_clean {db : Db} {userId root : ℕ} {rows : List ArchiveRow} {accepts : JsString → Bool}
    (hrows : rows.Perm (db.archiveRows userId root)) (hfirst : ParentsFirst root rows) (hu : db.NamesUnique)
    (hclean : ∀ row ∈ rows, ¬IsRoot root row → Clean row.name) (hroot : accepts [0x2E, 0x2F] = true)
    (haccepts : ∀ row ∈ rows, ¬IsRoot root row → ∀ names, Known root rows row names →
      accepts (entryText row names) = true) : Streamable accepts root rows := by
  have h := sharedRows_of_perm hrows
  refine ⟨fun row hrow hne hdots => ?_, fun row hrow hne _ => ?_, ?_, hroot, haccepts⟩
  · rw [properParts_of_clean (hclean row hrow hne), List.mem_singleton] at hdots
    exact (hclean row hrow hne).ne_dotdot hdots.symm
  · rw [properParts_of_clean (hclean row hrow hne)]
    exact ⟨fun hhead => (hclean row hrow hne).slash (List.mem_of_head? hhead), List.cons_ne_nil _ _⟩
  · intro row hrow row' hrow' hne hne' hdiffer _ names names' hk hk' hparts
    have hall {row : ArchiveRow} {names : List JsString} (hrow : row ∈ rows) (hne : ¬IsRoot root row)
        (hk : Known root rows row names) : names.flatMap properParts = names := by
      have hnames := forall_names (P := Clean)
        (fun row hrow hne => hclean row (hrows.mem_iff.mpr hrow) hne) (hrows.mem_iff.mp hrow)
        (names_of_known h hfirst hk hrow hne)
      rw [List.flatMap_congr (g := fun n => [n]) fun n hn => properParts_of_clean (hnames n hn)]
      exact List.flatMap_singleton' names
    rw [hall hrow hne hk, hall hrow' hne' hk'] at hparts
    subst hparts
    exact hdiffer (names_injective hu (hrows.mem_iff.mp hrow) (hrows.mem_iff.mp hrow')
      (names_of_known h hfirst hk hrow hne) (names_of_known h hfirst hk' hrow' hne'))

/-! ## The request -/

theorem streamArchiveMembers_eq_some {accepts : JsString → Bool} {members : List ArchiveMember}
    {entries : List JsString} : streamArchiveMembers accepts members = some entries ↔
      members.map entryName = entries.map some ∧ ∀ entry ∈ entries, accepts entry = true := by
  induction members generalizing entries with
  | nil =>
    rw [streamArchiveMembers, List.map_nil]
    constructor
    · intro h
      cases h
      exact ⟨rfl, fun _ h => absurd h List.not_mem_nil⟩
    · rintro ⟨h, -⟩
      rw [List.map_eq_nil_iff.mp h.symm]
  | cons member members ih =>
    rw [streamArchiveMembers, List.map_cons]
    constructor
    · intro h
      obtain ⟨name, hname, h⟩ := Option.bind_eq_some_iff.mp h
      obtain ⟨_, hguard, h⟩ := Option.bind_eq_some_iff.mp h
      obtain ⟨rest, hrest, h⟩ := Option.bind_eq_some_iff.mp h
      cases h
      obtain ⟨hmap, hall⟩ := ih.mp hrest
      have haccept : accepts name = true := by
        by_contra hno
        rw [guard, if_neg hno] at hguard
        cases hguard
      exact ⟨by rw [hname, hmap, List.map_cons], List.forall_mem_cons.mpr ⟨haccept, hall⟩⟩
    · rintro ⟨hmap, hall⟩
      cases entries with
      | nil => cases hmap
      | cons name entries =>
        obtain ⟨hname, hmap⟩ := List.cons.inj hmap
        obtain ⟨haccept, hall⟩ := List.forall_mem_cons.mp hall
        simp only [hname, ih.mpr ⟨hmap, hall⟩, guard, if_pos haccept, Option.bind_eq_bind, Option.bind_some]
        rfl

/-- The streaming ends well with different entries exactly when all names become entries. -/
theorem streams_iff {accepts : JsString → Bool} {members : List ArchiveMember} :
    (∃ entries, streamArchiveMembers accepts members = some entries ∧ entries.Nodup) ↔ Entries accepts members := by
  constructor
  · rintro ⟨entries, hstream, hnodup⟩
    obtain ⟨hmap, hall⟩ := streamArchiveMembers_eq_some.mp hstream
    refine ⟨fun member hmember => ?_, ?_⟩
    · have hmem : entryName member ∈ entries.map some := hmap ▸ List.mem_map_of_mem hmember
      obtain ⟨entry, hentry, heq⟩ := List.mem_map.mp hmem
      exact ⟨entry, heq.symm, hall entry hentry⟩
    · rw [hmap]
      exact hnodup.map (Option.some_injective _)
  · rintro ⟨hall, hnodup⟩
    have hmap : ∃ entries : List JsString, members.map entryName = entries.map some := by
      refine ⟨members.filterMap entryName, ?_⟩
      clear hnodup
      induction members with
      | nil => rfl
      | cons member members ih =>
        obtain ⟨name, hname, -⟩ := hall member List.mem_cons_self
        have htail := ih fun m hm => hall m (List.mem_cons_of_mem _ hm)
        rw [List.map_cons, List.filterMap_cons_some hname, List.map_cons, htail, hname]
    obtain ⟨entries, hmap⟩ := hmap
    refine ⟨entries, streamArchiveMembers_eq_some.mpr ⟨hmap, fun entry hentry => ?_⟩, ?_⟩
    · have hmem : some entry ∈ members.map entryName := hmap ▸ List.mem_map_of_mem hentry
      obtain ⟨member, hmember, heq⟩ := List.mem_map.mp hmem
      obtain ⟨name, hname, haccept⟩ := hall member hmember
      cases heq.symm.trans hname
      exact haccept
    · rw [hmap] at hnodup
      exact hnodup.of_map some

/-- What a plan is to be like: every path passes the check, and different members get different entries. -/
def PlanSafe (members : List ArchiveMember) : Prop :=
  (∀ member ∈ members, (safeArchivePath member.logicalPath).isSome = true) ∧ (members.map entryName).Nodup

theorem planSafe_iff {members : List ArchiveMember} : PlanSafe members ↔ Entries (fun _ => true) members := by
  refine and_congr_left fun _ => forall₂_congr fun member _ => ?_
  unfold entryName pathFor
  cases safeArchivePath member.logicalPath <;> simp

/-- A slot is taken for a plan that is safe and streams only; otherwise the link stays as it is. -/
def SlotHonest (accepts : JsString → Bool) (view : View) (planned streamed : List ArchiveRow) : Prop :=
  let result := streamFolderArchive accepts view planned streamed
  (result.1.downloadCount ≠ view.link.downloadCount → ∃ root, sharedFolder view = some root ∧
    PlanSafe (listArchiveMembers root planned) ∧ ∃ entries, result.2 = .streamed entries ∧ entries.Nodup) ∧
  ((∀ entries, result.2 ≠ .streamed entries) → result.1 = view.link)

/-- A link whose archive is admitted shares a live folder. -/
theorem sharedFolder_of_allowed {view : View} (h : view.allowed .archive = true) :
    ∃ root, sharedFolder view = some root ∧ LiveRoot view.db view.link.userId root := by
  obtain ⟨⟨userId, root⟩, hcontext, hvalid⟩ := (Option.any_eq_true ..).mp h
  unfold Db.shareContext at hcontext
  obtain ⟨mirror, hmirror, hcontext⟩ := Option.bind_eq_some_iff.mp hcontext
  obtain ⟨rootId, hrootId, hcontext⟩ := Option.bind_eq_some_iff.mp hcontext
  obtain ⟨owner, howner, hcontext⟩ := Option.bind_eq_some_iff.mp hcontext
  split at hcontext
  · next hlive =>
    cases hcontext
    simp only [Bool.and_eq_true] at hlive
    refine ⟨root, ?_, validRoot_iff.mp hvalid⟩
    unfold sharedFolder
    rw [hmirror, Option.bind_some, if_pos hlive.1.1.1.1.2, hrootId]
  · cases hcontext

/-- The rows of a live folder have its own. -/
theorem exists_root {db : Db} {userId root : ℕ} {rows : List ArchiveRow} (hrows : rows.Perm (db.archiveRows userId root))
    (hroot : LiveRoot db userId root) : ∃ row ∈ rows, IsRoot root row := by
  obtain ⟨r, hr, -⟩ := hroot.live
  exact ⟨r.archiveRow root, hrows.mem_iff.mpr (mem_archiveRows.mpr
    (.inl ⟨root, r, hr, mem_subtree.mpr ⟨hroot, .refl⟩, rfl⟩)), rfl, rfl⟩

/-- For a request that is admitted: the plan is safe, and the archive streams. -/
theorem slotHonest_of_admitted {accepts : JsString → Bool} {view : View} {planned streamed : List ArchiveRow} {root : ℕ}
    (hallow : view.link.admits view.now = true ∧ view.allowed .archive = true)
    (hfolder : sharedFolder view = some root) :
    SlotHonest accepts view planned streamed ↔ PlanSafe (listArchiveMembers root planned) ∧
      ∃ entries, streamArchiveMembers accepts (listArchiveMembers root streamed) = some entries ∧ entries.Nodup := by
  unfold SlotHonest streamFolderArchive
  rw [hfolder]
  simp only [Bool.and_eq_true, hallow, and_self, if_true]
  constructor
  · rintro ⟨hsafe, hkept⟩
    cases hresult : streamArchiveMembers accepts (listArchiveMembers root streamed) with
    | none =>
      simp only [hresult] at hsafe hkept
      have hsame := congrArg Link.downloadCount (hkept fun _ h => nomatch h)
      exact absurd hsame (Nat.succ_ne_self _)
    | some entries =>
      simp only [hresult] at hsafe
      obtain ⟨root', hroot', hplan', entries', hentries, hnodup⟩ := hsafe (Nat.succ_ne_self _)
      cases hroot'
      cases hentries
      exact ⟨hplan', entries, rfl, hnodup⟩
  · rintro ⟨hplan', entries, hresult, hnodup⟩
    simp only [hresult]
    exact ⟨fun _ => ⟨root, rfl, hplan', entries, rfl, hnodup⟩, fun hno => absurd rfl (hno entries)⟩

/-- **When slots are taken for archives that stream only**: exactly when the link does not admit the request, or the
rows of both queries are streamable. Clean and unique names with parents first are. -/
theorem archive_slot_iff {accepts : JsString → Bool} {view : View} {planned streamed : List ArchiveRow}
    (hplanned : ∀ root, sharedFolder view = some root → planned.Perm (view.db.archiveRows view.link.userId root))
    (hstreamed : ∀ root, sharedFolder view = some root → streamed.Perm (view.db.archiveRows view.link.userId root)) :
    SlotHonest accepts view planned streamed ↔
      (view.link.admits view.now = true → view.allowed .archive = true → ∀ root, sharedFolder view = some root →
        Streamable (fun _ => true) root planned ∧ Streamable accepts root streamed) := by
  by_cases hallow : view.link.admits view.now = true ∧ view.allowed .archive = true
  · obtain ⟨root, hfolder, hlive⟩ := sharedFolder_of_allowed hallow.2
    have hplan : Entries (fun _ => true) _ ↔ Streamable (fun _ => true) _ _ := entries_iff (sharedRows_of_perm (hplanned root hfolder))
      ((hplanned root hfolder).nodup_iff.mpr nodup_archiveRows) (exists_root (hplanned root hfolder) hlive)
    have hstream : Entries accepts _ ↔ Streamable accepts _ _ := entries_iff (sharedRows_of_perm (hstreamed root hfolder))
      ((hstreamed root hfolder).nodup_iff.mpr nodup_archiveRows) (exists_root (hstreamed root hfolder) hlive)
    rw [← planSafe_iff] at hplan
    rw [← streams_iff] at hstream
    rw [slotHonest_of_admitted hallow hfolder, hplan, hstream]
    constructor
    · intro hand _ _ root' hroot'
      cases hfolder.symm.trans hroot'
      exact hand
    · intro hall
      exact hall hallow.1 hallow.2 root hfolder
  · refine ⟨fun _ hadmits hallowed => absurd ⟨hadmits, hallowed⟩ hallow, fun _ => ?_⟩
    have hrefused : streamFolderArchive accepts view planned streamed = (view.link, .refused) := by
      unfold streamFolderArchive
      cases sharedFolder view with
      | none => rfl
      | some root =>
        simp only [Bool.and_eq_true, hallow, if_false]
    unfold SlotHonest
    rw [hrefused]
    exact ⟨fun hne => absurd rfl hne, fun _ => rfl⟩

/-- A link without a limit to the mirror of the first folder. -/
def openLink : Link where
  token := 0
  password := none
  expiresAt := none
  lockedUntil := none
  isActive := true
  failedAttempts := 0
  isFolder := true
  allowUpload := false
  userId := 1
  fileId := 1
  maxDownloads := none
  downloadCount := 0

/-- The archive of three folders, one in the other. -/
theorem slot_of_threeRows :
    ∃ c, Reachable plainSettings anyStep oneUser c ∧
      (SlotHonest (fun _ => true) ⟨openLink, c.state.db, 0⟩ threeRows threeRows ↔
        (openLink.admits 0 = true → View.allowed ⟨openLink, c.state.db, 0⟩ .archive = true →
          ∀ root, sharedFolder ⟨openLink, c.state.db, 0⟩ = some root →
            Streamable (fun _ => true) root threeRows ∧ Streamable (fun _ => true) root threeRows)) := by
  obtain ⟨c, hc, hp⟩ := exists_reachable plainSettings oneUser unchecked_ok threeFolders
    (fun c => c.state.db.archiveRows 1 1 = threeRows ∧ sharedFolder ⟨openLink, c.state.db, 0⟩ = some 1)
    (by decide +kernel)
  obtain ⟨hrows, hfolder⟩ := of_decide_eq_true hp
  have hperm : ∀ root, sharedFolder ⟨openLink, c.state.db, 0⟩ = some root →
      threeRows.Perm (c.state.db.archiveRows openLink.userId root) := by
    intro root hroot
    cases hfolder.symm.trans hroot
    exact List.Perm.of_eq hrows.symm
  exact ⟨c, hc, archive_slot_iff hperm hperm⟩

/-- A folder, and one with the name `..` in it. -/
def folderAbove : List (Move Call Event) :=
  .call (.createFolder 1 [114] none) :: steps 1 4 ++
    .call (.createFolder 1 [0x2E, 0x2E] (some 1)) :: steps 2 5

/-- The rows of a folder and one with the name `..` in it. -/
def aboveRows : List ArchiveRow := [⟨2, [0x2E, 0x2E], true, none, 0, some 1⟩, ⟨1, [114], true, none, 0, none⟩]

/-- **A slot is taken for an archive that cannot be streamed**: a folder may be called `..`. -/
theorem slot_of_folderAbove :
    ¬∀ c, Reachable plainSettings anyStep oneUser c → ∀ (view : View) (planned streamed : List ArchiveRow),
      view.db = c.state.db →
      (∀ root, sharedFolder view = some root → planned.Perm (view.db.archiveRows view.link.userId root)) →
      (∀ root, sharedFolder view = some root → streamed.Perm (view.db.archiveRows view.link.userId root)) →
      SlotHonest (fun _ => true) view planned streamed := by
  intro hall
  obtain ⟨c, hc, hp⟩ := exists_reachable plainSettings oneUser unchecked_ok folderAbove
    (fun c => c.state.db.archiveRows 1 1 = aboveRows ∧ sharedFolder ⟨openLink, c.state.db, 0⟩ = some 1 ∧
      View.allowed ⟨openLink, c.state.db, 0⟩ .archive = true) (by decide +kernel)
  obtain ⟨hrows, hfolder, hallowed⟩ := of_decide_eq_true hp
  have hperm : ∀ root, sharedFolder ⟨openLink, c.state.db, 0⟩ = some root →
      aboveRows.Perm (c.state.db.archiveRows openLink.userId root) := by
    intro root hroot
    cases hfolder.symm.trans hroot
    exact List.Perm.of_eq hrows.symm
  have hhonest := hall c hc ⟨openLink, c.state.db, 0⟩ aboveRows aboveRows rfl hperm hperm
  have hplan := ((slotHonest_of_admitted ⟨rfl, hallowed⟩ hfolder).mp hhonest).1
  have hstreamable := (entries_iff (sharedRows_of_perm (hperm 1 hfolder)) (by decide)
    ⟨⟨1, [114], true, none, 0, none⟩, by decide, rfl, rfl⟩).mp (planSafe_iff.mp hplan)
  exact hstreamable.dotdot ⟨2, [0x2E, 0x2E], true, none, 0, some 1⟩ (by decide) (fun hand => absurd hand.2 (by decide))
    (by decide)

end FolderArchive

end HomeCloud
