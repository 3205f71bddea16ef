import HomeCloud.Files.Forest
import HomeCloud.Storage.DiskNames
import Mathlib.Data.List.Sort

/-!
# The plan of a private archive

A selection of files and folders becomes a list of members. The selected folders are taken from the root down, each
with its tree unless it was in one already, then the selected files; what is selected gets a name of its own at the
top of the archive.

* `Selection`, `parseSelection`: what is selected.
* `Folding`: what is used of `normalize` and `toLocaleLowerCase`.
* `ancestors`, `folderTree`: the queries.
* `segment`, `reserveRootName`: names; `add`, `validateManifest`: members.
* `plan`: the members of the archive.
* `Ends`, `Ends.foldlM`: what holds however a computation ends.
* **`reserveRootName_ends`**: a name is found while there are fewer than 32.
-/

namespace HomeCloud

namespace ArchivePlan

open Concurrent

/-! ## Selections -/

def maxRoots : ℕ := 32

def maxMembers : ℕ := 5000

def maxDepth : ℕ := 32

def maxBytes : ℕ := 100 * 1024 ^ 3

def maxFileBytes : ℕ := 100 * 1024 ^ 3

/-- A file or a folder, as `file:1` or `folder:1`. -/
inductive ArchiveSelection where
  | file (id : ℕ)
  | folder (id : ℕ)
  deriving DecidableEq

/-- Different files and folders, at least one and at most 32. -/
structure Selection where
  roots : List ArchiveSelection
  nonempty : roots ≠ []
  length_le : roots.length ≤ maxRoots
  nodup : roots.Nodup

/-- The selection of a request whose entries have the right form. -/
def parseSelection (roots : List ArchiveSelection) : Option Selection :=
  if h : roots ≠ [] ∧ roots.length ≤ maxRoots ∧ roots.Nodup then some ⟨roots, h.1, h.2.1, h.2.2⟩ else none

/-- Why there is no archive. -/
inductive Refusal where
  | folderUnavailable
  | fileUnavailable
  | folderLimit
  | memberLimit
  | unsafeName
  | nameCollision
  | treeChanged
  | sizeMetadata
  | empty
  | pathLimit
  | namesCollide
  | fileSizeLimit
  | sizeLimit
  deriving DecidableEq

/-! ## Names -/

/-- What is put behind a name that is taken. -/
def suffix (k : ℕ) : JsString := [0x20, 0x28] ++ decimal k ++ [0x29]

/-- What is used of `normalize("NFC")` and `toLocaleLowerCase("und")`: a space, parentheses and digits at the end are
left alone, and what is before them does not depend on them. -/
structure Folding where
  normalize : JsString → JsString
  toLocaleLowerCase : JsString → JsString
  normalize_normalize : ∀ s, normalize (normalize s) = normalize s
  normalize_suffix : ∀ s k, normalize (s ++ suffix k) = normalize s ++ suffix k
  lower_suffix : ∀ s k, toLocaleLowerCase (s ++ suffix k) = toLocaleLowerCase s ++ suffix k

/-- What the expression `/[\\/:*?"<>|\x00-\x1f\x7f]/` finds. -/
def isForbidden (c : UInt16) : Bool :=
  c ∈ ([0x5C, 0x2F, 0x3A, 0x2A, 0x3F, 0x22, 0x3C, 0x3E, 0x7C] : JsString) || c < 0x20 || c == 0x7F

/-- The names of devices. -/
def devices : List JsString :=
  ["con", "prn", "aux", "nul"].map Storage.ascii ++
    (List.range 9).map (fun n => Storage.ascii "com" ++ decimal (n + 1)) ++
    (List.range 9).map (fun n => Storage.ascii "lpt" ++ decimal (n + 1))

/-- The name of a device, with or without more behind a dot. -/
def isDevice (name : JsString) : Bool := (name.takeWhile (· ≠ 0x2E)).map Storage.lowerUnit ∈ devices

variable (T : Folding)

def segment (name : JsString) : Except Refusal JsString :=
  let normalized := T.normalize name
  if normalized.isEmpty || normalized.length > 255 || normalized == [0x2E] || normalized == [0x2E, 0x2E] ||
      normalized.any isForbidden || normalized.getLast?.any (fun c => c == 0x2E || c == 0x20) || isDevice normalized then
    .error .unsafeName
  else .ok normalized

/-- The first free name of a candidate and those with the suffixes up to 33 that are left. -/
def firstFree (name : JsString) (names : List JsString) : ℕ → JsString → Except Refusal JsString
  | 0, candidate => if T.toLocaleLowerCase candidate ∈ names then .error .nameCollision else .ok candidate
  | left + 1, candidate =>
    if T.toLocaleLowerCase candidate ∈ names then do
      firstFree name names left (← segment T (name ++ suffix (maxRoots + 1 - left)))
    else .ok candidate

/-- A name at the top of the archive, and the names there with it. -/
def reserveRootName (raw : JsString) (names : List JsString) : Except Refusal (JsString × List JsString) := do
  let name ← segment T raw
  let candidate ← firstFree T name names maxRoots name
  pure (candidate, T.toLocaleLowerCase candidate :: names)

/-! ## Queries -/

section Queries

variable (db : Db) (userId : ℕ)

/-- The rows from a folder up, each once. -/
def chain : ℕ → List ℕ → ℕ → List (ℕ × Folder)
  | 0, _, id => ((db.folders.get id).map fun r => (id, r)).toList
  | left + 1, visited, id =>
    match db.folders.get id with
    | none => []
    | some r =>
      (id, r) :: r.parentId.elim [] fun p => if p ∈ id :: visited then [] else chain left (id :: visited) p

/-- The folder and those above it; all of them are live, and so are their mirrors. -/
def ancestors (id : ℕ) : Except Refusal (List (ℕ × Folder)) :=
  let rows := chain db (maxDepth + 1) [] id
  if rows.isEmpty || rows.length > maxDepth + 1 || rows.getLast?.any (·.2.parentId.isSome) ||
      rows.any (fun row => !db.liveFolder userId row.1 row.2) then .error .folderUnavailable
  else .ok rows

def file (id : ℕ) : Except Refusal File :=
  match db.files.get id with
  | none => .error .fileUnavailable
  | some r =>
    if r.userId ≠ userId || r.isDeleted || r.isFolder || r.placement.isNone then .error .fileUnavailable else .ok r

/-- A row of the tree below a folder. -/
structure FolderRow where
  id : ℕ
  folder : Folder
  depth : ℕ
  visited : List ℕ
  deriving DecidableEq

/-- The rows that the recursion finds in each round. -/
def treeRound (rootId : ℕ) : ℕ → List FolderRow
  | 0 => (db.folders.select fun i r => i = rootId && r.userId = userId && !r.isDeleted).filterMap fun i =>
      (db.folders.get i).map fun r => ⟨i, r, 0, [i]⟩
  | depth + 1 => (treeRound rootId depth).flatMap fun t =>
      (db.folders.select fun i r =>
        r.parentId = some t.id && r.userId = userId && !r.isDeleted && i ∉ t.visited).filterMap fun i =>
          (db.folders.get i).map fun r => ⟨i, r, depth + 1, i :: t.visited⟩

/-- Folders are sorted by depth, then by identifier. -/
def FolderRow.before (a b : FolderRow) : Bool := a.depth < b.depth || a.depth == b.depth && a.id ≤ b.id

/-- The live folders from a folder down, and the live files in them; rows of a table are found by identifier. -/
def folderTree (rootId : ℕ) : Except Refusal (List FolderRow × List (ℕ × File)) :=
  let folders := (List.range (maxDepth + 2)).flatMap (treeRound db userId rootId)
  if folders.isEmpty || folders.length > maxMembers ||
      folders.any (fun f => f.depth > maxDepth || !db.liveFolder userId f.id f.folder) then .error .folderLimit
  else
    let ids := folders.map (·.id)
    let files := (db.files.select fun _ r =>
      r.parentId.any (· ∈ ids) && r.userId = userId && !r.isDeleted && !r.isFolder).filterMap fun i =>
        (db.files.get i).map fun r => (i, r)
    if files.length > maxMembers then .error .memberLimit
    else .ok (folders.insertionSort fun a b => a.before b, files)

end Queries

/-! ## Members -/

structure Member where
  key : ArchiveSelection
  parentId : Option ℕ
  name : JsString
  logicalPath : JsString
  placement : Option Placement
  size : ℕ
  deriving DecidableEq

def Member.isFolder (m : Member) : Bool :=
  match m.key with
  | .file _ => false
  | .folder _ => true

def folderMember (id : ℕ) (r : Folder) (logicalPath : JsString) : Member where
  key := .folder id
  parentId := r.parentId
  name := r.name.val
  logicalPath := logicalPath
  placement := none
  size := 0

/-- The member for a file; its size has to be a safe integer. -/
def member (id : ℕ) (r : File) (logicalPath : JsString) : Except Refusal Member :=
  if r.size ≥ 2 ^ 53 then .error .sizeMetadata
  else .ok ⟨.file id, r.parentId, r.name.val, logicalPath, r.placement, r.size⟩

/-- A member is added once. -/
def add (members : List Member) (m : Member) : Except Refusal (List Member) :=
  if m.key ∈ members.map (·.key) then .ok members
  else if members.length + 1 > maxMembers then .error .memberLimit
  else .ok (members ++ [m])

/-- What is checked of a member, with the paths and the bytes of those before it. -/
def checkMember (s : List JsString × ℕ) (m : Member) : Except Refusal (List JsString × ℕ) :=
  if m.logicalPath.length > 1024 || m.logicalPath.count 0x2F + 1 > maxDepth + 1 then .error .pathLimit
  else
    let key := T.toLocaleLowerCase (T.normalize m.logicalPath)
    if key ∈ s.1 then .error .namesCollide
    else if m.isFolder then .ok (key :: s.1, s.2)
    else if m.size > maxFileBytes then .error .fileSizeLimit
    else if s.2 + m.size > maxBytes then .error .sizeLimit
    else .ok (key :: s.1, s.2 + m.size)

def validateManifest (members : List Member) : Except Refusal Unit := do
  if members.isEmpty then .error .empty
  let _ ← members.foldlM (checkMember T) ([], 0)

/-! ## The plan -/

/-- The members so far and the names taken at the top. -/
structure Draft where
  members : List Member
  topNames : List JsString
  deriving DecidableEq

/-- A selected folder, with its depth below the root. -/
structure FolderRoot where
  id : ℕ
  name : JsString
  depth : ℕ
  deriving DecidableEq

def FolderRoot.before (a b : FolderRoot) : Bool := a.depth < b.depth || a.depth == b.depth && a.id ≤ b.id

section Plan

variable (db : Db) (userId : ℕ)

/-- What is selected is looked up. -/
def resolve : ArchiveSelection → Except Refusal (FolderRoot ⊕ (ℕ × File))
  | .folder id => do
    match ← ancestors db userId id with
    | [] => .error .folderUnavailable
    | row :: rows => pure (.inl ⟨row.1, row.2.name.val, rows.length + 1⟩)
  | .file id => do
    let row ← file db userId id
    if let some p := row.parentId then
      let _ ← ancestors db userId p
    pure (.inr (id, row))

/-- The path of a folder: the name at the top for the selected one, else its name below its parent's path. -/
def folderPath (rootId : ℕ) (topName : JsString) (paths : ℕ → Option JsString) (row : FolderRow) :
    Except Refusal JsString :=
  if row.id = rootId then .ok topName
  else match row.folder.parentId.bind paths with
    | none => .error .treeChanged
    | some parent => do pure (parent ++ 0x2F :: (← segment T row.folder.name.val))

def addFolder (rootId : ℕ) (topName : JsString) (s : (ℕ → Option JsString) × List Member) (row : FolderRow) :
    Except Refusal ((ℕ → Option JsString) × List Member) := do
  let logicalPath ← folderPath T rootId topName s.1 row
  let members ← add s.2 (folderMember row.id row.folder logicalPath)
  pure (fun i => if i = row.id then some logicalPath else s.1 i, members)

/-- The member for a file in a folder whose path is known. -/
def addFile (paths : ℕ → Option JsString) (members : List Member) (row : ℕ × File) : Except Refusal (List Member) :=
  match row.2.parentId.bind paths with
  | none | some [] => .error .treeChanged
  | some parent => do
    let name ← segment T row.2.name.val
    add members (← member row.1 row.2 (parent ++ 0x2F :: name))

/-- A selected folder with its tree, unless it was in one already. -/
def addFolderRoot (s : Draft) (root : FolderRoot) : Except Refusal Draft := do
  if .folder root.id ∈ s.members.map (·.key) then return s
  let (topName, topNames) ← reserveRootName T root.name s.topNames
  let (folders, files) ← folderTree db userId root.id
  let (paths, members) ← folders.foldlM (addFolder T root.id topName) (fun _ => none, s.members)
  let members ← files.foldlM (addFile T paths) members
  pure ⟨members, topNames⟩

/-- A selected file, unless it was in a tree. -/
def addFileRoot (s : Draft) (row : ℕ × File) : Except Refusal Draft := do
  if .file row.1 ∈ s.members.map (·.key) then return s
  let (name, topNames) ← reserveRootName T row.2.name.val s.topNames
  let members ← add s.members (← member row.1 row.2 name)
  pure ⟨members, topNames⟩

def folderRoots (found : List (FolderRoot ⊕ (ℕ × File))) : List FolderRoot :=
  (found.filterMap Sum.getLeft?).insertionSort fun a b => a.before b

def fileRoots (found : List (FolderRoot ⊕ (ℕ × File))) : List (ℕ × File) :=
  (found.filterMap Sum.getRight?).insertionSort fun a b => a.1 ≤ b.1

/-- The members of the archive of a selection. -/
def plan (roots : List ArchiveSelection) : Except Refusal (List Member) := do
  let found ← roots.mapM (resolve db userId)
  let s ← (folderRoots found).foldlM (addFolderRoot T db userId) ⟨[], []⟩
  let s ← (fileRoots found).foldlM (addFileRoot T) s
  validateManifest T s.members
  pure s.members

end Plan

/-! ## Ends of computations -/

/-- The result, if any, satisfies `P`, and the failure, if any, `E`. -/
def Ends {ε α : Type} (P : α → Prop) (E : ε → Prop) : Except ε α → Prop
  | .ok a => P a
  | .error e => E e

namespace Ends

variable {ε α β : Type} {P P' : α → Prop} {Q : β → Prop} {E : ε → Prop} {x : Except ε α} {f : α → Except ε β}

theorem bind (hx : Ends P E x) (hf : ∀ a, P a → Ends Q E (f a)) : Ends Q E (x >>= f) := by
  cases x with
  | error e => exact hx
  | ok a => exact hf a hx

theorem mono (hx : Ends P E x) (h : ∀ a, P a → P' a) : Ends P' E x := by
  cases x with
  | error e => exact hx
  | ok a => exact h a hx

theorem self (hx : Ends P E x) : Ends (fun a => x = .ok a) E x := by
  cases x with
  | error e => exact hx
  | ok a => rfl

/-- The results of a function, if it has one for every item. -/
theorem mapM {l : List α} (hf : ∀ a, Ends (fun _ => True) E (f a)) : Ends (fun bs => l.map f = bs.map .ok) E (l.mapM f) := by
  induction l with
  | nil => rfl
  | cons a l ih =>
    rw [List.mapM_cons]
    refine (hf a).self.bind fun b hb => ih.bind fun bs hbs => ?_
    show (a :: l).map f = (b :: bs).map .ok
    rw [List.map_cons, List.map_cons, hb, hbs]

/-- What every step of a loop keeps, with the items that it has passed. -/
theorem foldlM {step : β → α → Except ε β} {l : List α} {b : β} (motive : List α → β → Prop) (h0 : motive [] b)
    (hstep : ∀ done a rest b, l = done ++ a :: rest → motive done b → Ends (motive (done ++ [a])) E (step b a)) :
    Ends (motive l) E (l.foldlM step b) := by
  have hrest : ∀ rest done b, l = done ++ rest → motive done b → Ends (motive l) E (rest.foldlM step b) := by
    intro rest
    induction rest with
    | nil =>
      intro done b hl hb
      rw [List.append_nil] at hl
      rw [List.foldlM_nil, hl]
      exact hb
    | cons a rest ih =>
      intro done b hl hb
      rw [List.foldlM_cons]
      refine (hstep done a rest b hl hb).bind fun b' hb' => ih (done ++ [a]) b' ?_ hb'
      rw [hl, List.append_assoc, List.singleton_append]
  exact hrest l [] b rfl h0

end Ends

/-! ## Names that are taken -/

variable {T}

theorem segment_ends (raw : JsString) :
    Ends (fun name => name = T.normalize raw ∧ 0x2F ∉ name) (· ≠ .nameCollision) (segment T raw) := by
  unfold segment
  simp only
  split
  · exact fun h => by cases h
  · next h =>
    refine ⟨rfl, fun hmem => h ?_⟩
    simp only [Bool.or_eq_true]
    exact .inl (.inl (.inr (List.any_eq_true.mpr ⟨_, hmem, by decide⟩)))

theorem suffix_ne_nil (k : ℕ) : suffix k ≠ [] := by
  unfold suffix
  simp

/-- The suffixes that are tried. -/
theorem nodup_suffixes : ((List.range maxRoots).map fun i => suffix (maxRoots + 1 - i)).Nodup := by decide +kernel

/-- All the names that are left were taken when none was free. -/
theorem mem_of_firstFree {name : JsString} {names : List JsString} (hname : T.normalize name = name) {left : ℕ}
    {candidate : JsString} (h : firstFree T name names left candidate = .error .nameCollision) :
    T.toLocaleLowerCase candidate ∈ names ∧
      ∀ i < left, T.toLocaleLowerCase (name ++ suffix (maxRoots + 1 - i)) ∈ names := by
  induction left generalizing candidate with
  | zero =>
    unfold firstFree at h
    split at h
    · next hmem => exact ⟨hmem, fun i hi => absurd hi (Nat.not_lt_zero i)⟩
    · cases h
  | succ left ih =>
    unfold firstFree at h
    split at h
    · next hmem =>
      refine ⟨hmem, ?_⟩
      have hsegment := segment_ends (T := T) (name ++ suffix (maxRoots + 1 - left))
      cases hs : segment T (name ++ suffix (maxRoots + 1 - left)) with
      | error e =>
        rw [hs] at h hsegment
        cases h
        exact absurd rfl hsegment
      | ok next =>
        rw [hs] at h hsegment
        obtain ⟨hnext, hrest⟩ := ih h
        rw [hsegment.1, T.normalize_suffix, hname] at hnext
        intro i hi
        rcases Nat.lt_succ_iff_lt_or_eq.mp hi with hlt | rfl
        · exact hrest i hlt
        · exact hnext
    · cases h

/-- **A name is found** while fewer than 32 are taken, since 33 are tried. -/
theorem reserveRootName_ends (raw : JsString) {names : List JsString} (hlength : names.length < maxRoots) :
    Ends (fun p => p.2.length = names.length + 1) (· ≠ .nameCollision) (reserveRootName T raw names) := by
  unfold reserveRootName
  refine (segment_ends raw).bind fun name hname => ?_
  have hnormal : T.normalize name = name := by rw [hname.1, T.normalize_normalize]
  have hfree : Ends (fun _ => True) (· ≠ .nameCollision) (firstFree T name names maxRoots name) := by
    cases hf : firstFree T name names maxRoots name with
    | ok candidate => trivial
    | error e =>
      rintro rfl
      obtain ⟨hmem, hall⟩ := mem_of_firstFree hnormal hf
      let tried := ([] :: (List.range maxRoots).map fun i => suffix (maxRoots + 1 - i)).map
        fun s => T.toLocaleLowerCase name ++ s
      have hnodup : tried.Nodup := by
        refine List.Nodup.map (fun a b h => List.append_cancel_left h) (List.nodup_cons.mpr ⟨?_, nodup_suffixes⟩)
        simp only [List.mem_map, not_exists, not_and]
        exact fun i _ => suffix_ne_nil _
      have hsubset : tried ⊆ names := by
        intro s hs
        simp only [tried, List.map_cons, List.append_nil, List.map_map, List.mem_cons, List.mem_map,
          List.mem_range, Function.comp_apply] at hs
        rcases hs with rfl | ⟨i, hi, rfl⟩
        · exact hmem
        · rw [← T.lower_suffix]
          exact hall i hi
      have hle := (hnodup.subperm hsubset).length_le
      have htried : tried.length = maxRoots + 1 := by simp [tried]
      omega
  exact hfree.bind fun candidate _ => rfl

end ArchivePlan

end HomeCloud
