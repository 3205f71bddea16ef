import HomeCloud.Files.Service
import Mathlib.Data.List.Permutation

/-!
# The operations on one file

Renaming, moving, restoring, trashing and deleting one file, statement by statement, while nothing else
happens to the files of its owner.

* `Surroundings.place`, `FileState.run`: the operations.
* `serial`, `serials`: the operations one after the other.
* `Ran`, **`ran_of_run`**: what a statement does.
* `Ordered`: the operations that have taken effect, in a serial order.
* **`one_file_serial`**: when the operations are serialisable; `not_one_file_serial`.
-/

namespace HomeCloud

namespace OneFile

/-! ## Operations -/

/-- What the operations see of the other rows: which folders are live ones of the owner, and the live
names in a directory. -/
structure Surroundings where
  live : ℕ → Bool
  occupied : Option ℕ → List JsString

/-- A rename, a move or a restore with the arguments of `changeFilePlacement`, `removeFile` or
`deleteFilePermanently`. -/
inductive FileOp where
  | change (name : Option JsString) (parentId : Option (Option ℕ)) (restore : Bool)
  | remove
  | delete
  deriving DecidableEq

/-- The row that `changeFilePlacement` makes of the file. -/
def Surroundings.place (around : Surroundings) (name : Option JsString) (parentId : Option (Option ℕ))
    (restore : Bool) (file : File) : Except Err File :=
  if file.isFolder then .error (.badRequest "Cannot update folder via files endpoint")
  else
    let requested := parentId.getD file.parentId
    let destination := if restore then requested.filter around.live else requested
    let placed (n : DbText) : File := { file with
      name := n
      parentId := destination
      isDeleted := if restore then false else file.isDeleted
      deletedAt := if restore then none else file.deletedAt }
    if (restore && file.isDeleted) || name.any (· ≠ file.name.val) || destination ≠ file.parentId then
      if destination.any (!around.live ·) then
        .error (.notFound "Destination folder unavailable")
      else
        match chooseName .file (name.getD file.name.val) (around.occupied destination) with
        | some n => .ok (placed (.ofJs n))
        | none => .error (.conflict "Destination name space exhausted")
    else .ok (placed file.name)

/-- The file in the trash. -/
def trashed (file : File) (time : ℕ) : File := { file with isDeleted := true, deletedAt := some time }

/-- What an operation that succeeds has done: placed the file, trashed it at a time, or deleted it, and
removed its object or not. -/
inductive Outcome where
  | placed
  | trashed (time : ℕ)
  | erased (unlinked : Bool)
  deriving DecidableEq

/-- How far an operation has come: the user is locked, the row locked and read, or read only, or deleted;
the file is read to be trashed, at a time, and its row again; or it is done. -/
inductive Phase where
  | waiting
  | owner
  | placing (file : File)
  | deleting (file : File)
  | deleted (file : File)
  | loaded (file : File) (time : ℕ)
  | reloaded (file : File) (time : ℕ) (row : Option File)
  | finished (outcome : Outcome)
  | failed (e : Err)

/-- The user is locked. -/
def Phase.owns : Phase → Bool
  | .owner | .placing _ | .deleting _ => true
  | _ => false

/-- What the operation has done so far, once it has taken effect. -/
def Phase.outcome : Phase → Option Outcome
  | .deleted _ => some (.erased false)
  | .finished outcome => some outcome
  | _ => none

structure Operation where
  op : FileOp
  phase : Phase

/-- Some columns are to be updated. -/
def changes (patch : FilePatch) : Bool :=
  patch.name.isSome || patch.parentId.isSome || patch.isDeleted.isSome || patch.deletedAt.isSome

/-- The row of the file, whether its object is there, who has locked the user and the row, the time, and
the operations. -/
structure FileState where
  row : Option File
  object : Bool
  user : Option ℕ
  locked : Option ℕ
  now : ℕ
  ops : List Operation

namespace FileState

variable (s : FileState) (i : ℕ)

/-- The operation `i` gets to the phase. -/
def move (op : FileOp) (phase : Phase) : FileState := { s with ops := s.ops.set i ⟨op, phase⟩ }

/-- The locks of the operation `i` go. -/
def release : FileState :=
  { s with
    user := if s.user = some i then none else s.user
    locked := if s.locked = some i then none else s.locked }

/-- The operation `i` is rolled back. -/
def fail (op : FileOp) (e : Err) : FileState := (s.release i).move i op (.failed e)

/-- The next statement of the operation `i`, none while it waits for a lock. -/
def run (around : Surroundings) : Option FileState := do
  let o ← s.ops[i]?
  match o.op, o.phase with
  | .remove, .waiting =>
    match s.row with
    | none => some (s.fail i .remove (.notFound "File not found"))
    | some file =>
      if file.isFolder then
        some (s.fail i .remove (.badRequest "Cannot delete folder via files endpoint"))
      else some (s.move i .remove (.loaded file s.now))
  | .remove, .loaded file time => some (s.move i .remove (.reloaded file time s.row))
  | .remove, .reloaded file time none =>
    if s.row.isSome then some (s.fail i .remove (.database .constraint))
    else some ({ s with row := some (trashed file time) }.move i .remove (.finished (.trashed time)))
  | .remove, .reloaded file time (some row) =>
    -- Nothing is sent when no column differs; an UPDATE waits for the row.
    let patch := (trashed file time).diff row
    if changes patch && s.locked ≠ none then none
    else some ({ s with row := s.row.map patch.apply }.move i .remove (.finished (.trashed time)))
  | .change .., .waiting | .delete, .waiting =>
    if s.user = none then some ({ s with user := some i }.move i o.op .owner) else none
  | .change name parentId restore, .owner =>
    match s.row with
    | none => some (s.fail i o.op (.notFound "File not found"))
    | some file =>
      if s.locked = none then
        some ({ s with locked := some i }.move i (.change name parentId restore) (.placing file))
      else none
  | .change name parentId restore, .placing file =>
    match around.place name parentId restore file with
    | .ok file' =>
      some (({ s with row := some file' }.release i).move i (.change name parentId restore)
        (.finished .placed))
    | .error e => some (s.fail i o.op e)
  | .delete, .owner =>
    match s.row with
    | none => some (s.fail i .delete (.notFound "File not found"))
    | some file => some (s.move i .delete (.deleting file))
  | .delete, .deleting file =>
    if s.locked = none then
      some (({ s with row := none }.release i).move i .delete (.deleted file))
    else none
  | _, _ => none

/-- The object of the deleted file is removed, or cannot be. -/
def unlink (ok : Bool) : Option FileState := do
  let o ← s.ops[i]?
  match o.phase with
  | .deleted file =>
    let unlinked := ok && file.placement.isSome
    some ({ s with object := s.object && !unlinked }.move i o.op (.finished (.erased unlinked)))
  | _ => none

/-- The operation `i` fails before it takes effect. -/
def abort (e : Err) : Option FileState := do
  let o ← s.ops[i]?
  match o.phase with
  | .deleted _ | .finished _ | .failed _ => none
  | _ => some (s.fail i o.op e)

end FileState

/-- The time goes on, someone starts an operation, or an operation runs a statement, removes the object
or fails. -/
inductive Move where
  | tick (n : ℕ)
  | start (op : FileOp)
  | run (i : ℕ)
  | unlink (i : ℕ) (ok : Bool)
  | abort (i : ℕ) (e : Err)

def FileState.next (around : Surroundings) (s : FileState) : Move → Option FileState
  | .tick n => some { s with now := s.now + n }
  | .start op => some { s with ops := s.ops ++ [⟨op, .waiting⟩] }
  | .run i => s.run i around
  | .unlink i ok => s.unlink i ok
  | .abort i e => s.abort i e

/-- The file with its object, and no operations. -/
def FileState.initial (file : File) (object : Bool) : FileState := ⟨some file, object, none, none, 0, []⟩

/-- The states of runs from `s₀` in which every step satisfies `ok`. -/
inductive Reached (around : Surroundings) (ok : Move → FileState → Bool) (s₀ : FileState) :
    FileState → Prop
  | start : Reached around ok s₀ s₀
  | step {s s'} (m : Move) : Reached around ok s₀ s → ok m s = true → s.next around m = some s' →
      Reached around ok s₀ s'

/-- The columns that the update of a file read before, and reloaded as `row`, writes are those of the
current row, but for the trash: no stale name or parent, and no restore missed. -/
def timely (file : File) (time : ℕ) (row current : File) : Bool :=
  (file.name = row.name || file.name = current.name) &&
    (file.parentId = row.parentId || file.parentId = current.parentId) &&
    (!row.isDeleted || current.isDeleted) &&
    (row.deletedAt ≠ some time || current.deletedAt = some time)

/-- A file that is being trashed is there when its row is reloaded, and its update is timely. -/
def keepsRow (m : Move) (s : FileState) : Bool :=
  match m with
  | .run i => (s.ops[i]?).all fun o =>
    match o.phase with
    | .loaded .. => s.row.isSome
    | .reloaded file time (some row) => s.row.all (timely file time row)
    | _ => true
  | _ => true

/-! ## One after the other -/

/-- What an operation does to the row and the object when nothing else goes on. -/
def serial (around : Surroundings) (x : Option File × Bool) : FileOp × Outcome → Option (Option File × Bool)
  | (.change name parentId restore, .placed) =>
    match x.1.map (around.place name parentId restore) with
    | some (.ok file) => some (some file, x.2)
    | _ => none
  | (.remove, .trashed time) =>
    (x.1.filter (!·.isFolder)).map fun file => (some (trashed file time), x.2)
  | (.delete, .erased unlinked) => x.1.map fun _ => (none, x.2 && !unlinked)
  | _ => none

def serials (around : Surroundings) (x : Option File × Bool) (l : List (FileOp × Outcome)) :
    Option (Option File × Bool) := l.foldlM (serial around) x

/-- An operation that has taken effect, with its outcome. -/
def FileState.entry (s : FileState) (i : ℕ) : Option (FileOp × Outcome) :=
  (s.ops[i]?).bind fun o => o.phase.outcome.map fun outcome => (o.op, outcome)

/-! ## What a statement does -/

section Steps

variable {around : Surroundings} {s s' : FileState} {i : ℕ}

/-- An operation that has neither taken effect nor failed. -/
def Phase.underway : Phase → Bool
  | .deleted _ | .finished _ | .failed _ => false
  | _ => true

/-- What the statement of an operation does. -/
inductive Ran (around : Surroundings) (s : FileState) (i : ℕ) : FileOp → Phase → FileState → Prop
  | failed {op phase} (e : Err) : phase.underway = true → Ran around s i op phase (s.fail i op e)
  | loaded {file} : s.row = some file → file.isFolder = false →
      Ran around s i .remove .waiting (s.move i .remove (.loaded file s.now))
  | reloaded {file time} : Ran around s i .remove (.loaded file time)
      (s.move i .remove (.reloaded file time s.row))
  | inserted {file time} : s.row = none → Ran around s i .remove (.reloaded file time none)
      ({ s with row := some (trashed file time) }.move i .remove (.finished (.trashed time)))
  | updated {file time row} : changes ((trashed file time).diff row) = false ∨ s.locked = none →
      Ran around s i .remove (.reloaded file time (some row))
        ({ s with row := s.row.map ((trashed file time).diff row).apply }.move i .remove
          (.finished (.trashed time)))
  | owner {op} : s.user = none →
      Ran around s i op .waiting ({ s with user := some i }.move i op .owner)
  | placing {name parentId restore file} : s.row = some file → s.locked = none →
      Ran around s i (.change name parentId restore) .owner
        ({ s with locked := some i }.move i (.change name parentId restore) (.placing file))
  | placed {name parentId restore file file'} :
      around.place name parentId restore file = .ok file' →
      Ran around s i (.change name parentId restore) (.placing file)
        (({ s with row := some file' }.release i).move i (.change name parentId restore)
          (.finished .placed))
  | deleting {file} : s.row = some file →
      Ran around s i .delete .owner (s.move i .delete (.deleting file))
  | deleted {file} : s.locked = none → Ran around s i .delete (.deleting file)
      (({ s with row := none }.release i).move i .delete (.deleted file))
  | unlinked {op file} (unlinked : Bool) : Ran around s i op (.deleted file)
      ({ s with object := s.object && !unlinked }.move i op (.finished (.erased unlinked)))

/-- **What the statement of an operation does.** -/
theorem ran_of_run (h : s.run i around = some s') :
    ∃ o, s.ops[i]? = some o ∧ Ran around s i o.op o.phase s' := by
  unfold FileState.run at h
  obtain ⟨⟨op, phase⟩, ho, h⟩ := Option.bind_eq_some_iff.mp h
  refine ⟨⟨op, phase⟩, ho, ?_⟩
  dsimp only at h ⊢
  cases op with
  | remove =>
    cases phase with
    | waiting =>
      cases hrow : s.row with
      | none =>
        rw [hrow] at h
        cases h
        exact .failed _ rfl
      | some file =>
        rw [hrow] at h
        dsimp only at h
        split_ifs at h with hfolder
        · cases h
          exact .failed _ rfl
        · cases h
          exact .loaded hrow (eq_false_of_ne_true hfolder)
    | loaded file time =>
      cases h
      exact .reloaded
    | reloaded file time row =>
      cases row with
      | none =>
        dsimp only at h
        split_ifs at h with hsome
        · cases h
          exact .failed _ rfl
        · cases h
          exact .inserted (by simpa using hsome)
      | some row =>
        dsimp only at h
        split_ifs at h with hwait
        cases h
        refine .updated ?_
        by_cases hchanges : changes ((trashed file time).diff row) = true
        · right
          by_contra hlocked
          exact hwait (by simp [hchanges, hlocked])
        · exact .inl (eq_false_of_ne_true hchanges)
    | _ => cases h
  | change name parentId restore =>
    cases phase with
    | waiting =>
      dsimp only at h
      split_ifs at h with huser
      cases h
      exact .owner huser
    | owner =>
      cases hrow : s.row with
      | none =>
        rw [hrow] at h
        cases h
        exact .failed _ rfl
      | some file =>
        rw [hrow] at h
        dsimp only at h
        split_ifs at h with hlocked
        cases h
        rw [← hrow]
        exact .placing hrow hlocked
    | placing file =>
      dsimp only at h
      cases hplace : around.place name parentId restore file with
      | ok file' =>
        rw [hplace] at h
        cases h
        exact .placed hplace
      | error e =>
        rw [hplace] at h
        cases h
        exact .failed e rfl
    | _ => cases h
  | delete =>
    cases phase with
    | waiting =>
      dsimp only at h
      split_ifs at h with huser
      cases h
      exact .owner huser
    | owner =>
      cases hrow : s.row with
      | none =>
        rw [hrow] at h
        cases h
        exact .failed _ rfl
      | some file =>
        rw [hrow] at h
        cases h
        exact .deleting hrow
    | deleting file =>
      dsimp only at h
      split_ifs at h with hlocked
      cases h
      exact .deleted hlocked
    | _ => cases h

/-- What a move does. -/
theorem ran_of_next {m : Move} (h : s.next around m = some s') (hok : keepsRow m s = true) :
    (∃ n, s' = { s with now := s.now + n }) ∨
    (∃ op, s' = { s with ops := s.ops ++ [⟨op, .waiting⟩] }) ∨
    (∃ i o e, s.ops[i]? = some o ∧ o.phase.underway = true ∧ s' = s.fail i o.op e) ∨
    ∃ i o, s.ops[i]? = some o ∧ Ran around s i o.op o.phase s' ∧ keepsRow (.run i) s = true := by
  cases m with
  | tick n =>
    cases h
    exact .inl ⟨n, rfl⟩
  | start op =>
    cases h
    exact .inr (.inl ⟨op, rfl⟩)
  | run i =>
    obtain ⟨o, ho, hran⟩ := ran_of_run h
    exact .inr (.inr (.inr ⟨i, o, ho, hran, hok⟩))
  | unlink i ok =>
    obtain ⟨⟨op, phase⟩, ho, h⟩ := Option.bind_eq_some_iff.mp h
    cases phase with
    | deleted file =>
      cases h
      exact .inr (.inr (.inr ⟨i, _, ho, .unlinked _, by rw [keepsRow, ho]; rfl⟩))
    | _ => cases h
  | abort i e =>
    obtain ⟨⟨op, phase⟩, ho, h⟩ := Option.bind_eq_some_iff.mp h
    cases phase with
    | deleted file => cases h
    | finished outcome => cases h
    | failed e' => cases h
    | _ =>
      cases h
      exact .inr (.inr (.inl ⟨i, _, e, ho, rfl, rfl⟩))

/-! ## Serial orders -/

theorem getD_ite {α : Type} {p : Prop} [Decidable p] (a b : α) :
    (if p then none else some a).getD b = if p then b else a := by
  split_ifs <;> rfl

/-- The row with the update is the file in the trash exactly when the update is timely. -/
theorem timely_iff {file row current : File} {time : ℕ} :
    ((trashed file time).diff row).apply current = trashed current time ↔
      timely file time row current = true := by
  have hrow : ((trashed file time).diff row).apply current = { current with
      name := if file.name = row.name then current.name else file.name
      parentId := if file.parentId = row.parentId then current.parentId else file.parentId
      isDeleted := if true = row.isDeleted then current.isDeleted else true
      deletedAt := if some time = row.deletedAt then current.deletedAt else some time } := by
    rw [FilePatch.apply, File.mk.injEq]
    exact ⟨getD_ite _ _, rfl, rfl, rfl, rfl, rfl, getD_ite _ _, getD_ite _ _, getD_ite _ _, rfl, rfl,
      rfl⟩
  have hdeleted : (if true = row.isDeleted then current.isDeleted else true) = true ↔
      row.isDeleted = false ∨ current.isDeleted = true := by
    cases row.isDeleted <;> simp
  have htime : (if some time = row.deletedAt then current.deletedAt else some time) = some time ↔
      row.deletedAt ≠ some time ∨ current.deletedAt = some time := by
    rw [ite_eq_right_iff, or_iff_not_imp_left, not_not, eq_comm]
  have hname : (if file.name = row.name then current.name else file.name) = current.name ↔
      file.name = row.name ∨ file.name = current.name := by
    rw [ite_eq_left_iff, or_iff_not_imp_left]
  have hparent : (if file.parentId = row.parentId then current.parentId else file.parentId) =
      current.parentId ↔ file.parentId = row.parentId ∨ file.parentId = current.parentId := by
    rw [ite_eq_left_iff, or_iff_not_imp_left]
  rw [hrow, trashed, File.mk.injEq]
  simp only [timely, Bool.and_eq_true, Bool.or_eq_true, decide_eq_true_eq, true_and, and_true,
    Bool.not_eq_true', hdeleted, htime, hname, hparent]
  constructor
  · rintro ⟨hn, hd, ht, hp⟩
    exact ⟨⟨⟨hn, hp⟩, hd⟩, ht⟩
  · rintro ⟨⟨⟨hn, hp⟩, hd⟩, ht⟩
    exact ⟨hn, hd, ht, hp⟩

/-- Nothing is done to a file that is gone. -/
theorem serial_none (object : Bool) (e : FileOp × Outcome) :
    serial around (none, object) e = none := by
  obtain ⟨op, outcome⟩ := e
  cases op <;> cases outcome <;> rfl

/-- Only a deletion takes the row away. -/
theorem serial_erases {x : Option File × Bool} {e : FileOp × Outcome} {object : Bool}
    (h : serial around x e = some (none, object)) :
    ∃ unlinked, e = (.delete, .erased unlinked) ∧ object = (x.2 && !unlinked) := by
  obtain ⟨op, outcome⟩ := e
  cases op with
  | change name parentId restore =>
    cases outcome with
    | placed =>
      rw [serial] at h
      split at h <;> cases h
    | _ => cases h
  | remove =>
    cases outcome with
    | trashed time =>
      obtain ⟨f, -, hf⟩ := Option.map_eq_some_iff.mp h
      cases hf
    | _ => cases h
  | delete =>
    cases outcome with
    | erased unlinked =>
      obtain ⟨f, -, hf⟩ := Option.map_eq_some_iff.mp h
      cases hf
      exact ⟨unlinked, rfl, rfl⟩
    | _ => cases h

theorem place_isFolder {name : Option JsString} {parentId : Option (Option ℕ)} {restore : Bool}
    {file file' : File} (h : around.place name parentId restore file = .ok file') :
    file'.isFolder = file.isFolder := by
  unfold Surroundings.place at h
  cases restore <;> dsimp only at h <;> split_ifs at h <;> (try split at h) <;> cases h <;> rfl

/-- A serial order leaves a file a file. -/
theorem serials_isFolder {l : List (FileOp × Outcome)} {x y : Option File × Bool}
    (h : serials around x l = some y) {f : File} (hf : y.1 = some f) :
    ∃ g, x.1 = some g ∧ f.isFolder = g.isFolder := by
  induction l generalizing x with
  | nil =>
    cases h
    exact ⟨f, hf, rfl⟩
  | cons e l ih =>
    obtain ⟨z, hz, hrest⟩ := Option.bind_eq_some_iff.mp h
    obtain ⟨g, hg, hfg⟩ := ih hrest
    obtain ⟨op, outcome⟩ := e
    cases op with
    | change name parentId restore =>
      cases outcome with
      | placed =>
        rw [serial] at hz
        split at hz
        · rename_i file' hplace
          cases hz
          cases hg
          obtain ⟨g', hg', hok⟩ := Option.map_eq_some_iff.mp hplace
          exact ⟨g', hg', hfg.trans (place_isFolder hok)⟩
        · cases hz
      | _ => cases hz
    | remove =>
      cases outcome with
      | trashed time =>
        obtain ⟨g', hg', hzg⟩ := Option.map_eq_some_iff.mp hz
        cases hzg
        cases hg
        exact ⟨g', (Option.filter_eq_some_iff.mp hg').1, hfg⟩
      | _ => cases hz
    | delete =>
      cases outcome with
      | erased unlinked =>
        obtain ⟨g', hg', hzg⟩ := Option.map_eq_some_iff.mp hz
        cases hzg
        cases hg
      | _ => cases hz

theorem serials_append {l : List (FileOp × Outcome)} {e : FileOp × Outcome} {x : Option File × Bool} :
    serials around x (l ++ [e]) = (serials around x l).bind (serial around · e) := by
  simp [serials, List.foldlM_append]

/-- The operations that have taken effect are in the order, and the row and the object are what becomes
of the file in that order. -/
structure Ordered (around : Surroundings) (file : File) (object : Bool) (s : FileState)
    (order : List ℕ) : Prop where
  nodup : order.Nodup
  mem : ∀ i, i ∈ order ↔ (s.entry i).isSome
  serial : serials around (some file, object) (order.filterMap s.entry) = some (s.row, s.object)

section Ordered

variable {file : File} {object : Bool} {order : List ℕ} {e : FileOp × Outcome}

/-- No operation takes effect, and nothing changes. -/
theorem Ordered.same (h : Ordered around file object s order) (hentry : s'.entry = s.entry)
    (hrow : s'.row = s.row) (hobject : s'.object = s.object) : Ordered around file object s' order :=
  ⟨h.nodup, hentry ▸ h.mem, by rw [hentry, hrow, hobject, h.serial]⟩

/-- The entries of the operations in a list are the same when another one takes effect. -/
theorem filterMap_entry {l : List ℕ} (hi : i ∉ l)
    (hentry : ∀ j, s'.entry j = if j = i then some e else s.entry j) :
    l.filterMap s'.entry = l.filterMap s.entry := by
  refine List.filterMap_congr fun j hj => ?_
  rw [hentry, if_neg (ne_of_mem_of_not_mem hj hi)]

theorem mem_entry {l : List ℕ} (hmem : ∀ j, j ∈ l ↔ j = i ∨ j ∈ order)
    (h : Ordered around file object s order)
    (hentry : ∀ j, s'.entry j = if j = i then some e else s.entry j) (j : ℕ) :
    j ∈ l ↔ (s'.entry j).isSome := by
  rw [hmem, hentry, h.mem]
  split_ifs with hj
  · simp [hj]
  · simp [hj]

/-- An operation takes effect on the current row. -/
theorem Ordered.append (h : Ordered around file object s order) (hi : s.entry i = none)
    (hentry : ∀ j, s'.entry j = if j = i then some e else s.entry j)
    (hserial : OneFile.serial around (s.row, s.object) e = some (s'.row, s'.object)) :
    Ordered around file object s' (order ++ [i]) := by
  have hnot : i ∉ order := fun hmem => by
    have hsome := (h.mem i).mp hmem
    rw [hi] at hsome
    cases hsome
  refine ⟨h.nodup.append (List.nodup_singleton i) (by simpa using hnot),
    mem_entry (fun j => by simp [or_comm]) h hentry, ?_⟩
  have hself : s'.entry i = some e := by rw [hentry, if_pos rfl]
  rw [List.filterMap_append, filterMap_entry hnot hentry, List.filterMap_cons_some hself,
    List.filterMap_nil, serials_append, h.serial]
  exact hserial

/-- A file is trashed that is gone by now: it has been trashed before it was deleted. -/
theorem Ordered.before_deletion {time : ℕ} (h : Ordered around file object s order)
    (hi : s.entry i = none) (hfolder : file.isFolder = false) (hrow : s.row = none)
    (hentry : ∀ j, s'.entry j = if j = i then some (.remove, .trashed time) else s.entry j)
    (hrow' : s'.row = none) (hobject : s'.object = s.object) :
    ∃ order', Ordered around file object s' order' := by
  have hnot : i ∉ order := fun hmem => by
    have hsome := (h.mem i).mp hmem
    rw [hi] at hsome
    cases hsome
  have hserial := h.serial
  rcases List.eq_nil_or_concat order with rfl | ⟨before, d, rfl⟩
  · rw [hrow] at hserial
    cases hserial
  rw [List.concat_eq_append] at hnot hserial h
  obtain ⟨entry, hd⟩ := Option.isSome_iff_exists.mp ((h.mem d).mp (by simp))
  rw [List.filterMap_append, List.filterMap_cons_some hd, List.filterMap_nil, serials_append] at hserial
  obtain ⟨y, hy, hlast⟩ := Option.bind_eq_some_iff.mp hserial
  rw [hrow] at hlast
  -- The last operation has deleted the file.
  obtain ⟨unlinked, rfl, hgone⟩ := serial_erases hlast
  obtain ⟨g, hg, -⟩ := Option.map_eq_some_iff.mp hlast
  obtain ⟨f, hf, hfg⟩ := serials_isFolder hy hg
  cases hf
  have hnot' : i ∉ before := fun hm => hnot (List.mem_append_left _ hm)
  have hdi : d ≠ i := by
    rintro rfl
    exact hnot (by simp)
  refine ⟨before ++ [i] ++ [d], ?_, mem_entry (fun j => ?_) h hentry, ?_⟩
  · have hperm : (before ++ [i] ++ [d]).Perm (i :: (before ++ [d])) := by
      rw [List.append_assoc]
      exact List.perm_middle
    exact hperm.nodup_iff.mpr (List.nodup_cons.mpr ⟨hnot, h.nodup⟩)
  · simp only [List.mem_append, List.mem_singleton]
    rw [or_right_comm, or_comm]
  · have hself : s'.entry i = some (.remove, .trashed time) := by rw [hentry, if_pos rfl]
    have hd' : s'.entry d = some (.delete, .erased unlinked) := by rw [hentry, if_neg hdi, hd]
    have htrash : OneFile.serial around y (.remove, .trashed time) = some (some (trashed g time), y.2) := by
      rw [OneFile.serial, hg]
      simp [hfg, hfolder]
    rw [List.filterMap_append, List.filterMap_append, filterMap_entry hnot' hentry,
      List.filterMap_cons_some hself, List.filterMap_cons_some hd', List.filterMap_nil, serials_append,
      serials_append, hy, Option.bind_some, htrash, hrow', hobject, hgone]
    rfl

/-- The object of the deleted file is removed, or not. -/
theorem Ordered.unlink {op : FileOp} {unlinked : Bool} (h : Ordered around file object s order)
    (hi : s.entry i = some (op, .erased false))
    (hentry : ∀ j, s'.entry j = if j = i then some (op, .erased unlinked) else s.entry j)
    (hrow : s'.row = s.row) (hobject : s'.object = (s.object && !unlinked)) :
    Ordered around file object s' order := by
  have hmem : i ∈ order := (h.mem i).mpr (by rw [hi]; rfl)
  refine ⟨h.nodup, mem_entry (fun j => ⟨.inr, fun hj => hj.elim (fun hj => hj ▸ hmem) id⟩) h hentry, ?_⟩
  obtain ⟨before, later, rfl⟩ := List.append_of_mem hmem
  obtain ⟨-, hright, hdisjoint⟩ := List.nodup_append.mp h.nodup
  have hbefore : i ∉ before := fun hb => hdisjoint i hb i List.mem_cons_self rfl
  have hserial := h.serial
  rw [List.filterMap_append, List.filterMap_cons_some hi, serials, List.foldlM_append] at hserial
  obtain ⟨y, hy, hrest⟩ := Option.bind_eq_some_iff.mp hserial
  obtain ⟨z, hz, hlater⟩ := Option.bind_eq_some_iff.mp hrest
  -- The deletion is the last operation.
  have hgone : ∃ f, y.1 = some f ∧ op = .delete ∧ z = (none, y.2 && !false) := by
    cases op with
    | delete =>
      obtain ⟨f, hf, hzf⟩ := Option.map_eq_some_iff.mp hz
      exact ⟨f, hf, rfl, hzf.symm⟩
    | _ => cases hz
  obtain ⟨f, hf, rfl, rfl⟩ := hgone
  have hnil : later = [] := by
    cases later with
    | nil => rfl
    | cons j later =>
      obtain ⟨e, he⟩ := Option.isSome_iff_exists.mp ((h.mem j).mp (by simp))
      rw [List.filterMap_cons_some he, List.foldlM_cons, serial_none] at hlater
      cases hlater
  subst hnil
  obtain ⟨hnone, hkept⟩ := Prod.mk.inj (Option.some.inj hlater)
  have hself : s'.entry i = some (.delete, .erased unlinked) := by rw [hentry, if_pos rfl]
  rw [List.filterMap_append, filterMap_entry hbefore hentry, List.filterMap_cons_some hself,
    List.filterMap_nil, serials_append, serials, hy, Option.bind_some, OneFile.serial, hf, hrow, hobject,
    ← hnone, ← hkept, Bool.not_false, Bool.and_true]
  rfl

end Ordered

/-! ## Locks -/

/-- What the state is like while the operation `i` is in the phase. -/
def Phase.Fits (file : File) (s : FileState) (i : ℕ) : Phase → Prop
  | .owner => s.user = some i
  | .placing f => s.user = some i ∧ s.locked = some i ∧ s.row = some f
  | .deleting _ => s.user = some i ∧ s.row.isSome
  | .loaded .. => file.isFolder = false
  | .reloaded _ _ row => file.isFolder = false ∧ row.isSome
  | _ => True

/-- Another operation that fits still does after a step. -/
theorem Phase.Fits.mono {file : File} {phase : Phase} {j : ℕ} (h : phase.Fits file s j)
    (huser : s.user = some j → s'.user = some j) (hlocked : s.locked = some j → s'.locked = some j)
    (hplacing : s.user = some j → s.locked = some j → ∀ f, s.row = some f → s'.row = some f)
    (hdeleting : s.user = some j → s.row.isSome → s'.row.isSome) : phase.Fits file s' j := by
  cases phase with
  | owner => exact huser h
  | placing f => exact ⟨huser h.1, hlocked h.2.1, hplacing h.1 h.2.1 f h.2.2⟩
  | deleting f => exact ⟨huser h.1, hdeleting h.1 h.2⟩
  | loaded => exact h
  | reloaded => exact h
  | _ => trivial

def Fits (file : File) (s : FileState) : Prop :=
  ∀ (i : ℕ) (o : Operation), s.ops[i]? = some o → o.phase.Fits file s i

section Step

variable {file : File} {object : Bool} {order : List ℕ} {o : Operation}

theorem entry_move {x : FileState} {op : FileOp} {phase : Phase} (hx : x.ops = s.ops)
    (ho : s.ops[i]? = some o) (j : ℕ) : (x.move i op phase).entry j =
      if j = i then phase.outcome.map fun outcome => (op, outcome) else s.entry j := by
  have hi : i < s.ops.length := (List.getElem?_eq_some_iff.mp ho).1
  rw [FileState.entry, FileState.move, hx, List.getElem?_set]
  by_cases hj : i = j
  · rw [if_pos hj, if_pos hi, if_pos hj.symm]
    rfl
  · rw [if_neg hj, if_neg fun h => hj h.symm]
    rfl

theorem entry_eq (ho : s.ops[i]? = some o) :
    s.entry i = o.phase.outcome.map fun outcome => (o.op, outcome) := by
  rw [FileState.entry, ho, Option.bind_some]

/-- The operation `i` gets to a phase that fits, and the others still fit. -/
theorem Fits.move {x : FileState} {op : FileOp} {phase : Phase} (h : Fits file s) (hx : x.ops = s.ops)
    (hphase : phase.Fits file (x.move i op phase) i)
    (hothers : ∀ j, j ≠ i → ∀ phase, Phase.Fits file s j phase →
      Phase.Fits file (x.move i op phase) j phase) :
    Fits file (x.move i op phase) := by
  intro j b hb
  rw [FileState.move, hx, List.getElem?_set] at hb
  split_ifs at hb with hij hlt
  · cases hb
    exact hij ▸ hphase
  · exact hothers j (fun hj => hij hj.symm) _ (h j b hb)

/-- The locks of an operation other than the one that gives its own up. -/
theorem release_user {j : ℕ} (hj : j ≠ i) (h : s.user = some j) : (s.release i).user = some j := by
  have hne : ¬ s.user = some i := fun hi => hj (Option.some.inj (h.symm.trans hi))
  exact (if_neg hne).trans h

theorem release_locked {j : ℕ} (hj : j ≠ i) (h : s.locked = some j) :
    (s.release i).locked = some j := by
  have hne : ¬ s.locked = some i := fun hi => hj (Option.some.inj (h.symm.trans hi))
  exact (if_neg hne).trans h

theorem apply_of_not_changes {patch : FilePatch} (h : changes patch = false) (f : File) :
    patch.apply f = f := by
  obtain ⟨name, parentId, isDeleted, deletedAt⟩ := patch
  simp only [changes, Bool.or_eq_false_iff, Option.isSome_eq_false_iff, Option.isNone_iff_eq_none] at h
  obtain ⟨⟨⟨rfl, rfl⟩, rfl⟩, rfl⟩ := h
  rfl

theorem Fits.fail (h : Fits file s) (op : FileOp) (e : Err) : Fits file (s.fail i op e) :=
  h.move rfl trivial fun _ hj _ hp => hp.mono (release_user hj) (release_locked hj)
    (fun _ _ _ hr => hr) fun _ hr => hr

/-- The operation `i` gets on, and has not taken effect. -/
theorem Ordered.move {x : FileState} {op : FileOp} {phase : Phase}
    (h : Ordered around file object s order) (ho : s.ops[i]? = some o) (hx : x.ops = s.ops)
    (hrow : x.row = s.row) (hobject : x.object = s.object) (hold : o.phase.outcome = none)
    (hnew : phase.outcome = none) : Ordered around file object (x.move i op phase) order := by
  refine h.same (funext fun j => ?_) hrow hobject
  rw [entry_move hx ho, hnew]
  split_ifs with hj
  · rw [hj, entry_eq ho, hold]
    rfl
  · rfl

theorem Ordered.fail (h : Ordered around file object s order) (ho : s.ops[i]? = some o)
    (hunder : o.phase.underway = true) (op : FileOp) (e : Err) :
    Ordered around file object (s.fail i op e) order := by
  refine h.move ho rfl rfl rfl ?_ rfl
  generalize o.phase = phase at hunder
  cases phase <;> first | rfl | cases hunder

/-- **Every statement keeps what fits.** -/
theorem Fits.ran (h : Fits file s) (hfile : ∀ f, s.row = some f → f.isFolder = file.isFolder)
    (ho : s.ops[i]? = some o) (hran : Ran around s i o.op o.phase s')
    (hkeep : keepsRow (.run i) s = true) : Fits file s' := by
  obtain ⟨op, phase⟩ := o
  have hphase := h i _ ho
  dsimp only at hran hphase
  cases hran with
  | failed e => exact h.fail op e
  | loaded hrow hplain =>
    exact h.move rfl ((hfile _ hrow).symm.trans hplain) fun j hj _ hp =>
      hp.mono (fun hu => hu) (fun hl => hl) (fun _ _ _ hr => hr) fun _ hr => hr
  | reloaded =>
    rw [keepsRow, ho, Option.all_some] at hkeep
    exact h.move rfl ⟨hphase, hkeep⟩ fun j hj _ hp =>
      hp.mono (fun hu => hu) (fun hl => hl) (fun _ _ _ hr => hr) fun _ hr => hr
  | inserted hrow =>
    exact absurd hphase.2 (by simp)
  | @updated f time row hwait =>
    refine h.move rfl trivial fun j hj _ hp => hp.mono (fun hu => hu) (fun hl => hl)
      (fun _ hl g hg => ?_) fun _ hr => ?_
    · rcases hwait with hsame | hfree
      · change s.row.map _ = some g
        rw [hg, Option.map_some, apply_of_not_changes hsame]
      · rw [hfree] at hl
        cases hl
    · change (s.row.map _).isSome
      rwa [Option.isSome_map]
  | owner huser =>
    have hnone : ∀ j, ¬ s.user = some j := fun j hj => by
      rw [huser] at hj
      cases hj
    exact h.move rfl rfl fun j hj _ hp => hp.mono (fun hu => absurd hu (hnone j)) (fun hl => hl)
      (fun _ _ _ hr => hr) fun _ hr => hr
  | placing hrow hfree =>
    refine h.move rfl ⟨hphase, rfl, hrow⟩ fun j hj _ hp => hp.mono (fun hu => hu) (fun hl => ?_)
      (fun _ _ _ hr => hr) fun _ hr => hr
    rw [hfree] at hl
    cases hl
  | placed hplace =>
    refine h.move rfl trivial fun j hj _ hp => ?_
    have hother : ¬ s.user = some j := fun hu => hj (Option.some.inj (hu.symm.trans hphase.1))
    exact hp.mono (fun hu => absurd hu hother) (release_locked hj) (fun hu => absurd hu hother)
      fun hu => absurd hu hother
  | deleting hrow =>
    refine h.move rfl ⟨hphase, by rw [FileState.move, hrow]; rfl⟩ fun j hj _ hp =>
      hp.mono (fun hu => hu) (fun hl => hl) (fun _ _ _ hr => hr) fun _ hr => hr
  | deleted hfree =>
    refine h.move rfl trivial fun j hj _ hp => ?_
    have hother : ¬ s.user = some j := fun hu => hj (Option.some.inj (hu.symm.trans hphase.1))
    exact hp.mono (fun hu => absurd hu hother) (release_locked hj) (fun hu => absurd hu hother)
      fun hu => absurd hu hother
  | unlinked =>
    exact h.move rfl trivial fun j hj _ hp =>
      hp.mono (fun hu => hu) (fun hl => hl) (fun _ _ _ hr => hr) fun _ hr => hr

/-- **Every statement keeps a serial order.** -/
theorem Ordered.ran (h : Ordered around file object s order) (hfits : Fits file s)
    (ho : s.ops[i]? = some o) (hran : Ran around s i o.op o.phase s')
    (hkeep : keepsRow (.run i) s = true) : ∃ order', Ordered around file object s' order' := by
  obtain ⟨op, phase⟩ := o
  have hphase := hfits i _ ho
  have hi := entry_eq ho
  dsimp only at hran hphase hi
  cases hran with
  | failed e hunder => exact ⟨order, h.fail ho hunder op e⟩
  | loaded => exact ⟨order, h.move ho rfl rfl rfl rfl rfl⟩
  | reloaded => exact ⟨order, h.move ho rfl rfl rfl rfl rfl⟩
  | inserted => exact absurd hphase.2 (by simp)
  | @updated f time row hwait =>
    cases hrow : s.row with
    | none =>
      exact h.before_deletion hi hphase.1 hrow (entry_move rfl ho) rfl rfl
    | some current =>
      rw [keepsRow, ho, Option.all_some] at hkeep
      dsimp only at hkeep
      rw [hrow, Option.all_some] at hkeep
      refine ⟨_, h.append hi (entry_move rfl ho) ?_⟩
      obtain ⟨g, hg, hsame⟩ := serials_isFolder h.serial hrow
      cases hg
      rw [OneFile.serial, hrow, Option.filter_some_pos (by simp [hsame, hphase.1]), Option.map_some,
        ← timely_iff.mpr hkeep]
      rfl
  | owner => exact ⟨order, h.move ho rfl rfl rfl rfl rfl⟩
  | placing => exact ⟨order, h.move ho rfl rfl rfl rfl rfl⟩
  | placed hplace =>
    refine ⟨_, h.append hi (entry_move rfl ho) ?_⟩
    rw [OneFile.serial, hphase.2.2, Option.map_some, hplace]
    rfl
  | deleting => exact ⟨order, h.move ho rfl rfl rfl rfl rfl⟩
  | deleted hfree =>
    refine ⟨_, h.append hi (entry_move rfl ho) ?_⟩
    obtain ⟨g, hg⟩ := Option.isSome_iff_exists.mp hphase.2
    rw [OneFile.serial, hg, Bool.not_false, Bool.and_true]
    rfl
  | unlinked unlinked => exact ⟨order, h.unlink hi (entry_move rfl ho) rfl rfl⟩

/-- An operation is one that was there before another is started, or is the one that is started. -/
theorem getElem?_start {op : FileOp} (h : (s.ops ++ [⟨op, .waiting⟩])[i]? = some o) :
    s.ops[i]? = some o ∨ s.ops[i]? = none ∧ o = ⟨op, .waiting⟩ := by
  rw [List.getElem?_append] at h
  split_ifs at h with hlt
  · exact .inl h
  · obtain ⟨_, hget⟩ := List.getElem?_eq_some_iff.mp h
    exact .inr ⟨List.getElem?_eq_none (not_lt.mp hlt), by simpa using hget.symm⟩

/-- An operation that starts has not taken effect. -/
theorem entry_start (op : FileOp) :
    FileState.entry { s with ops := s.ops ++ [⟨op, .waiting⟩] } = s.entry := by
  funext i
  rw [FileState.entry, FileState.entry]
  cases hnew : (s.ops ++ [(⟨op, .waiting⟩ : Operation)])[i]? with
  | none =>
    have hlt := List.getElem?_eq_none_iff.mp hnew
    rw [List.getElem?_eq_none (by rw [List.length_append] at hlt; omega)]
  | some o =>
    rcases getElem?_start hnew with ho | ⟨ho, rfl⟩
    · rw [ho]
    · rw [ho]
      rfl

/-- **In a run that keeps the row, the operations are in a serial order.** -/
theorem Reached.ordered (h : Reached around keepsRow (.initial file object) s) :
    Fits file s ∧ ∃ order, Ordered around file object s order := by
  induction h with
  | start =>
    refine ⟨fun i o ho => ?_, [], List.nodup_nil, fun i => ?_, rfl⟩
    · cases ho
    · simp [FileState.entry, FileState.initial]
  | @step s s' m _ hok hnext ih =>
    obtain ⟨hfits, order, hord⟩ := ih
    obtain ⟨n, rfl⟩ | ⟨op, rfl⟩ | ⟨i, o, e, ho, hunder, rfl⟩ | ⟨i, o, ho, hran, hkeep⟩ :=
      ran_of_next hnext hok
    · exact ⟨fun i o ho => (hfits i o ho).mono (fun hu => hu) (fun hl => hl) (fun _ _ _ hr => hr)
        fun _ hr => hr, order, hord.same rfl rfl rfl⟩
    · refine ⟨fun i o ho => ?_, order, hord.same (entry_start op) rfl rfl⟩
      rcases getElem?_start ho with ho | ⟨-, rfl⟩
      · exact (hfits i o ho).mono (fun hu => hu) (fun hl => hl) (fun _ _ _ hr => hr) fun _ hr => hr
      · trivial
    · exact ⟨hfits.fail o.op e, order, hord.fail ho hunder o.op e⟩
    · have hfile : ∀ f, s.row = some f → f.isFolder = file.isFolder := fun f hf => by
        obtain ⟨g, hg, hsame⟩ := serials_isFolder hord.serial hf
        cases hg
        exact hsame
      exact ⟨hfits.ran hfile ho hran hkeep, hord.ran hfits ho hran hkeep⟩

end Step

end Steps

/-! ## Settled states -/

/-- Every operation has succeeded or failed. -/
def FileState.settled (s : FileState) : Bool := s.ops.all fun o =>
  match o.phase with
  | .finished _ | .failed _ => true
  | _ => false

/-- The operation has succeeded. -/
def FileState.succeeded (s : FileState) (i : ℕ) : Bool := (s.ops[i]?).any fun o =>
  match o.phase with
  | .finished _ => true
  | _ => false

/-- The operations that have taken effect, when all are settled, are those that have succeeded. -/
theorem entry_isSome {s : FileState} (hs : s.settled = true) (i : ℕ) :
    (s.entry i).isSome = s.succeeded i := by
  rw [FileState.entry, FileState.succeeded]
  cases ho : s.ops[i]? with
  | none => rfl
  | some o =>
    have hdone := List.all_eq_true.mp hs o (List.mem_of_getElem? ho)
    rw [Option.bind_some, Option.isSome_map, Option.any_some]
    generalize o.phase = phase at hdone
    cases phase with
    | finished outcome => rfl
    | failed e => rfl
    | _ => cases hdone

/-- The row and the object are what becomes of the file when the operations that have succeeded run one
after the other, in some order. -/
def Serialisable (around : Surroundings) (file : File) (object : Bool) (s : FileState) : Prop :=
  ∃ order : List ℕ, order.Nodup ∧ (∀ i, i ∈ order ↔ s.succeeded i = true) ∧
    serials around (some file, object) (order.filterMap s.entry) = some (s.row, s.object)

/-- **Operations on one file are serialisable** when a file that is trashed is still there when `save`
reloads its row, and the update of its row is timely. -/
theorem one_file_serial (around : Surroundings) (file : File) (object : Bool) (s : FileState)
    (h : Reached around keepsRow (.initial file object) s) (hs : s.settled = true) :
    Serialisable around file object s := by
  obtain ⟨-, order, hord⟩ := h.ordered
  refine ⟨order, hord.nodup, fun i => ?_, hord.serial⟩
  rw [hord.mem, entry_isSome hs]

/-! ## Runs -/

/-- The state after the moves, when `ok` is true on the way. -/
def FileState.after (around : Surroundings) (ok : Move → FileState → Bool) :
    FileState → List Move → Option FileState
  | s, [] => some s
  | s, m :: moves => if ok m s then (s.next around m).bind (after around ok · moves) else none

theorem Reached.after {around : Surroundings} {ok : Move → FileState → Bool} {moves : List Move}
    {s₀ s s' : FileState} (h : Reached around ok s₀ s) (hmoves : s.after around ok moves = some s') :
    Reached around ok s₀ s' := by
  induction moves generalizing s with
  | nil =>
    cases hmoves
    exact h
  | cons m moves ih =>
    rw [FileState.after] at hmoves
    split_ifs at hmoves with hok
    obtain ⟨s₁, hnext, hrest⟩ := Option.bind_eq_some_iff.mp hmoves
    exact ih (h.step m hok hnext) hrest

/-- A file outside of any folder, and nothing else. -/
def oneFile : File :=
  ⟨.ofJs [97], some ⟨0, .object 0⟩, 1, none, none, false, false, none, none, none, none, 0⟩

def nothingElse : Surroundings := ⟨fun _ => false, fun _ => []⟩

/-- The file gets another name. -/
def rename : FileOp := .change (some [98]) none false

theorem exists_reached (ok : Move → FileState → Bool) (moves : List Move) (p : FileState → Bool)
    (h : ((FileState.initial oneFile true).after nothingElse ok moves).any p = true) :
    ∃ s, Reached nothingElse ok (.initial oneFile true) s ∧ p s = true := by
  obtain ⟨s, hs, hp⟩ := (Option.any_eq_true ..).mp h
  exact ⟨s, Reached.start.after hs, hp⟩

/-- A file is trashed while it is being renamed: the rename has locked the user, and reads the row after
the update. -/
theorem one_file_serial_of_run : ∃ s, Reached nothingElse keepsRow (.initial oneFile true) s ∧
    s.settled = true ∧ s.ops.length = 2 ∧ Serialisable nothingElse oneFile true s := by
  obtain ⟨s, hs, hp⟩ := exists_reached keepsRow
    [.start .remove, .run 0, .start rename, .run 1, .run 0, .run 0, .run 1, .run 1]
    (fun s => s.settled && s.ops.length = 2) (by decide +kernel)
  simp only [Bool.and_eq_true, decide_eq_true_eq] at hp
  exact ⟨s, hs, hp.1, hp.2, one_file_serial nothingElse oneFile true s hs hp.1⟩

/-- Two operations have succeeded, and neither order of them gives the row and the object. -/
def FileState.neither (s : FileState) : Bool :=
  s.ops.length = 2 && s.succeeded 0 && s.succeeded 1 &&
    [0, 1].permutations'.all fun order =>
      serials nothingElse (some oneFile, true) (order.filterMap s.entry) ≠ some (s.row, s.object)

theorem not_serialisable {s : FileState} (h : s.neither = true) :
    ¬ Serialisable nothingElse oneFile true s := by
  rintro ⟨order, hnodup, hmem, hserial⟩
  simp only [FileState.neither, Bool.and_eq_true, List.all_eq_true, decide_eq_true_eq] at h
  obtain ⟨⟨⟨hlength, h0⟩, h1⟩, hall⟩ := h
  refine hall order (List.mem_permutations'.mpr ?_) hserial
  refine (List.perm_ext_iff_of_nodup hnodup (by decide)).mpr fun i => ?_
  rw [hmem]
  constructor
  · intro hi
    obtain ⟨o, ho, -⟩ := (Option.any_eq_true ..).mp hi
    have hlt := (List.getElem?_eq_some_iff.mp ho).1
    have hcases : i = 0 ∨ i = 1 := by omega
    simpa using hcases
  · intro hi
    rcases List.mem_pair.mp hi with rfl | rfl
    · exact h0
    · exact h1

/-- A file is read to be trashed, and renamed before its row is reloaded: the update takes the rename
back. A file is read to be trashed, and deleted before its row is reloaded: its row is inserted again. -/
theorem not_one_file_serial :
    (∃ s, Reached nothingElse (fun _ _ => true) (.initial oneFile true) s ∧ s.settled = true ∧
      s.row.map (·.name) = some oneFile.name ∧ ¬ Serialisable nothingElse oneFile true s) ∧
    ∃ s, Reached nothingElse (fun _ _ => true) (.initial oneFile true) s ∧ s.settled = true ∧
      s.row.isSome = true ∧ s.object = false ∧ ¬ Serialisable nothingElse oneFile true s := by
  constructor
  · obtain ⟨s, hs, hp⟩ := exists_reached (fun _ _ => true)
      [.start .remove, .run 0, .start rename, .run 1, .run 1, .run 1, .run 0, .run 0]
      (fun s => s.settled && s.row.map (·.name) = some oneFile.name && s.neither) (by decide +kernel)
    simp only [Bool.and_eq_true, decide_eq_true_eq] at hp
    exact ⟨s, hs, hp.1.1, hp.1.2, not_serialisable hp.2⟩
  · obtain ⟨s, hs, hp⟩ := exists_reached (fun _ _ => true)
      [.start .remove, .run 0, .start .delete, .run 1, .run 1, .run 1, .unlink 1 true, .run 0, .run 0]
      (fun s => s.settled && s.row.isSome && !s.object && s.neither) (by decide +kernel)
    simp only [Bool.and_eq_true, Bool.not_eq_true'] at hp
    exact ⟨s, hs, hp.1.1.1, hp.1.1.2, hp.1.2, not_serialisable hp.2⟩

end OneFile

end HomeCloud
