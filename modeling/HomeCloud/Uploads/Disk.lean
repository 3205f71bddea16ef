import HomeCloud.Schema

/-!
# The file system

What the upload operations keep outside the database, and the steps they take on it.

* `Disk`: chunk files, assembly attempts and objects of the legacy uploads.
* `SsdFiles`: chunk files, temporary files and final objects of the SSD uploads.
* `DiskOp`, `DiskOp.apply`: the steps.
-/

namespace HomeCloud

/-- The contents of a file. -/
abbrev Bytes := List UInt8

/-- A file with its inode. -/
structure Artifact where
  inode : ℕ
  data : Bytes
  deriving DecidableEq

/-- The files of the SSD uploads: the directory of each session with its chunks, and the temporary
file and the final object of each finalization. -/
structure SsdFiles where
  directories : ℕ → Bool
  chunks : ℕ → ℕ → Option Artifact
  temporaries : ℕ → Option Artifact
  finals : ℕ → Option Artifact

/-- The files of the upload operations: for each legacy session its directory with the chunks and
the `.assembly-…` files, and the objects. `issued` counts the unique numbers handed out, `received`
lists the bodies of the chunk requests with their session and index, and `flock` is the thread that
has the root of the SSD locked. -/
structure Disk where
  issued : ℕ
  received : List (ℕ × ℕ × Bytes)
  directories : ℕ → Bool
  chunkFiles : ℕ → ℕ → Option Bytes
  attempts : ℕ → List (ℕ × Bytes)
  objects : Placement → Option Bytes
  flock : Option ℕ
  ssd : SsdFiles

def SsdFiles.empty : SsdFiles where
  directories := fun _ => false
  chunks := fun _ _ => none
  temporaries := fun _ => none
  finals := fun _ => none

def Disk.empty : Disk where
  issued := 0
  received := []
  directories := fun _ => false
  chunkFiles := fun _ _ => none
  attempts := fun _ => []
  objects := fun _ => none
  flock := none
  ssd := .empty

/-- The place of the object that an attempt links, without an attempt the one of the uploads before
there were attempts. -/
def finalPlacement (session : ℕ) (attempt : Option ℕ) : Placement :=
  ⟨0, .assembled session attempt⟩

theorem finalPlacement_inj {s s' : ℕ} {a a' : Option ℕ} :
    finalPlacement s a = finalPlacement s' a' ↔ s = s' ∧ a = a' := by
  simp [finalPlacement]

/-! ## Steps -/

/-- A step on the files of the SSD uploads. -/
inductive SsdOp where
  | makeDirectory (session : ℕ)
  | createChunk (session index : ℕ)
  | fillChunk (session index : ℕ) (data : Bytes)
  | renameChunk (session index : ℕ) (data : Bytes)
  | removeChunk (session index : ℕ)
  | createTemporary (operation : ℕ)
  | truncateTemporary (operation : ℕ)
  | appendTemporary (operation : ℕ) (data : Bytes)
  | publish (operation : ℕ)

/-- A step on the file system. `look` only reads; `receive` is the arrival of a chunk request;
`clearDirectory` is a removal of a directory that does not come to its end: of the chunk `i` and the
attempt `a` only those are gone for which the bit `2 * i` or `2 * a + 1` of `n` is set. -/
inductive DiskOp where
  | look
  | receive (session index : ℕ) (data : Bytes)
  | makeDirectory (session : ℕ)
  | writeChunk (session index : ℕ) (data : Bytes)
  | createAttempt (session : ℕ)
  | appendAttempt (session attempt : ℕ) (data : Bytes)
  | removeAttempt (session attempt : ℕ)
  | link (session attempt : ℕ)
  | unlink (session : ℕ) (attempt : Option ℕ)
  | removeDirectory (session : ℕ)
  | clearDirectory (session n : ℕ)
  | lockSsd
  | unlockSsd
  | ssd (op : SsdOp)

/-- The function that has `y` at `x`. -/
def setAt {α β : Type} [DecidableEq α] (f : α → β) (x : α) (y : β) : α → β :=
  fun z => if z = x then y else f z

@[simp]
theorem setAt_self {α β : Type} [DecidableEq α] (f : α → β) (x : α) (y : β) :
    setAt f x y x = y := if_pos rfl

theorem setAt_ne {α β : Type} [DecidableEq α] (f : α → β) {x z : α} (y : β) (h : z ≠ x) :
    setAt f x y z = f z := if_neg h

/-- The files after the step; `inode` is that of a new file. -/
def SsdOp.apply (inode : ℕ) (f : SsdFiles) : SsdOp → SsdFiles
  | .makeDirectory s => { f with directories := setAt f.directories s true }
  | .createChunk s i =>
    { f with chunks := setAt f.chunks s (setAt (f.chunks s) i (some ⟨inode, []⟩)) }
  | .fillChunk s i data =>
    { f with
      chunks := setAt f.chunks s
        (setAt (f.chunks s) i ((f.chunks s i).map fun a => { a with data := data })) }
  | .renameChunk s i data =>
    { f with chunks := setAt f.chunks s (setAt (f.chunks s) i (some ⟨inode, data⟩)) }
  | .removeChunk s i => { f with chunks := setAt f.chunks s (setAt (f.chunks s) i none) }
  | .createTemporary o => { f with temporaries := setAt f.temporaries o (some ⟨inode, []⟩) }
  | .truncateTemporary o =>
    { f with
      temporaries := setAt f.temporaries o ((f.temporaries o).map fun a => { a with data := [] }) }
  | .appendTemporary o data =>
    { f with
      temporaries := setAt f.temporaries o
        ((f.temporaries o).map fun a => { a with data := a.data ++ data }) }
  | .publish o =>
    { f with
      temporaries := setAt f.temporaries o none
      finals := setAt f.finals o (f.temporaries o) }

/-- The files after the step of the thread `t`. -/
def DiskOp.apply (t : ℕ) (d : Disk) : DiskOp → Disk
  | .look => d
  | .receive s i data => { d with received := (s, i, data) :: d.received }
  | .makeDirectory s => { d with directories := setAt d.directories s true }
  | .writeChunk s i data =>
    if d.directories s then
      { d with chunkFiles := setAt d.chunkFiles s (setAt (d.chunkFiles s) i (some data)) }
    else d
  | .createAttempt s =>
    { d with
      issued := d.issued + 1
      attempts := if d.directories s then setAt d.attempts s ((d.issued, []) :: d.attempts s)
        else d.attempts }
  | .appendAttempt s a data =>
    { d with
      attempts := setAt d.attempts s
        ((d.attempts s).map fun x => if x.1 = a then (x.1, x.2 ++ data) else x) }
  | .removeAttempt s a =>
    { d with attempts := setAt d.attempts s ((d.attempts s).filter (·.1 ≠ a)) }
  | .link s a =>
    match (d.attempts s).find? (·.1 = a), d.objects (finalPlacement s (some a)) with
    | some x, none => { d with objects := setAt d.objects (finalPlacement s (some a)) (some x.2) }
    | _, _ => d
  | .unlink s a => { d with objects := setAt d.objects (finalPlacement s a) none }
  | .removeDirectory s =>
    { d with
      directories := setAt d.directories s false
      chunkFiles := setAt d.chunkFiles s fun _ => none
      attempts := setAt d.attempts s [] }
  | .clearDirectory s n =>
    { d with
      chunkFiles := setAt d.chunkFiles s fun i => if n.testBit (2 * i) then none else d.chunkFiles s i
      attempts := setAt d.attempts s ((d.attempts s).filter fun x => !n.testBit (2 * x.1 + 1)) }
  | .lockSsd => if d.flock = none then { d with flock := some t } else d
  | .unlockSsd => if d.flock = some t then { d with flock := none } else d
  | .ssd op => { d with issued := d.issued + 1, ssd := op.apply d.issued d.ssd }

/-- The legacy session whose chunk files the step changes. -/
def DiskOp.tears : DiskOp → Option ℕ
  | .writeChunk s _ _ | .removeDirectory s | .clearDirectory s _ => some s
  | _ => none

/-- The legacy session for which the step links an object. -/
def DiskOp.links : DiskOp → Option ℕ
  | .link s _ => some s
  | _ => none

/-- A step on the files of the SSD uploads or on their lock. -/
def DiskOp.onSsd : DiskOp → Bool
  | .lockSsd | .unlockSsd | .ssd _ => true
  | _ => false

/-! ## What a step leaves as it is -/

section Untouched

variable {t : ℕ} {d : Disk} {s a : ℕ}

theorem DiskOp.issued_le (op : DiskOp) : d.issued ≤ (op.apply t d).issued := by
  cases op with
  | createAttempt s => exact Nat.le_succ _
  | ssd op => exact Nat.le_succ _
  | writeChunk | link | lockSsd | unlockSsd =>
    simp only [DiskOp.apply]
    split <;> exact le_rfl
  | _ => exact le_rfl

theorem DiskOp.mem_received (op : DiskOp) {x : ℕ × ℕ × Bytes} (h : x ∈ d.received) :
    x ∈ (op.apply t d).received := by
  cases op with
  | receive s i data => exact List.mem_cons_of_mem _ h
  | writeChunk | link | lockSsd | unlockSsd =>
    simp only [DiskOp.apply]
    split <;> exact h
  | _ => exact h

theorem DiskOp.chunkFiles_eq (op : DiskOp) (h : op.tears ≠ some s) :
    (op.apply t d).chunkFiles s = d.chunkFiles s := by
  cases op with
  | writeChunk s' i data =>
    have hne : s ≠ s' := fun he => h (he ▸ rfl)
    simp only [DiskOp.apply]
    split
    · exact setAt_ne _ _ hne
    · rfl
  | removeDirectory s' | clearDirectory s' n => exact setAt_ne _ _ fun he => h (he ▸ rfl)
  | link | lockSsd | unlockSsd =>
    simp only [DiskOp.apply]
    split <;> rfl
  | _ => rfl

/-- The steps that change the object of an attempt. -/
def DiskOp.changesObject (op : DiskOp) (s : ℕ) (a : Option ℕ) : Prop :=
  (∃ n, a = some n ∧ op = .link s n) ∨ op = .unlink s a

theorem DiskOp.objects_eq (op : DiskOp) {a : Option ℕ} (h : ¬ op.changesObject s a) :
    (op.apply t d).objects (finalPlacement s a) = d.objects (finalPlacement s a) := by
  cases op with
  | link s' a' =>
    simp only [DiskOp.apply]
    split
    · refine setAt_ne _ _ fun he => h ?_
      obtain ⟨rfl, rfl⟩ := finalPlacement_inj.mp he
      exact .inl ⟨a', rfl, rfl⟩
    · rfl
  | unlink s' a' =>
    refine setAt_ne _ _ fun he => h ?_
    obtain ⟨rfl, rfl⟩ := finalPlacement_inj.mp he
    exact .inr rfl
  | writeChunk | lockSsd | unlockSsd =>
    simp only [DiskOp.apply]
    split <;> rfl
  | _ => rfl

/-- Only a link makes an object. -/
theorem DiskOp.objects_none (op : DiskOp) {a : Option ℕ} (h : op.links ≠ some s)
    (hn : d.objects (finalPlacement s a) = none) :
    (op.apply t d).objects (finalPlacement s a) = none := by
  by_cases hc : op.changesObject s a
  · rcases hc with ⟨n, -, rfl⟩ | rfl
    · exact absurd rfl h
    · exact setAt_self ..
  · rw [op.objects_eq hc, hn]

/-- An attempt file after the step has been there before, or is the new one. -/
theorem DiskOp.attempt_apply (op : DiskOp) {data : Bytes}
    (h : (a, data) ∈ (op.apply t d).attempts s) :
    (∃ old, (a, old) ∈ d.attempts s ∧ ((∀ x, op ≠ .appendAttempt s a x) → old = data)) ∨
      op = .createAttempt s ∧ a = d.issued := by
  cases op with
  | createAttempt s' =>
    simp only [DiskOp.apply] at h
    split at h
    · by_cases hs : s = s'
      · subst hs
        rw [setAt_self, List.mem_cons] at h
        rcases h with heq | hold
        · cases heq
          exact .inr ⟨rfl, rfl⟩
        · exact .inl ⟨data, hold, fun _ => rfl⟩
      · rw [setAt_ne _ _ hs] at h
        exact .inl ⟨data, h, fun _ => rfl⟩
    · exact .inl ⟨data, h, fun _ => rfl⟩
  | appendAttempt s' a' x =>
    by_cases hs : s = s'
    · subst hs
      simp only [DiskOp.apply, setAt_self, List.mem_map] at h
      obtain ⟨y, hy, heq⟩ := h
      split_ifs at heq with hya
      · cases heq
        exact .inl ⟨y.2, hy, fun hne => absurd (by rw [hya]) (hne x)⟩
      · subst heq
        exact .inl ⟨data, hy, fun _ => rfl⟩
    · simp only [DiskOp.apply, setAt_ne _ _ hs] at h
      exact .inl ⟨data, h, fun _ => rfl⟩
  | removeAttempt s' a' =>
    by_cases hs : s = s'
    · subst hs
      simp only [DiskOp.apply, setAt_self] at h
      exact .inl ⟨data, List.mem_of_mem_filter h, fun _ => rfl⟩
    · simp only [DiskOp.apply, setAt_ne _ _ hs] at h
      exact .inl ⟨data, h, fun _ => rfl⟩
  | clearDirectory s' n =>
    by_cases hs : s = s'
    · subst hs
      simp only [DiskOp.apply, setAt_self] at h
      exact .inl ⟨data, List.mem_of_mem_filter h, fun _ => rfl⟩
    · simp only [DiskOp.apply, setAt_ne _ _ hs] at h
      exact .inl ⟨data, h, fun _ => rfl⟩
  | removeDirectory s' =>
    by_cases hs : s = s'
    · subst hs
      simp only [DiskOp.apply, setAt_self, List.not_mem_nil] at h
    · simp only [DiskOp.apply, setAt_ne _ _ hs] at h
      exact .inl ⟨data, h, fun _ => rfl⟩
  | writeChunk | link | lockSsd | unlockSsd =>
    simp only [DiskOp.apply] at h
    split at h <;> exact .inl ⟨data, h, fun _ => rfl⟩
  | _ => exact .inl ⟨data, h, fun _ => rfl⟩

/-- What an attempt file holds, unless the step is one of that attempt. -/
theorem DiskOp.mem_attempts (op : DiskOp) (ha : a < d.issued) {data : Bytes}
    (h : (a, data) ∈ (op.apply t d).attempts s) (hop : ∀ x, op ≠ .appendAttempt s a x) :
    (a, data) ∈ d.attempts s := by
  rcases op.attempt_apply h with ⟨old, hold, heq⟩ | ⟨-, rfl⟩
  · exact heq hop ▸ hold
  · exact absurd ha (lt_irrefl _)

end Untouched

end HomeCloud
