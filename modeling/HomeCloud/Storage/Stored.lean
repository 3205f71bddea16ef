import HomeCloud.Storage.ObjectKeys

/-!
# The keys that the backend gives

An object gets its key when it is published, copied or created, or when an upload is finalized on another disk.

* `Stored`: these keys.
* `stored_finalName`: every admitted name makes one.
* **`Stored.shape`**: they are names in the directory of a user, without control characters.
-/

namespace HomeCloud

namespace Storage

/-! ## Keys -/

/-- A key that the backend gives: that of a published upload, of a copy or a created file, or of an upload that was
finalized on another disk. -/
inductive Stored (low : LowerCase) : JsString → Prop
  | published {disk disk' : Disk} {userId n : ℕ} {filename key : JsString} {path : AbsolutePath} (u : Suffix n) :
      disk.Serves userId → validateFilename filename = true →
      disk.generateFinalPath low userId u.val (DbText.ofJs filename).val = some (path, disk') →
      disk'.keyFromAbsolute path true = some key → Stored low key
  | copied {disk disk' : Disk} {userId n : ℕ} {name key : JsString} {path : AbsolutePath} (u : Suffix n) :
      disk.Serves userId → disk.targetPath low userId name u.val = some (path, disk') →
      disk'.keyFromAbsolute path true = some key → Stored low key
  | finalized {userId n : ℕ} (u : Suffix n) : Stored low (objectKey userId (u.val ++ ascii ".ssd-finalized"))

/-- A name in the directory of a user, without control characters. -/
def Shape (key : JsString) : Prop :=
  ∃ userId name, key = objectKey userId name ∧ Component name ∧ WellFormed name ∧ ∀ c ∈ name, 0x20 ≤ c

section Keys

variable {low : LowerCase} {n userId : ℕ} {disk disk' : Disk} {name key : JsString} {path : AbsolutePath}

theorem shape_of_generatePath (h : disk.Serves userId) (hname : Component name) (hunits : ∀ c ∈ name, 0x20 ≤ c)
    (hpath : disk.generatePath userId name = some (path, disk')) (hkey : disk'.keyFromAbsolute path true = some key) :
    Shape key := by
  obtain ⟨hserves, hroot, hdir⟩ := h.mkdir
  rw [Disk.generatePath_eq h hname] at hpath
  split at hpath
  · next hwell =>
    cases hpath
    have hsame : (disk.mkdir [decimal userId]).objectPath userId name = disk.objectPath userId name := by
      unfold Disk.objectPath
      rw [hroot]
    rw [← hsame, Disk.keyFromAbsolute_eq hserves hname, if_pos ⟨hwell.1, .inr hwell.2⟩] at hkey
    exact ⟨userId, name, (Option.some.inj hkey).symm, hname, hwell.1, hunits⟩
  · cases hpath

theorem le_of_isSafe {c : UInt16} (h : isSafe c = true) : 0x20 ≤ c := by
  simp only [isSafe, Bool.or_eq_true, Bool.and_eq_true, decide_eq_true_eq, beq_iff_eq] at h
  grind

theorem units_diskName {u : Suffix n} (h : ∀ c ∈ name, 0x20 ≤ c) : ∀ c ∈ diskName low name u.val, 0x20 ≤ c := by
  intro c hc
  by_cases hlt : c < 0x61
  · rcases mem_diskName low hc hlt with hsafe | hmem
    · exact le_of_isSafe hsafe
    · exact h c hmem
  · grind

theorem units_finalName {u : Suffix n} (h : ∀ c ∈ name, 0x20 ≤ c) : ∀ c ∈ finalName low u.val name, 0x20 ≤ c := by
  unfold finalName
  simp only
  split
  · intro c hc
    rcases List.mem_append.mp hc with hc | hc
    · exact le_of_isSafe (u.isSafe_of_mem hc).1
    · exact le_of_isSafe (upload_safe c hc)
  · exact units_diskName h

theorem units_of_validateFilename {filename : JsString} (h : validateFilename filename = true) :
    ∀ c ∈ (DbText.ofJs filename).val, 0x20 ≤ c := by
  simp only [validateFilename, Bool.and_eq_true, Bool.not_eq_true', List.any_eq_false] at h
  intro c hc
  rcases mem_toWellFormed hc with hmem | rfl
  · have := h.2 c hmem
    simp only [Bool.or_eq_true, decide_eq_true_eq, not_or] at this
    exact UInt16.not_lt.mp this.1
  · decide

theorem units_of_validateDisplayName {displayName : JsString} (h : validateDisplayName name = some displayName) :
    ∀ c ∈ displayName, 0x20 ≤ c := by
  simp only [validateDisplayName] at h
  split at h
  · cases h
  · next hvalid =>
    cases h
    simp only [Bool.or_eq_true, not_or, Bool.not_eq_true, List.any_eq_false] at hvalid
    intro c hc
    exact UInt16.not_lt.mp (of_decide_eq_false (hvalid.1.1.2 c hc).1)

theorem finalized_units : ∀ c ∈ ascii ".ssd-finalized", isSafe c = true :=
  List.all_eq_true.mp (by decide)

/-- **The keys that the backend gives** have that shape. -/
theorem Stored.shape (h : Stored low key) : Shape key := by
  cases h with
  | published u hserves hvalid hpath hkey =>
    exact shape_of_generatePath hserves (component_finalName low (plain_of_validateFilename hvalid) u)
      (units_finalName (units_of_validateFilename hvalid)) hpath hkey
  | @copied disk disk' userId n name key path u hserves hpath hkey =>
    unfold Disk.targetPath at hpath
    cases hname : validateDisplayName name with
    | none =>
      rw [hname] at hpath
      cases hpath
    | some displayName =>
      rw [hname] at hpath
      exact shape_of_generatePath hserves (component_diskName low (plain_of_validateDisplayName hname) u)
        (units_diskName (units_of_validateDisplayName hname)) hpath hkey
  | @finalized userId n u =>
    have hsafe : ∀ c ∈ u.val ++ ascii ".ssd-finalized", isSafe c = true := by
      intro c hc
      rcases List.mem_append.mp hc with hc | hc
      · exact (u.isSafe_of_mem hc).1
      · exact finalized_units c hc
    have hmem : (0x73 : UInt16) ∈ u.val ++ ascii ".ssd-finalized" := List.mem_append_right _ (by decide)
    refine ⟨userId, _, rfl, ⟨List.ne_nil_of_mem hmem, fun heq => ?_, fun heq => ?_, fun hc => ?_, fun hc => ?_,
      fun hc => ?_⟩, ?_, fun c hc => le_of_isSafe (hsafe c hc)⟩
    · exact absurd (heq ▸ hmem) (by decide)
    · exact absurd (heq ▸ hmem) (by decide)
    · exact (isSafe_ascii (hsafe _ hc)).2.1 rfl
    · exact (isSafe_ascii (hsafe _ hc)).2.2.1 rfl
    · exact (isSafe_ascii (hsafe _ hc)).2.2.2 rfl
    · have hwell : WellFormed ((u.val ++ ascii ".ssd-finalized") ++ []) ↔ WellFormed [] :=
        wellFormed_ascii_append fun c hc => (isSafe_ascii (hsafe c hc)).1
      rw [List.append_nil] at hwell
      exact hwell.mpr rfl

theorem Shape.le (h : Shape key) : ∀ c ∈ key, 0x20 ≤ c := by
  obtain ⟨userId, name, rfl, -, -, hunits⟩ := h
  intro c hc
  rcases List.mem_append.mp hc with hc | hc
  · exact UInt16.le_trans (by decide) (mem_decimal hc).1
  · rcases List.mem_cons.mp hc with rfl | hc
    · decide
    · exact hunits c hc

/-- Every admitted name makes a key. -/
theorem stored_finalName (h : disk.Serves userId) (hn : n ≤ 248) {filename : JsString}
    (hvalid : validateFilename filename = true) (u : Suffix n) :
    Stored low (objectKey userId (finalName low u.val (DbText.ofJs filename).val)) := by
  have hname := component_finalName low (plain_of_validateFilename hvalid) u
  have hwell := wellFormed_finalName low (DbText.ofJs filename).property u
  have hlength := byteLength_finalName low hn (DbText.ofJs filename).val u
  obtain ⟨hserves, hroot, -⟩ := h.mkdir
  have hpath : disk.generateFinalPath low userId u.val (DbText.ofJs filename).val =
      some (disk.objectPath userId (finalName low u.val (DbText.ofJs filename).val), disk.mkdir [decimal userId]) := by
    unfold Disk.generateFinalPath
    rw [Disk.generatePath_eq h hname, if_pos ⟨hwell, hlength⟩]
  have hsame : disk.objectPath userId (finalName low u.val (DbText.ofJs filename).val) =
      (disk.mkdir [decimal userId]).objectPath userId (finalName low u.val (DbText.ofJs filename).val) := by
    unfold Disk.objectPath
    rw [hroot]
  refine .published u h hvalid hpath ?_
  rw [hsame, Disk.keyFromAbsolute_eq hserves hname, if_pos ⟨hwell, .inr hlength⟩]

end Keys

end Storage

end HomeCloud
