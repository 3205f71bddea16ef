import HomeCloud.Storage.DiskNames
import Mathlib.Data.Bool.AllAny
import Mathlib.Data.Nat.Digits.Defs

/-!
# The paths of objects

The objects of a user lie in one directory below the storage root. A path is accepted when it maps to an object
key: it is in normal form, every component up to the last is a directory of the service, and what stands at its
end is missing or a regular file.

* `AbsolutePath`, `join`, `resolve`: paths in normal form.
* `Disk`: what is at the paths below the root, and that a component holds at most 255 bytes.
* `validateObjectKey`, `keyFromAbsolute`, `ensureWithinStorageRoot`: the checks on paths and keys.
* `generatePath`, `generateFinalPath`: the paths of copies, and of what is published.
* `generatePath_eq`: a name makes a path exactly when it fits into a component.
* **`objects_creatable_iff`**: what is published always gets a path, a copy unless its name is too long.
-/

namespace HomeCloud

namespace Storage

/-! ## Paths -/

/-- An absolute path in normal form: its components, and whether a slash follows them. -/
@[ext]
structure AbsolutePath where
  components : List JsString
  slash : Bool
  deriving DecidableEq

/-- One component in normalising: nothing and `.` go, `..` takes one away. -/
def push (components : List JsString) (part : JsString) : List JsString :=
  if part = [] ∨ part = ascii "." then components
  else if part = ascii ".." then components.dropLast
  else components ++ [part]

/-- `path.join(base, name)`. -/
def join (base : AbsolutePath) (name : JsString) : AbsolutePath :=
  let components := (name.splitOn 0x2F).foldl push base.components
  { components, slash := !components.isEmpty && if name.isEmpty then base.slash else name.getLast? == some 0x2F }

/-- `path.resolve(target)`. -/
def resolve (target : AbsolutePath) : AbsolutePath := { target with slash := false }

/-- The string of a path. -/
def AbsolutePath.text (p : AbsolutePath) : JsString :=
  p.components.flatMap (0x2F :: ·) ++ if p.slash || p.components.isEmpty then [0x2F] else []

/-! ## The disk -/

inductive Stat where
  | missing
  | directory
  | file
  /-- A link, another device, or a directory that others may write. -/
  | foreign
  deriving DecidableEq

/-- The storage: its root, the access that is granted, and what is at the paths below the root. -/
structure Disk where
  root : List JsString
  access : (write : Bool) → Bool
  entry : List JsString → Stat
  rooted : root ≠ []
  wellFormed : ∀ c ∈ root, WellFormed c

namespace Disk

variable (disk : Disk)

/-- `fs.lstatSync`: a component of more than 255 bytes is an error of its own. -/
def lstat (components : List JsString) : Option Stat :=
  if components.all (byteLength · ≤ 255) then some (disk.entry components) else none

/-- `fs.mkdirSync`, where nothing is there. -/
def mkdir (components : List JsString) : Disk :=
  if disk.entry components = .missing then
    { disk with entry := fun p => if p = components then .directory else disk.entry p }
  else disk

end Disk

/-! ## Keys -/

def validateObjectKey (key : JsString) : Option JsString :=
  let parts := key.splitOn 0x2F
  let first := parts.headD []
  if ¬WellFormed key ∨ key = [] ∨ 0x5C ∈ key ∨ 0 ∈ key ∨ key.head? = some 0x2F ∨
      (∃ c ∈ key.head?, (0x41 ≤ c ∧ c ≤ 0x5A) ∨ (0x61 ≤ c ∧ c ≤ 0x7A)) ∧ key[1]? = some 0x3A ∨
      (∃ p ∈ parts, p = [] ∨ p = ascii "." ∨ p = ascii "..") ∨
      first = ascii ".tmp" ∨ first = ascii ".homecloud-storage-identity" ∨
      ascii ".hc-probe-" <+: first ∨ ascii ".restore-" <+: first then none
  else some key

namespace Disk

variable (disk : Disk)

/-- The rest of a key below the components that have been checked. -/
def checkFrom (allowMissing allowDirectory : Bool) : (done rest : List JsString) → Option Unit
  | _, [] => some ()
  | done, c :: rest =>
    match disk.lstat (done ++ [c]) with
    | none => none
    | some .missing => if allowMissing then some () else none
    | some .foreign => none
    | some .directory =>
      if rest = [] then if allowDirectory then some () else none
      else checkFrom allowMissing allowDirectory (done ++ [c]) rest
    | some .file => if rest = [] then some () else none

/-- The path of a key whose components are sound. -/
def checkComponents (key : JsString) (allowMissing allowDirectory : Bool) : Option AbsolutePath := do
  let components := key.splitOn 0x2F
  disk.checkFrom allowMissing allowDirectory [] components
  return { components := components.foldl push disk.root, slash := false }

def confined (key : JsString) (allowMissing : Bool) : Option AbsolutePath := do
  let key ← validateObjectKey key
  guard (disk.access false)
  disk.checkComponents key allowMissing false

/-- The key of a path, if it can be one. -/
def keyFromAbsolute (absolute : AbsolutePath) (allowMissing : Bool) : Option JsString := do
  guard (WellFormed absolute.text ∧ absolute = resolve absolute ∧
    disk.root <+: absolute.components ∧ absolute.components ≠ disk.root)
  let key ← validateObjectKey ([0x2F].intercalate (absolute.components.drop disk.root.length))
  let candidate ← disk.confined key allowMissing
  guard (candidate = absolute)
  return key

def ensureWithinStorageRoot (targetPath : AbsolutePath) : Option AbsolutePath := do
  let resolved := resolve targetPath
  guard (disk.root <+: resolved.components)
  guard (resolved = targetPath ∧ resolved.components ≠ disk.root)
  let _ ← disk.keyFromAbsolute resolved true
  return resolved

/-- The path of an object of the user, with the disk on which the directory of the user exists. -/
def generatePath (userId : ℕ) (filename : JsString) : Option (AbsolutePath × Disk) := do
  guard (disk.access true)
  let userDir := join ⟨disk.root, false⟩ (decimal userId)
  let _ ← disk.keyFromAbsolute (join userDir (ascii "probe")) true
  let disk := disk.mkdir (userDir.components.drop disk.root.length)
  let fullPath ← disk.ensureWithinStorageRoot (join userDir filename)
  return (fullPath, disk)

variable (low : LowerCase)

/-- The path that what is published gets. -/
def generateFinalPath (userId : ℕ) (uploadId filename : JsString) : Option (AbsolutePath × Disk) :=
  disk.generatePath userId (finalName low uploadId filename)

/-- The path that a copy and a created file get. -/
def targetPath (userId : ℕ) (name unique : JsString) : Option (AbsolutePath × Disk) := do
  let displayName ← validateDisplayName name
  let safeName := generateSafeFilename low displayName unique
  disk.generatePath userId safeName

end Disk

/-! ## Paths below the root -/

/-- What a component of a key may be. -/
structure Component (c : JsString) : Prop where
  ne_nil : c ≠ []
  ne_dot : c ≠ ascii "."
  ne_dotdot : c ≠ ascii ".."
  slash : 0x2F ∉ c
  backslash : 0x5C ∉ c
  nul : 0 ∉ c

namespace Component

variable {c : JsString} (hc : Component c)

include hc

theorem push_eq (components : List JsString) : push components c = components ++ [c] := by
  unfold push
  rw [if_neg (not_or.mpr ⟨hc.ne_nil, hc.ne_dot⟩), if_neg hc.ne_dotdot]

theorem splitOn_eq : c.splitOn 0x2F = [c] := by
  exact List.splitOn_eq_singleton hc.slash

theorem join_eq (base : AbsolutePath) : join base c = ⟨base.components ++ [c], false⟩ := by
  unfold join
  rw [hc.splitOn_eq, List.foldl_cons, List.foldl_nil, hc.push_eq]
  have hempty : c.isEmpty = false := by
    rw [List.isEmpty_eq_false_iff]
    exact hc.ne_nil
  have hlast : (c.getLast? == some 0x2F) = false := by
    rw [beq_eq_false_iff_ne]
    exact fun h => hc.slash (List.mem_of_getLast? h)
  rw [hempty, hlast]
  simp

end Component

theorem foldl_push {cs : List JsString} (h : ∀ c ∈ cs, Component c) (components : List JsString) :
    cs.foldl push components = components ++ cs := by
  induction cs generalizing components with
  | nil => rw [List.foldl_nil, List.append_nil]
  | cons c cs ih =>
    rw [List.foldl_cons, (h c List.mem_cons_self).push_eq, ih fun d hd => h d (List.mem_cons_of_mem c hd),
      List.append_assoc, List.singleton_append]

/-- The string of a path is well formed when its components are. -/
theorem wellFormed_text {cs : List JsString} :
    WellFormed (cs.flatMap (0x2F :: ·)) ↔ ∀ c ∈ cs, WellFormed c := by
  have hslash : isHighSurrogate 0x2F = false ∧ isLowSurrogate 0x2F = false := ascii_not_surrogate (by decide)
  have hone (s : JsString) : WellFormed (0x2F :: s) ↔ WellFormed s := wellFormed_cons_iff hslash.1 hslash.2
  induction cs with
  | nil => simp [WellFormed, toWellFormed]
  | cons c cs ih =>
    have hrest : WellFormed (c ++ cs.flatMap (0x2F :: ·)) ↔ WellFormed c ∧ WellFormed (cs.flatMap (0x2F :: ·)) := by
      cases cs with
      | nil => simp [WellFormed, toWellFormed]
      | cons d cs => rw [List.flatMap_cons, List.cons_append, wellFormed_append_iff hslash.1 hslash.2, hone]
    rw [List.flatMap_cons, List.cons_append, hone, hrest, List.forall_mem_cons]
    exact and_congr_right fun _ => ih

/-! ## When a name makes a path -/

/-- A disk that serves the user: access is granted, and below the directory of the user, if it exists, there are
only files. -/
structure Disk.Serves (disk : Disk) (userId : ℕ) : Prop where
  access : ∀ write, disk.access write = true
  id : userId < 2 ^ 31
  directory : disk.entry [decimal userId] = .missing ∨ disk.entry [decimal userId] = .directory
  objects : ∀ name, disk.entry [decimal userId, name] = .missing ∨ disk.entry [decimal userId, name] = .file

/-- A digit of a number. -/
theorem mem_decimal {n : ℕ} {c : UInt16} (h : c ∈ decimal n) : 0x30 ≤ c ∧ c ≤ 0x39 := by
  obtain ⟨d, hd, rfl⟩ := List.mem_map.mp h
  have hdigit := Nat.isDigit_of_mem_toDigits (by decide) (by decide) hd
  rw [Char.isDigit, Bool.and_eq_true, decide_eq_true_iff, decide_eq_true_iff] at hdigit
  have h1 := UInt32.le_iff_toNat_le.mp hdigit.1
  have h2 := UInt32.le_iff_toNat_le.mp hdigit.2
  have h0 : '0'.val.toNat = 48 := rfl
  have h9 : '9'.val.toNat = 57 := rfl
  rw [UInt16.le_iff_toNat_le, UInt16.le_iff_toNat_le, UInt32.toNat_toUInt16]
  have h30 : (0x30 : UInt16).toNat = 48 := rfl
  have h39 : (0x39 : UInt16).toNat = 57 := rfl
  rw [Nat.mod_eq_of_lt] <;> omega

theorem component_decimal (n : ℕ) : Component (decimal n) := by
  have hmem {c : UInt16} (hc : c ∈ decimal n) (h : ¬(0x30 ≤ c ∧ c ≤ 0x39)) : False := h (mem_decimal hc)
  refine ⟨fun h => ?_, fun h => ?_, fun h => ?_, fun h => hmem h (by decide), fun h => hmem h (by decide),
    fun h => hmem h (by decide)⟩
  · exact Nat.toDigits_ne_nil (List.map_eq_nil_iff.mp h)
  · exact hmem (h ▸ List.mem_cons_self : (0x2E : UInt16) ∈ decimal n) (by decide)
  · exact hmem (h ▸ List.mem_cons_self : (0x2E : UInt16) ∈ decimal n) (by decide)

theorem ascii_decimal {n : ℕ} {c : UInt16} (h : c ∈ decimal n) : c < 0x80 := by
  have := UInt16.le_iff_toNat_le.mp (mem_decimal h).2
  have h39 : (0x39 : UInt16).toNat = 57 := rfl
  have h80 : (0x80 : UInt16).toNat = 0x80 := rfl
  exact UInt16.lt_iff_toNat_lt.mpr (by omega)

theorem byteLength_decimal {n : ℕ} (h : n < 2 ^ 31) : byteLength (decimal n) ≤ 10 := by
  rw [byteLength_ascii fun c hc => ascii_decimal hc]
  unfold decimal
  rw [List.length_map]
  exact Nat.toDigits_length 10 n 10 (by decide) (by omega)

theorem wellFormed_decimal (n : ℕ) : WellFormed (decimal n) := by
  have h : WellFormed (decimal n ++ []) ↔ WellFormed [] := wellFormed_ascii_append fun c hc => ascii_decimal hc
  rw [List.append_nil] at h
  exact h.mpr rfl

/-- The key of an object: a name in the directory of a user. -/
def objectKey (userId : ℕ) (name : JsString) : JsString := decimal userId ++ 0x2F :: name

theorem intercalate_eq (userId : ℕ) (name : JsString) :
    [0x2F].intercalate [decimal userId, name] = objectKey userId name := by
  unfold objectKey
  simp [List.intercalate]

theorem splitOn_objectKey (userId : ℕ) {name : JsString} (hname : Component name) :
    (objectKey userId name).splitOn 0x2F = [decimal userId, name] := by
  rw [← intercalate_eq]
  refine List.splitOn_intercalate 0x2F (fun l hl => ?_) (by simp)
  rcases List.mem_cons.mp hl with rfl | hl
  · exact (component_decimal userId).slash
  · exact List.mem_singleton.mp hl ▸ hname.slash

/-- **The key of an object is one** when the name is well formed. -/
theorem validateObjectKey_eq (userId : ℕ) {name : JsString} (hname : Component name) :
    validateObjectKey (objectKey userId name) = if WellFormed name then some (objectKey userId name) else none := by
  have hdecimal := component_decimal userId
  obtain ⟨d, ds, hd⟩ := List.exists_cons_of_ne_nil hdecimal.ne_nil
  have hdigit : 0x30 ≤ d ∧ d ≤ 0x39 := mem_decimal (hd ▸ List.mem_cons_self)
  have hhead : (objectKey userId name).head? = some d := by
    unfold objectKey
    rw [hd]
    rfl
  have hwell : WellFormed (objectKey userId name) ↔ WellFormed name := by
    have hslash : isHighSurrogate 0x2F = false ∧ isLowSurrogate 0x2F = false := ascii_not_surrogate (by decide)
    exact (wellFormed_append_iff hslash.1 hslash.2).trans (and_iff_right (wellFormed_decimal userId))
  have hfirst (s : JsString) (c : UInt16) (hc : s.head? = some c) (hne : ¬(0x30 ≤ c ∧ c ≤ 0x39)) :
      ¬s <+: decimal userId := by
    rintro ⟨t, ht⟩
    cases s with
    | nil => cases hc
    | cons e s =>
      cases hc
      exact hne (mem_decimal (ht ▸ List.mem_append_left t List.mem_cons_self))
  unfold validateObjectKey
  simp only [splitOn_objectKey userId hname, List.headD_cons, hhead, hwell]
  by_cases hname' : WellFormed name
  · rw [if_pos hname', if_neg]
    rintro (h | h | h | h | h | ⟨⟨c, hc, h⟩, -⟩ | ⟨p, hp, h⟩ | h | h | h | h)
    · exact h hname'
    · unfold objectKey at h
      simp at h
    · unfold objectKey at h
      rcases List.mem_append.mp h with h | h
      · exact hdecimal.backslash h
      · exact hname.backslash ((List.mem_cons.mp h).resolve_left (by decide))
    · unfold objectKey at h
      rcases List.mem_append.mp h with h | h
      · exact hdecimal.nul h
      · exact hname.nul ((List.mem_cons.mp h).resolve_left (by decide))
    · cases h
      exact absurd hdigit (by decide)
    · cases hc
      grind
    · have hcomponent : Component p := by
        rcases List.mem_cons.mp hp with rfl | hp
        · exact hdecimal
        · exact List.mem_singleton.mp hp ▸ hname
      rcases h with h | h | h
      · exact hcomponent.ne_nil h
      · exact hcomponent.ne_dot h
      · exact hcomponent.ne_dotdot h
    · exact hfirst (ascii ".tmp") 0x2E rfl (by decide) (h ▸ List.prefix_refl _)
    · exact hfirst (ascii ".homecloud-storage-identity") 0x2E rfl (by decide) (h ▸ List.prefix_refl _)
    · exact hfirst _ 0x2E rfl (by decide) h
    · exact hfirst _ 0x2E rfl (by decide) h
  · rw [if_neg hname', if_pos (.inl hname')]

namespace Disk

variable {disk : Disk} {userId : ℕ} {name : JsString}

/-- The path of an object. -/
def objectPath (disk : Disk) (userId : ℕ) (name : JsString) : AbsolutePath := ⟨disk.root ++ [decimal userId, name], false⟩

/-- **What the check of the components says**: only a name that is too long below an existing directory fails. -/
theorem checkComponents_eq (h : disk.Serves userId) (hname : Component name) :
    disk.checkComponents (objectKey userId name) true false =
      if disk.entry [decimal userId] = .missing ∨ byteLength name ≤ 255 then some (disk.objectPath userId name)
      else none := by
  have hpath : [decimal userId, name].foldl push disk.root = disk.root ++ [decimal userId, name] := by
    refine foldl_push (fun c hc => ?_) disk.root
    rcases List.mem_cons.mp hc with rfl | hc
    · exact component_decimal userId
    · exact List.mem_singleton.mp hc ▸ hname
  have huser : disk.lstat [decimal userId] = some (disk.entry [decimal userId]) := by
    unfold lstat
    rw [if_pos]
    simpa using (byteLength_decimal h.id).trans (by decide)
  have hobject : disk.lstat [decimal userId, name] =
      if byteLength name ≤ 255 then some (disk.entry [decimal userId, name]) else none := by
    unfold lstat
    have hdecimal : byteLength (decimal userId) ≤ 255 := (byteLength_decimal h.id).trans (by decide)
    simp [hdecimal]
  unfold checkComponents objectPath
  rw [splitOn_objectKey userId hname]
  simp only [hpath]
  rcases h.directory with hdir | hdir
  · rw [if_pos (.inl hdir), checkFrom, List.nil_append, huser, hdir]
    rfl
  · rw [checkFrom, List.nil_append, huser, hdir]
    simp only [checkFrom, List.cons_append, List.nil_append, hobject, List.cons_ne_nil, if_false, reduceCtorEq, false_or]
    by_cases hlength : byteLength name ≤ 255
    · rw [if_pos hlength, if_pos hlength]
      rcases h.objects name with hentry | hentry <;>
      · rw [hentry]
        rfl
    · rw [if_neg hlength, if_neg hlength]
      rfl

theorem keyFromAbsolute_eq (h : disk.Serves userId) (hname : Component name) :
    disk.keyFromAbsolute (disk.objectPath userId name) true =
      if WellFormed name ∧ (disk.entry [decimal userId] = .missing ∨ byteLength name ≤ 255) then
        some (objectKey userId name)
      else none := by
  have htext : WellFormed (disk.objectPath userId name).text ↔ WellFormed name := by
    have hempty : (disk.root ++ [decimal userId, name]).isEmpty = false := by simp
    unfold AbsolutePath.text objectPath
    rw [Bool.false_or, hempty, if_neg Bool.false_ne_true, List.append_nil, wellFormed_text]
    constructor
    · intro hall
      exact hall name (by simp)
    · intro hn c hc
      rcases List.mem_append.mp hc with hc | hc
      · exact disk.wellFormed c hc
      · rcases List.mem_cons.mp hc with rfl | hc
        · exact wellFormed_decimal userId
        · exact List.mem_singleton.mp hc ▸ hn
  have hkey : [0x2F].intercalate ((disk.objectPath userId name).components.drop disk.root.length) =
      objectKey userId name := by
    unfold objectPath
    rw [List.drop_left', intercalate_eq]
    rfl
  have hbelow : disk.root <+: (disk.objectPath userId name).components ∧
      (disk.objectPath userId name).components ≠ disk.root := by
    unfold objectPath
    exact ⟨List.prefix_append _ _, by simp⟩
  unfold keyFromAbsolute confined
  rw [hkey, validateObjectKey_eq userId hname]
  by_cases hn : WellFormed name
  · have hguard : WellFormed (disk.objectPath userId name).text ∧
        disk.objectPath userId name = resolve (disk.objectPath userId name) ∧
        disk.root <+: (disk.objectPath userId name).components ∧
        (disk.objectPath userId name).components ≠ disk.root := ⟨htext.mpr hn, rfl, hbelow⟩
    simp only [guard, if_pos hguard, hn, pure_bind, Option.bind_eq_bind, Option.bind_some,
      validateObjectKey_eq userId hname, h.access, if_true, checkComponents_eq h hname, true_and]
    by_cases hfits : disk.entry [decimal userId] = .missing ∨ byteLength name ≤ 255
    · simp only [if_pos hfits, Option.bind_some, if_true]
      rfl
    · simp only [if_neg hfits, Option.bind_none]
  · have hnone : ¬(WellFormed name ∧ (disk.entry [decimal userId] = .missing ∨ byteLength name ≤ 255)) :=
      fun hand => hn hand.1
    rw [if_neg hnone, if_neg hn, guard, if_neg fun hand => hn (htext.mp hand.1)]
    rfl

/-- Making the directory of the user. -/
theorem Serves.mkdir (h : disk.Serves userId) :
    (disk.mkdir [decimal userId]).Serves userId ∧ (disk.mkdir [decimal userId]).root = disk.root ∧
      (disk.mkdir [decimal userId]).entry [decimal userId] = .directory := by
  unfold Disk.mkdir
  split
  · refine ⟨⟨h.access, h.id, .inr (if_pos rfl), fun name => ?_⟩, rfl, if_pos rfl⟩
    have hne : [decimal userId, name] ≠ [decimal userId] := by simp
    simpa only [if_neg hne] using h.objects name
  · next hdir => exact ⟨h, rfl, h.directory.resolve_left hdir⟩

/-- **When a name makes a path**: exactly when it is well formed and fits into a component. -/
theorem generatePath_eq (h : disk.Serves userId) (hname : Component name) :
    disk.generatePath userId name =
      if WellFormed name ∧ byteLength name ≤ 255 then
        some (disk.objectPath userId name, disk.mkdir [decimal userId])
      else none := by
  obtain ⟨hserves, hroot, hdir⟩ := h.mkdir
  have hprobe : Component (ascii "probe") := ⟨by decide, by decide, by decide, by decide, by decide, by decide⟩
  have hpath (c : JsString) : (⟨disk.root ++ [decimal userId] ++ [c], false⟩ : AbsolutePath) = disk.objectPath userId c := by
    unfold objectPath
    rw [List.append_assoc]
    rfl
  have hdrop : (disk.root ++ [decimal userId]).drop disk.root.length = [decimal userId] := List.drop_left' rfl
  have hkey : disk.keyFromAbsolute (disk.objectPath userId (ascii "probe")) true =
      some (objectKey userId (ascii "probe")) := by
    rw [keyFromAbsolute_eq h hprobe, if_pos ⟨by decide, .inr (by decide)⟩]
  have hsame : (disk.mkdir [decimal userId]).objectPath userId name = disk.objectPath userId name := by
    unfold objectPath
    rw [hroot]
  have hkey' := keyFromAbsolute_eq hserves hname
  rw [hsame, hdir] at hkey'
  simp only [reduceCtorEq, false_or] at hkey'
  have hwithin : (disk.mkdir [decimal userId]).ensureWithinStorageRoot (disk.objectPath userId name) =
      if WellFormed name ∧ byteLength name ≤ 255 then some (disk.objectPath userId name) else none := by
    have hbelow : disk.root <+: (disk.objectPath userId name).components ∧
        (disk.objectPath userId name).components ≠ disk.root := by
      unfold objectPath
      exact ⟨List.prefix_append _ _, by simp⟩
    have hresolve : resolve (disk.objectPath userId name) = disk.objectPath userId name := rfl
    unfold ensureWithinStorageRoot
    simp only [hresolve, hroot, guard, if_pos hbelow.1, true_and, if_pos hbelow.2, pure_bind, hkey']
    split <;> rfl
  unfold generatePath
  simp only [guard, h.access, if_true, pure_bind, (component_decimal userId).join_eq, hprobe.join_eq, hname.join_eq,
    hpath, hkey, hdrop, hwithin, Option.bind_eq_bind, Option.bind_some]
  split <;> rfl

/-- A path was made for an object: one component of at most 255 bytes below the directory of the user, and the
path is the path of a key. -/
def Creates (disk : Disk) (userId : ℕ) (result : Option (AbsolutePath × Disk)) : Prop :=
  ∃ name disk', result = some (⟨disk.root ++ [decimal userId, name], false⟩, disk') ∧ Component name ∧
    byteLength name ≤ 255 ∧
    (disk'.keyFromAbsolute ⟨disk.root ++ [decimal userId, name], false⟩ true).isSome = true

theorem creates_generatePath (h : disk.Serves userId) (hname : Component name) :
    disk.Creates userId (disk.generatePath userId name) ↔ WellFormed name ∧ byteLength name ≤ 255 := by
  obtain ⟨hserves, hroot, hdir⟩ := h.mkdir
  rw [generatePath_eq h hname]
  constructor
  · rintro ⟨name', disk', hresult, -⟩
    by_contra hnot
    rw [if_neg hnot] at hresult
    cases hresult
  · intro hfits
    rw [if_pos hfits]
    refine ⟨name, disk.mkdir [decimal userId], rfl, hname, hfits.2, ?_⟩
    have hkey := keyFromAbsolute_eq hserves hname
    unfold objectPath at hkey
    rw [hroot, if_pos ⟨hfits.1, .inr hfits.2⟩] at hkey
    rw [hkey]
    rfl

/-- Different names make different paths. -/
theorem name_eq_of_generatePath (h : disk.Serves userId) {name name' : JsString} (hname : Component name)
    (hname' : Component name') {p : AbsolutePath} {d d' : Disk} (hp : disk.generatePath userId name = some (p, d))
    (hp' : disk.generatePath userId name' = some (p, d')) : name = name' := by
  rw [generatePath_eq h hname] at hp
  rw [generatePath_eq h hname'] at hp'
  split at hp
  · split at hp'
    · have hpath := (Prod.mk.inj (Option.some.inj hp)).1.trans (Prod.mk.inj (Option.some.inj hp')).1.symm
      have hlist := List.append_cancel_left (congrArg AbsolutePath.components hpath)
      exact (List.cons.inj (List.cons.inj hlist).2).1
    · cases hp'
  · cases hp

end Disk

/-! ## The names that are given -/

variable (low : LowerCase) {n : ℕ}

/-- What a name on the disk has comes from the name or is harmless. -/
theorem mem_diskName {name : JsString} {u : Suffix n} {c : UInt16} (hc : c ∈ diskName low name u.val) (hlt : c < 0x61) :
    isSafe c = true ∨ c ∈ name := by
  unfold diskName at hc
  rcases List.mem_append.mp hc with hc | hc
  · exact .inl (mem_sanitize hc)
  · rcases List.mem_cons.mp hc with rfl | hc
    · exact .inl rfl
    · rcases List.mem_append.mp hc with hc | hc
      · exact .inl (u.isSafe_of_mem hc).1
      · exact .inr (mem_of_mem_extname (low.mem_of_mem_lower hc hlt))

/-- Units that no admitted name has. -/
structure Plain (name : JsString) : Prop where
  slash : 0x2F ∉ name
  backslash : 0x5C ∉ name
  nul : 0 ∉ name

theorem component_diskName {name : JsString} (h : Plain name) (u : Suffix n) : Component (diskName low name u.val) := by
  have hunder : (0x5F : UInt16) ∈ diskName low name u.val := List.mem_append_right _ List.mem_cons_self
  have hfree (c : UInt16) (hlt : c < 0x61) (hsafe : ¬isSafe c = true) (hc : c ∉ name) : c ∉ diskName low name u.val :=
    fun hmem => (mem_diskName low hmem hlt).elim hsafe hc
  refine ⟨List.ne_nil_of_mem hunder, fun heq => ?_, fun heq => ?_, hfree _ (by decide) (by decide) h.slash,
    hfree _ (by decide) (by decide) h.backslash, hfree _ (by decide) (by decide) h.nul⟩
  · exact absurd (heq ▸ hunder) (by decide)
  · exact absurd (heq ▸ hunder) (by decide)

theorem upload_safe : ∀ c ∈ ascii ".upload", isSafe c = true :=
  List.all_eq_true.mp (by decide)

theorem component_finalName {name : JsString} (h : Plain name) (u : Suffix n) : Component (finalName low u.val name) := by
  unfold finalName
  simp only
  split
  · have hmem {c : UInt16} (hc : c ∈ u.val ++ ascii ".upload") : isSafe c = true := by
      rcases List.mem_append.mp hc with hc | hc
      · exact (u.isSafe_of_mem hc).1
      · exact upload_safe c hc
    have hd : (0x64 : UInt16) ∈ u.val ++ ascii ".upload" := List.mem_append_right _ (by decide)
    refine ⟨List.ne_nil_of_mem hd, fun heq => ?_, fun heq => ?_, fun hc => ?_, fun hc => ?_, fun hc => ?_⟩
    · exact absurd (heq ▸ hd) (by decide)
    · exact absurd (heq ▸ hd) (by decide)
    · exact (isSafe_ascii (hmem hc)).2.1 rfl
    · exact (isSafe_ascii (hmem hc)).2.2.1 rfl
    · exact (isSafe_ascii (hmem hc)).2.2.2 rfl
  · exact component_diskName low h u

theorem wellFormed_diskName (name : JsString) (u : Suffix n) :
    WellFormed (diskName low name u.val) ↔ WellFormed (extname name) := by
  unfold diskName
  rw [wellFormed_ascii_append fun c hc => (isSafe_ascii (mem_sanitize hc)).1, ← List.singleton_append,
    wellFormed_ascii_append (List.forall_mem_singleton.mpr (by decide)), wellFormed_ascii_append fun c hc => u.ascii hc, low.wellFormed]

/-- An extension of a well-formed name is well formed. -/
theorem wellFormed_extname {name : JsString} (h : WellFormed name) : WellFormed (extname name) := by
  have hdot : isHighSurrogate 0x2E = false ∧ isLowSurrogate 0x2E = false := ascii_not_surrogate (by decide)
  rcases extname_cases name with ⟨hext, -, -⟩ | ⟨base, ext, hsplit, hext, -, -⟩
  · rw [hext]
    rfl
  · rw [hext]
    rw [hsplit, wellFormed_append_iff hdot.1 hdot.2] at h
    exact (wellFormed_cons_iff hdot.1 hdot.2).mpr h.2

theorem wellFormed_finalName {name : JsString} (h : WellFormed name) (u : Suffix n) :
    WellFormed (finalName low u.val name) := by
  unfold finalName
  simp only
  split
  · exact (wellFormed_ascii_append fun c hc => u.ascii hc).mpr (by decide)
  · exact (wellFormed_diskName low name u).mpr (wellFormed_extname h)

/-- Storing a name adds replacement characters at most. -/
theorem mem_toWellFormed {s : JsString} {c : UInt16} (h : c ∈ toWellFormed s) : c ∈ s ∨ c = 0xFFFD := by
  fun_induction toWellFormed s <;> grind

theorem plain_of_validateFilename {filename : JsString} (h : validateFilename filename = true) :
    Plain (DbText.ofJs filename).val := by
  simp only [validateFilename, Bool.and_eq_true, Bool.not_eq_true', List.any_eq_false] at h
  obtain ⟨⟨-, hslash⟩, hcontrol⟩ := h
  have hfree (c : UInt16) (hc : c ≠ 0xFFFD) (hmem : c ∉ filename) : c ∉ (DbText.ofJs filename).val := fun h' =>
    (mem_toWellFormed h').elim hmem hc
  refine ⟨hfree _ (by decide) fun hc => ?_, hfree _ (by decide) fun hc => ?_, hfree _ (by decide) fun hc => ?_⟩
  · exact hslash _ hc (by decide)
  · exact hslash _ hc (by decide)
  · exact hcontrol _ hc (by decide)

theorem plain_of_validateDisplayName {name displayName : JsString} (h : validateDisplayName name = some displayName) :
    Plain displayName := by
  simp only [validateDisplayName] at h
  split at h
  · cases h
  · next hvalid =>
    cases h
    simp only [Bool.or_eq_true, not_or, Bool.not_eq_true, List.any_eq_false] at hvalid
    refine ⟨fun hc => ?_, fun hc => ?_, fun hc => ?_⟩
    · exact absurd (hvalid.1.1.1.2 _ hc).2 (by decide)
    · exact absurd (hvalid.1.1.1.2 _ hc).1 (by decide)
    · exact absurd (hvalid.1.1.2 _ hc).1 (by decide)

/-! ## What gets a path -/

/-- A name that `generateSafeFilename` can take: what becomes of it fits into a component. -/
def Fits (name : JsString) : Prop :=
  ∃ displayName ∈ validateDisplayName name, WellFormed (extname displayName) ∧
    (basename displayName (extname displayName)).length + 17 + byteLength (low.lower (extname displayName)) ≤ 255

namespace Disk

variable {disk : Disk} {userId : ℕ}

theorem creates_generateFinalPath (h : disk.Serves userId) (hn : n ≤ 248) {filename : JsString}
    (hvalid : validateFilename filename = true) (u : Suffix n) :
    disk.Creates userId (disk.generateFinalPath low userId u.val (DbText.ofJs filename).val) := by
  have hplain := plain_of_validateFilename hvalid
  refine (creates_generatePath h (component_finalName low hplain u)).mpr ⟨?_, byteLength_finalName low hn _ u⟩
  exact wellFormed_finalName low (DbText.ofJs filename).property u

theorem creates_targetPath (h : disk.Serves userId) (name : JsString) (u : Suffix 16) :
    disk.Creates userId (disk.targetPath low userId name u.val) ↔ Fits low name := by
  unfold targetPath Fits generateSafeFilename
  rcases hdisplay : validateDisplayName name with _ | displayName
  · constructor
    · rintro ⟨_, _, hresult, -⟩
      cases hresult
    · rintro ⟨_, hmem, -⟩
      cases hmem
  · have hcomponent := component_diskName low (plain_of_validateDisplayName hdisplay) u
    rw [Option.bind_eq_bind, Option.bind_some, creates_generatePath h hcomponent, wellFormed_diskName,
      byteLength_diskName]
    simp only [Option.mem_def, Option.some.injEq, exists_eq_left']

end Disk

/-- **What gets a path**: every admitted name when it is published, and a created file or a copy exactly when
what becomes of its name fits into a component. Different suffixes make different paths, whatever the names. -/
theorem objects_creatable_iff {disk : Disk} {userId : ℕ} (h : disk.Serves userId) (h0 : 0 < n) (hn : n ≤ 248) :
    ((∀ filename, validateFilename filename = true → ∀ u : Suffix n,
        disk.Creates userId (disk.generateFinalPath low userId u.val (DbText.ofJs filename).val)) ∧
      ∀ filename filename', validateFilename filename = true → validateFilename filename' = true →
        ∀ (u u' : Suffix n) (p : AbsolutePath) (d d' : Disk),
          disk.generateFinalPath low userId u.val (DbText.ofJs filename).val = some (p, d) →
          disk.generateFinalPath low userId u'.val (DbText.ofJs filename').val = some (p, d') → u.val = u'.val) ∧
      (∀ name, ∀ u : Suffix 16, disk.Creates userId (disk.targetPath low userId name u.val) ↔ Fits low name) ∧
      ∀ name name', ∀ (u u' : Suffix 16) (p : AbsolutePath) (d d' : Disk),
        disk.targetPath low userId name u.val = some (p, d) →
        disk.targetPath low userId name' u'.val = some (p, d') → u.val = u'.val := by
  refine ⟨⟨fun filename hvalid u => Disk.creates_generateFinalPath low h hn hvalid u, ?_⟩,
    fun name u => Disk.creates_targetPath low h name u, ?_⟩
  · intro filename filename' hvalid hvalid' u u' p d d' hp hp'
    have hname := Disk.name_eq_of_generatePath h (component_finalName low (plain_of_validateFilename hvalid) u)
      (component_finalName low (plain_of_validateFilename hvalid') u') hp hp'
    exact suffix_eq_of_finalName_eq h0 hname
  · intro name name' u u' p d d' hp hp'
    obtain ⟨displayName, hdisplay, hp⟩ := Option.bind_eq_some_iff.mp hp
    obtain ⟨displayName', hdisplay', hp'⟩ := Option.bind_eq_some_iff.mp hp'
    have hname := Disk.name_eq_of_generatePath h (component_diskName low (plain_of_validateDisplayName hdisplay) u)
      (component_diskName low (plain_of_validateDisplayName hdisplay') u') hp hp'
    exact suffix_eq_of_diskName_eq (by decide) hname

/-- A storage without objects. -/
def emptyDisk : Disk where
  root := [ascii "srv"]
  access _ := true
  entry _ := .missing
  rooted := by decide
  wellFormed := by decide

theorem emptyDisk_serves : emptyDisk.Serves 1 := ⟨fun _ => rfl, by decide, .inl rfl, fun _ => .inl rfl⟩

/-- `0123456789abcdef`. -/
def someSuffix : Suffix 16 :=
  ⟨ascii "0123456789abcdef", rfl, List.all_iff_forall_prop.mp (by decide)⟩

theorem objects_creatable_iff_of_report :
    emptyDisk.Creates 1 (emptyDisk.targetPath asciiLowerCase 1 (ascii "Report.PDF") someSuffix.val) :=
  ((objects_creatable_iff asciiLowerCase emptyDisk_serves (n := 16) (by decide) (by decide)).2.1
    (ascii "Report.PDF") someSuffix).mpr ⟨ascii "Report.PDF", by decide, by decide, by decide⟩

/-- **A name of 255 units is admitted**, but no copy of such a file can be made. -/
theorem no_copy_of_longest_name :
    ¬∀ name, validateFilename name = true → (validateDisplayName name).isSome = true → ∀ u : Suffix 16,
      emptyDisk.Creates 1 (emptyDisk.targetPath asciiLowerCase 1 name u.val) := by
  intro hall
  have hdisplay : validateDisplayName (List.replicate 255 0x61) = some (List.replicate 255 0x61) := by
    decide +kernel
  have hcreates := hall (List.replicate 255 0x61) (by decide +kernel) (by rw [hdisplay]; rfl) someSuffix
  rw [Disk.creates_targetPath asciiLowerCase emptyDisk_serves] at hcreates
  obtain ⟨displayName, hmem, -, hfits⟩ := hcreates
  cases Option.some.inj (hdisplay.symm.trans hmem)
  revert hfits
  decide +kernel

end Storage

end HomeCloud
