import HomeCloud.Storage.ObjectKeys

/-!
# The placement of an object

Paths as they are written, the placements that are made from them, and the guard of the database.

* `partsOf`, `resolveText`, `relative`: the functions on path strings.
* `Registry`: a root that is a valid one, and what is below it.
* `keyFromAbsolute`, `placementForPath`, `resolve`: from a path to a placement, and back.
* `guardLegacyFilePlacement`: which rows the database takes.
* `Key`, `keyFromAbsolute_eq_some`: the paths that have a key.
* **`placement_round_trip`**: a placement gives its path back, stays below the root, and is taken by the database.
-/

namespace HomeCloud

namespace Storage

/-! ## Paths as strings -/

/-- The components of an absolute path, in normal form. -/
def partsOf (path : JsString) : List JsString := (path.splitOn 0x2F).foldl push []

/-- `path.isAbsolute`. -/
def isAbsolute (path : JsString) : Bool := path.head? = some 0x2F

/-- `path.resolve`, of an absolute path. -/
def resolveText (path : JsString) : JsString := (⟨partsOf path, false⟩ : AbsolutePath).text

/-- `path.relative`, from an absolute path to another. -/
def relative (source target : JsString) : JsString :=
  let shared := (((partsOf source).zip (partsOf target)).takeWhile fun c => c.1 = c.2).length
  [0x2F].intercalate (List.replicate ((partsOf source).length - shared) (ascii "..") ++ (partsOf target).drop shared)

def validateRoot (root : JsString) : Bool :=
  isAbsolute root && root = resolveText root && root ≠ [0x2F] && 0x5C ∉ root && 0 ∉ root && WellFormed root

/-! ## Placements -/

/-- A valid root, the access that is granted, and what is at the paths below the root. -/
structure Registry where
  root : JsString
  valid : validateRoot root = true
  access : (write : Bool) → Bool
  entry : List JsString → Stat

structure FilePlacement where
  storageLocationId : Option JsString
  relativeObjectKey : Option JsString
  storagePath : Option JsString
  deriving DecidableEq

def LEGACY_STORAGE_ID : JsString := ascii "f2f5c4b0-8d57-4c49-9f8c-0d095b344601"

theorem normal_of_validateRoot {root : JsString} (h : validateRoot root = true) :
    root = resolveText root ∧ partsOf root ≠ [] ∧ WellFormed root ∧ 0x5C ∉ root ∧ 0 ∉ root := by
  unfold validateRoot at h
  simp only [Bool.and_eq_true, decide_eq_true_eq, ne_eq] at h
  obtain ⟨⟨⟨⟨⟨-, hnormal⟩, hroot⟩, hbackslash⟩, hnul⟩, hwell⟩ := h
  refine ⟨hnormal, fun hnil => hroot ?_, hwell, hbackslash, hnul⟩
  rw [hnormal]
  unfold resolveText
  rw [hnil]
  rfl

namespace Registry

variable (r : Registry)

theorem root_eq : r.root = (partsOf r.root).flatMap (0x2F :: ·) := by
  obtain ⟨hnormal, hne, -⟩ := normal_of_validateRoot r.valid
  have hempty : (partsOf r.root).isEmpty = false := by simpa using hne
  conv_lhs => rw [hnormal]
  unfold resolveText AbsolutePath.text
  rw [Bool.false_or, hempty, if_neg Bool.false_ne_true, List.append_nil]

/-- The root as a directory of the disk. -/
def disk : Disk where
  root := partsOf r.root
  access := r.access
  entry := r.entry
  rooted := (normal_of_validateRoot r.valid).2.1
  wellFormed := wellFormed_text.mp (r.root_eq ▸ (normal_of_validateRoot r.valid).2.2.1)

def confined (key : JsString) (allowMissing : Bool) : Option JsString :=
  (r.disk.confined key allowMissing).map (·.text)

def keyFromAbsolute (absolute : JsString) (allowMissing : Bool) : Option JsString := do
  guard (WellFormed absolute ∧ isAbsolute absolute ∧ absolute = resolveText absolute ∧ r.root ++ [0x2F] <+: absolute)
  let key ← validateObjectKey (relative r.root absolute)
  let candidate ← r.confined key allowMissing
  guard (candidate = absolute)
  return key

def placementForPath (absolute : JsString) (allowMissing : Bool) : Option FilePlacement := do
  let relativeObjectKey ← r.keyFromAbsolute absolute allowMissing
  return ⟨some LEGACY_STORAGE_ID, some relativeObjectKey, some absolute⟩

def resolve (file : FilePlacement) (allowMissing : Bool) : Option JsString := do
  guard (file.storageLocationId = some LEGACY_STORAGE_ID)
  let key ← file.relativeObjectKey
  guard (key ≠ [])
  let absolute ← r.confined key allowMissing
  guard (file.storagePath = some absolute)
  return absolute

end Registry

/-! ## The guard of the database -/

/-- `^[A-Za-z]:`. -/
def drive (key : JsString) : Bool :=
  key.head?.any (fun c => (0x41 ≤ c && c ≤ 0x5A) || (0x61 ≤ c && c ≤ 0x7A)) && key[1]? = some 0x3A

/-- `(^|/)[.]{1,2}(/|$)`, at some place of the key. -/
def dotted (key : JsString) : Bool :=
  (List.range (key.length + 1)).any fun i =>
    (i = 0 || key[i - 1]? = some 0x2F) &&
      [1, 2].any fun n => (key.drop i).take n = List.replicate n 0x2E && (key.length = i + n || key[i + n]? = some 0x2F)

/-- The conditions on a key under which a row is refused. -/
def refusedKey (key : JsString) : Bool :=
  key = [] || key.head? = some 0x2F || drive key || 0x5C ∈ key || dotted key || [0x2F, 0x2F] <:+: key ||
    key.getLast? = some 0x2F || (key.splitOn 0x2F).headD [] = ascii ".tmp" || ascii ".restore-" <+: (key.splitOn 0x2F).headD []

/-- Whether a row passes; a comparison with NULL refuses nothing, `IS DISTINCT FROM` apart. -/
def guardLegacyFilePlacement (root : JsString) (isFolder : Bool) (file : FilePlacement) : Bool :=
  isFolder || !(file.storageLocationId.any (· ≠ LEGACY_STORAGE_ID) || file.relativeObjectKey.any refusedKey ||
    file.storagePath ≠ file.relativeObjectKey.map (root ++ 0x2F :: ·))

/-! ## Keys -/

/-- **What an object key is.** -/
structure Key (key : JsString) : Prop where
  wellFormed : WellFormed key
  parts : ∀ p ∈ key.splitOn 0x2F, Component p
  drive : drive key = false
  unreserved : (key.splitOn 0x2F).headD [] ≠ ascii ".tmp" ∧ (key.splitOn 0x2F).headD [] ≠ ascii ".homecloud-storage-identity" ∧
    ¬ascii ".hc-probe-" <+: (key.splitOn 0x2F).headD [] ∧ ¬ascii ".restore-" <+: (key.splitOn 0x2F).headD []

/-- What stands between slashes, or at an end, is a part. -/
theorem mem_splitOn {pre m post : JsString} (hpre : pre = [] ∨ ∃ s, pre = s ++ [0x2F]) (hm : 0x2F ∉ m)
    (hpost : post = [] ∨ ∃ s, post = 0x2F :: s) : m ∈ (pre ++ m ++ post).splitOn 0x2F := by
  have hrest : m ∈ (m ++ post).splitOn 0x2F := by
    rcases hpost with rfl | ⟨s, rfl⟩
    · rw [List.append_nil, List.splitOn_eq_singleton hm]
      exact List.mem_singleton_self m
    · rw [List.splitOn_append_cons_self_of_not_mem hm]
      exact List.mem_cons_self
  rcases hpre with rfl | ⟨s, rfl⟩
  · exact hrest
  · rw [List.append_assoc, List.append_assoc, List.singleton_append, List.splitOn_append_cons_self]
    exact List.mem_append_right _ hrest

theorem flatMap_slash {cs : List JsString} (hne : cs ≠ []) : cs.flatMap (0x2F :: ·) = 0x2F :: [0x2F].intercalate cs := by
  induction cs with
  | nil => exact absurd rfl hne
  | cons c cs ih =>
    cases cs with
    | nil => simp
    | cons d cs =>
      rw [List.flatMap_cons, ih (List.cons_ne_nil d cs), List.intercalate_cons_of_ne_nil (List.cons_ne_nil d cs)]
      simp

theorem flatMap_splitOn (key : JsString) : (key.splitOn 0x2F).flatMap (0x2F :: ·) = 0x2F :: key := by
  rw [flatMap_slash (List.splitOn_ne_nil 0x2F key), List.intercalate_splitOn]

/-- A unit of a key is one of its parts. -/
theorem exists_part {key : JsString} {c : UInt16} (hc : c ∈ key) (hslash : c ≠ 0x2F) : ∃ p ∈ key.splitOn 0x2F, c ∈ p := by
  have hmem : c ∈ (key.splitOn 0x2F).flatMap (0x2F :: ·) := flatMap_splitOn key ▸ List.mem_cons_of_mem _ hc
  obtain ⟨p, hp, hcp⟩ := List.mem_flatMap.mp hmem
  exact ⟨p, hp, (List.mem_cons.mp hcp).resolve_left hslash⟩

/-- **The check of a key**. -/
theorem validateObjectKey_eq_some {key k : JsString} : validateObjectKey key = some k ↔ Key key ∧ k = key := by
  have hdrive : drive key = true ↔
      (∃ c ∈ key.head?, (0x41 ≤ c ∧ c ≤ 0x5A) ∨ (0x61 ≤ c ∧ c ≤ 0x7A)) ∧ key[1]? = some 0x3A := by
    unfold drive
    simp [Option.any_eq_true]
  unfold validateObjectKey
  dsimp only
  constructor
  · intro h
    split_ifs at h with hbad
    push Not at hbad
    obtain ⟨hwell, -, hbackslash, hnul, -, hletter, hparts, htmp, hmarker, hprobe, hrestore⟩ := hbad
    refine ⟨⟨hwell, fun p hp => ?_, Bool.eq_false_iff.mpr fun h => ?_, htmp, hmarker, hprobe, hrestore⟩,
      (Option.some.inj h).symm⟩
    · obtain ⟨hempty, hdot, hdots⟩ := hparts p hp
      exact ⟨hempty, hdot, hdots, not_mem_of_mem_splitOn hp, fun hc => hbackslash (mem_of_mem_splitOn hp hc).1,
        fun hc => hnul (mem_of_mem_splitOn hp hc).1⟩
    · obtain ⟨⟨c, hc, hrange⟩, hcolon⟩ := hdrive.mp h
      exact hletter ⟨c, hc, hrange⟩ hcolon
  · rintro ⟨h, rfl⟩
    have hempty : ([] : JsString) ∉ k.splitOn 0x2F := fun hmem => (h.parts [] hmem).ne_nil rfl
    refine if_neg ?_
    rintro (hbad | rfl | hbad | hbad | hbad | hbad | ⟨p, hp, hbad⟩ | hbad | hbad | hbad | hbad)
    · exact hbad h.wellFormed
    · exact hempty (List.mem_singleton_self _)
    · obtain ⟨p, hp, hc⟩ := exists_part hbad (by decide)
      exact (h.parts p hp).backslash hc
    · obtain ⟨p, hp, hc⟩ := exists_part hbad (by decide)
      exact (h.parts p hp).nul hc
    · obtain ⟨s, rfl⟩ := List.head?_eq_some_iff.mp hbad
      exact hempty (mem_splitOn (.inl rfl) List.not_mem_nil (.inr ⟨s, rfl⟩))
    · rw [← hdrive, h.drive] at hbad
      cases hbad
    · rcases hbad with hbad | hbad | hbad
      · exact (h.parts p hp).ne_nil hbad
      · exact (h.parts p hp).ne_dot hbad
      · exact (h.parts p hp).ne_dotdot hbad
    · exact h.unreserved.1 hbad
    · exact h.unreserved.2.1 hbad
    · exact h.unreserved.2.2.1 hbad
    · exact h.unreserved.2.2.2 hbad

/-! ## The paths that have a key -/

theorem partsOf_append {root key : JsString} (h : ∀ p ∈ key.splitOn 0x2F, Component p) :
    partsOf (root ++ 0x2F :: key) = partsOf root ++ key.splitOn 0x2F := by
  unfold partsOf
  rw [List.splitOn_append_cons_self, List.foldl_append, foldl_push h]

/-- A path below another is the other way round from it. -/
theorem relative_append {root key : JsString} (h : ∀ p ∈ key.splitOn 0x2F, Component p) :
    relative root (root ++ 0x2F :: key) = key := by
  have hshared (cs ds : List JsString) : ((cs.zip (cs ++ ds)).takeWhile fun c => c.1 = c.2).length = cs.length := by
    induction cs with
    | nil => rfl
    | cons c cs ih =>
      have hsame : decide ((c, c).1 = (c, c).2) = true := decide_eq_true rfl
      rw [List.cons_append, List.zip_cons_cons, List.takeWhile_cons, hsame, if_pos rfl, List.length_cons, ih, List.length_cons]
  unfold relative
  dsimp only
  rw [partsOf_append h, hshared, Nat.sub_self, List.replicate_zero, List.nil_append, List.drop_left' rfl,
    List.intercalate_splitOn]

namespace Registry

variable (r : Registry) {key absolute : JsString} {allowMissing : Bool}

/-- The path of a key. -/
theorem text_eq (key : JsString) :
    (⟨partsOf r.root ++ key.splitOn 0x2F, false⟩ : AbsolutePath).text = r.root ++ 0x2F :: key := by
  have hempty : (partsOf r.root ++ key.splitOn 0x2F).isEmpty = false := by
    simp [(normal_of_validateRoot r.valid).2.1]
  unfold AbsolutePath.text
  dsimp only
  rw [Bool.false_or, hempty, if_neg Bool.false_ne_true, List.append_nil, List.flatMap_append, ← r.root_eq, flatMap_splitOn]

variable {r}

theorem confined_eq_some : r.confined key allowMissing = some absolute ↔
    Key key ∧ absolute = r.root ++ 0x2F :: key ∧ r.access false = true ∧
      r.disk.checkFrom allowMissing false [] (key.splitOn 0x2F) = some () := by
  have hpath (h : Key key) : (⟨(key.splitOn 0x2F).foldl push r.disk.root, false⟩ : AbsolutePath).text = r.root ++ 0x2F :: key := by
    rw [foldl_push h.parts]
    exact r.text_eq key
  have haccess : r.disk.access false = true ↔ r.access false = true := Iff.rfl
  unfold confined Disk.confined Disk.checkComponents
  simp only [Option.map_eq_some_iff, Option.bind_eq_bind, Option.bind_eq_some_iff, Option.guard_eq_some', Option.pure_def,
    Option.some.injEq, validateObjectKey_eq_some, haccess]
  constructor
  · rintro ⟨_, ⟨k, ⟨hkey, rfl⟩, _, hread, _, hcheck, rfl⟩, rfl⟩
    exact ⟨hkey, hpath hkey, hread, hcheck⟩
  · rintro ⟨hkey, rfl, hread, hcheck⟩
    exact ⟨_, ⟨key, ⟨hkey, rfl⟩, (), hread, (), hcheck, rfl⟩, hpath hkey⟩

/-- **The paths that have a key**: those of the keys whose components are sound. -/
theorem keyFromAbsolute_eq_some : r.keyFromAbsolute absolute allowMissing = some key ↔
    r.confined key allowMissing = some absolute := by
  have hnormal := normal_of_validateRoot r.valid
  unfold keyFromAbsolute
  simp only [Option.bind_eq_bind, Option.bind_eq_some_iff, Option.guard_eq_some', Option.pure_def, Option.some.injEq,
    validateObjectKey_eq_some]
  constructor
  · rintro ⟨_, -, k, ⟨-, rfl⟩, candidate, hconfined, _, rfl, rfl⟩
    exact hconfined
  · intro h
    obtain ⟨hkey, rfl, -⟩ := confined_eq_some.mp h
    have hslash : isHighSurrogate 0x2F = false ∧ isLowSurrogate 0x2F = false := ascii_not_surrogate (by decide)
    have hwell : WellFormed (r.root ++ 0x2F :: key) :=
      (wellFormed_append_iff hslash.1 hslash.2).mpr ⟨hnormal.2.2.1, hkey.wellFormed⟩
    have habsolute : isAbsolute (r.root ++ 0x2F :: key) = true := by
      obtain ⟨c, cs, hroot⟩ := List.exists_cons_of_ne_nil hnormal.2.1
      unfold isAbsolute
      rw [r.root_eq, hroot]
      rfl
    have hresolve : r.root ++ 0x2F :: key = resolveText (r.root ++ 0x2F :: key) := by
      unfold resolveText
      rw [partsOf_append hkey.parts, r.text_eq]
    have hbelow : r.root ++ [0x2F] <+: r.root ++ 0x2F :: key := ⟨key, by simp⟩
    rw [relative_append hkey.parts]
    exact ⟨(), ⟨hwell, habsolute, hresolve, hbelow⟩, key, ⟨hkey, rfl⟩, _, h, (), rfl, rfl⟩

/-- The components of the string of a path in normal form. -/
theorem partsOf_text {cs : List JsString} (h : ∀ c ∈ cs, Component c) : partsOf (⟨cs, false⟩ : AbsolutePath).text = cs := by
  unfold AbsolutePath.text
  dsimp only
  rw [Bool.false_or]
  cases hcs : cs with
  | nil => rfl
  | cons c cs' =>
    rw [← hcs, if_neg (by simp [hcs]), List.append_nil, flatMap_slash (by simp [hcs])]
    have hsplit : ([0x2F].intercalate cs).splitOn 0x2F = cs :=
      List.splitOn_intercalate 0x2F (fun l hl => (h l hl).slash) (by simp [hcs])
    have hparts : partsOf ([] ++ 0x2F :: [0x2F].intercalate cs) = _ := partsOf_append (by rwa [hsplit])
    rw [List.nil_append, hsplit] at hparts
    rw [hparts]
    rfl

/-- **On a path in normal form** the string and its components have the same key. -/
theorem keyFromAbsolute_text {cs : List JsString} (h : ∀ c ∈ cs, Component c) :
    r.keyFromAbsolute (⟨cs, false⟩ : AbsolutePath).text allowMissing = r.disk.keyFromAbsolute ⟨cs, false⟩ allowMissing := by
  refine Option.ext fun key => ?_
  rw [keyFromAbsolute_eq_some]
  constructor
  · intro hconfined
    obtain ⟨hkey, htext, hread, hcheck⟩ := confined_eq_some.mp hconfined
    have hcs : cs = partsOf r.root ++ key.splitOn 0x2F := by
      rw [← partsOf_text h, htext, partsOf_append hkey.parts]
    have hwell : WellFormed (⟨cs, false⟩ : AbsolutePath).text := by
      have hslash : isHighSurrogate 0x2F = false ∧ isLowSurrogate 0x2F = false := ascii_not_surrogate (by decide)
      rw [htext]
      exact (wellFormed_append_iff hslash.1 hslash.2).mpr ⟨(normal_of_validateRoot r.valid).2.2.1, hkey.wellFormed⟩
    have hpath : r.disk.confined key allowMissing = some ⟨cs, false⟩ := by
      unfold Disk.confined Disk.checkComponents
      simp only [Option.bind_eq_bind, Option.bind_eq_some_iff, Option.guard_eq_some', Option.pure_def, Option.some.injEq,
        validateObjectKey_eq_some]
      refine ⟨key, ⟨hkey, rfl⟩, (), hread, (), hcheck, ?_⟩
      rw [foldl_push hkey.parts, hcs]
      rfl
    have hdrop : [0x2F].intercalate (cs.drop r.disk.root.length) = key := by
      have hroot : r.disk.root = partsOf r.root := rfl
      rw [hcs, hroot, List.drop_left' rfl, List.intercalate_splitOn]
    unfold Disk.keyFromAbsolute
    simp only [Option.bind_eq_bind, Option.bind_eq_some_iff, Option.guard_eq_some', Option.pure_def, Option.some.injEq, hdrop,
      validateObjectKey_eq_some]
    refine ⟨(), ⟨hwell, rfl, hcs ▸ List.prefix_append _ _, fun heq => ?_⟩, key, ⟨hkey, rfl⟩, _, hpath, (), rfl, rfl⟩
    have hlength := congrArg List.length (hcs.symm.trans heq)
    rw [List.length_append] at hlength
    exact List.splitOn_ne_nil 0x2F key (List.eq_nil_of_length_eq_zero (by change _ = (partsOf r.root).length at hlength; omega))
  · intro hkey
    unfold Disk.keyFromAbsolute at hkey
    simp only [Option.bind_eq_bind, Option.bind_eq_some_iff, Option.guard_eq_some', Option.pure_def, Option.some.injEq] at hkey
    obtain ⟨_, -, k, -, candidate, hconfined, _, rfl, rfl⟩ := hkey
    unfold confined
    rw [hconfined]
    rfl

end Registry

/-! ## What the database takes -/

/-- No part of a key is made of one or two dots. -/
theorem dotted_eq_false {key : JsString} (h : ∀ p ∈ key.splitOn 0x2F, Component p) : dotted key = false := by
  rw [Bool.eq_false_iff]
  intro hdots
  unfold dotted at hdots
  simp only [List.any_eq_true, Bool.and_eq_true, Bool.or_eq_true, decide_eq_true_eq] at hdots
  obtain ⟨i, -, hbefore, n, hn, hmid, hafter⟩ := hdots
  have hpre : key.take i = [] ∨ ∃ s, key.take i = s ++ [0x2F] := by
    rcases hbefore with rfl | hslash
    · exact .inl rfl
    · cases i with
      | zero => exact .inl rfl
      | succ i =>
        rw [Nat.add_sub_cancel] at hslash
        exact .inr ⟨key.take i, by rw [List.take_add_one, hslash]; rfl⟩
  have hpost : key.drop (i + n) = [] ∨ ∃ s, key.drop (i + n) = 0x2F :: s := by
    rcases hafter with hend | hslash
    · exact .inl (List.drop_eq_nil_of_le hend.le)
    · obtain ⟨hlt, hget⟩ := List.getElem?_eq_some_iff.mp hslash
      exact .inr ⟨key.drop (i + n + 1), by rw [List.drop_eq_getElem_cons hlt, hget]⟩
  have hkey : key.take i ++ List.replicate n 0x2E ++ key.drop (i + n) = key := by
    rw [← hmid, List.append_assoc, ← List.drop_drop, List.take_append_drop, List.take_append_drop]
  have hpart := mem_splitOn hpre (m := List.replicate n 0x2E) (by simp) hpost
  rw [hkey] at hpart
  rcases List.mem_cons.mp hn with rfl | hn
  · exact (h _ hpart).ne_dot rfl
  · rw [List.mem_singleton.mp hn] at hpart
    exact (h _ hpart).ne_dotdot rfl

theorem Key.taken {key : JsString} (h : Key key) : refusedKey key = false := by
  have hempty : ([] : JsString) ∉ key.splitOn 0x2F := fun hmem => (h.parts [] hmem).ne_nil rfl
  unfold refusedKey
  simp only [Bool.or_eq_false_iff, decide_eq_false_iff_not]
  refine ⟨⟨⟨⟨⟨⟨⟨⟨?_, ?_⟩, h.drive⟩, ?_⟩, dotted_eq_false h.parts⟩, ?_⟩, ?_⟩, h.unreserved.1⟩, h.unreserved.2.2.2⟩
  · rintro rfl
    exact hempty (List.mem_singleton_self _)
  · intro hhead
    obtain ⟨s, rfl⟩ := List.head?_eq_some_iff.mp hhead
    exact hempty (mem_splitOn (.inl rfl) List.not_mem_nil (.inr ⟨s, rfl⟩))
  · intro hmem
    obtain ⟨p, hp, hc⟩ := exists_part hmem (by decide)
    exact (h.parts p hp).backslash hc
  · rintro ⟨s, t, rfl⟩
    have hpart : [] ∈ (s ++ [0x2F] ++ [] ++ 0x2F :: t).splitOn 0x2F :=
      mem_splitOn (.inr ⟨s, rfl⟩) List.not_mem_nil (.inr ⟨t, rfl⟩)
    exact hempty (by simpa using hpart)
  · intro hlast
    obtain ⟨s, rfl⟩ := List.getLast?_eq_some_iff.mp hlast
    have hpart : [] ∈ (s ++ [0x2F] ++ [] ++ []).splitOn 0x2F := mem_splitOn (.inr ⟨s, rfl⟩) List.not_mem_nil (.inl rfl)
    exact hempty (by simpa using hpart)

/-- What the service checks of a placement, apart from what is on the disk: the path is `path.join` of the root and the
parts of a key. -/
def Validates (root : JsString) (file : FilePlacement) : Prop :=
  file.storageLocationId = some LEGACY_STORAGE_ID ∧ ∃ key, file.relativeObjectKey = some key ∧
    validateObjectKey key = some key ∧
    file.storagePath = some (⟨(key.splitOn 0x2F).foldl push (partsOf root), false⟩ : AbsolutePath).text

/-- The path has the components of the root and some more, in normal form. -/
def Below (root absolute : JsString) : Prop :=
  absolute = resolveText absolute ∧ ∃ cs ≠ [], partsOf absolute = partsOf root ++ cs

namespace Registry

variable {r : Registry} {key absolute : JsString} {allowMissing : Bool} {file : FilePlacement}

theorem taken_of_validates (isFolder : Bool) (h : Validates r.root file) :
    guardLegacyFilePlacement r.root isFolder file = true := by
  obtain ⟨hlocation, key, hkey, hvalid, hpath⟩ := h
  obtain ⟨hvalid, -⟩ := validateObjectKey_eq_some.mp hvalid
  rw [foldl_push hvalid.parts, r.text_eq] at hpath
  unfold guardLegacyFilePlacement
  rw [hlocation, hkey, hpath]
  simp [hvalid.taken]

/-- A check that takes no missing component is passed where one may be missing. -/
theorem checkFrom_mono {allowDirectory : Bool} {rest : List JsString} : ∀ {done : List JsString},
    r.disk.checkFrom allowMissing allowDirectory done rest = some () →
      r.disk.checkFrom true allowDirectory done rest = some () := by
  induction rest with
  | nil => exact fun _ => rfl
  | cons c rest ih =>
    intro done h
    unfold Disk.checkFrom at h ⊢
    cases hstat : r.disk.lstat (done ++ [c]) with
    | none =>
      rw [hstat] at h
      cases h
    | some stat =>
      rw [hstat] at h
      cases stat with
      | missing => rfl
      | directory =>
        dsimp only at h ⊢
        split_ifs at h ⊢
        · rfl
        · exact ih h
      | file => exact h
      | foreign => exact h

theorem resolve_eq_some : r.resolve file allowMissing = some absolute ↔
    ∃ key, file = ⟨some LEGACY_STORAGE_ID, some key, some absolute⟩ ∧ r.confined key allowMissing = some absolute := by
  obtain ⟨location, relative, path⟩ := file
  unfold resolve
  simp only [Option.bind_eq_bind, Option.bind_eq_some_iff, Option.guard_eq_some', Option.pure_def, Option.some.injEq,
    FilePlacement.mk.injEq]
  constructor
  · rintro ⟨_, rfl, key, rfl, _, -, p, hconfined, _, rfl, rfl⟩
    exact ⟨key, ⟨rfl, rfl, rfl⟩, hconfined⟩
  · rintro ⟨key, ⟨rfl, rfl, rfl⟩, hconfined⟩
    obtain ⟨hkey, -⟩ := confined_eq_some.mp hconfined
    refine ⟨(), rfl, key, rfl, (), ?_, absolute, hconfined, (), rfl, rfl⟩
    rintro rfl
    exact (hkey.parts [] (List.mem_singleton_self _)).ne_nil rfl

theorem validates_of_confined (h : r.confined key allowMissing = some absolute) :
    Validates r.root ⟨some LEGACY_STORAGE_ID, some key, some absolute⟩ := by
  obtain ⟨hkey, rfl, -⟩ := confined_eq_some.mp h
  refine ⟨rfl, key, rfl, validateObjectKey_eq_some.mpr ⟨hkey, rfl⟩, ?_⟩
  rw [foldl_push hkey.parts, r.text_eq]

theorem below_of_confined (h : r.confined key allowMissing = some absolute) : Below r.root absolute := by
  obtain ⟨hkey, rfl, -⟩ := confined_eq_some.mp h
  have hparts : partsOf (r.root ++ 0x2F :: key) = _ := partsOf_append hkey.parts
  refine ⟨?_, key.splitOn 0x2F, List.splitOn_ne_nil 0x2F key, hparts⟩
  unfold resolveText
  rw [hparts, r.text_eq]

/-- **A placement gives its path back**, also where more may be missing; its key is a key, its path is strictly below the
root, and no other path has the key. What the service accepts as a placement the database takes. -/
theorem placement_round_trip (r : Registry) :
    (∀ absolute allowMissing key, r.keyFromAbsolute absolute allowMissing = some key →
      Key key ∧ Below r.root absolute ∧
      (∀ absolute' allowMissing', r.keyFromAbsolute absolute' allowMissing' = some key → absolute' = absolute) ∧
      ∃ file, r.placementForPath absolute allowMissing = some file ∧ file.relativeObjectKey = some key ∧
        ∀ allowMissing', (allowMissing = true → allowMissing' = true) → r.resolve file allowMissing' = some absolute) ∧
    (∀ file allowMissing absolute, r.resolve file allowMissing = some absolute → Validates r.root file) ∧
    (∀ absolute allowMissing file, r.placementForPath absolute allowMissing = some file → Validates r.root file) ∧
    ∀ file isFolder, Validates r.root file → guardLegacyFilePlacement r.root isFolder file = true := by
  have hplacement {absolute : JsString} {allowMissing : Bool} {file : FilePlacement} :
      r.placementForPath absolute allowMissing = some file ↔
        ∃ key, r.keyFromAbsolute absolute allowMissing = some key ∧ file = ⟨some LEGACY_STORAGE_ID, some key, some absolute⟩ := by
    unfold placementForPath
    simp only [Option.bind_eq_bind, Option.bind_eq_some_iff, Option.pure_def, Option.some.injEq]
    exact exists_congr fun key => and_congr_right' eq_comm
  refine ⟨fun absolute allowMissing key hkey => ?_, fun file allowMissing absolute hfile => ?_,
    fun absolute allowMissing file hfile => ?_, fun file isFolder hvalid => taken_of_validates isFolder hvalid⟩
  · have hconfined := keyFromAbsolute_eq_some.mp hkey
    obtain ⟨hvalid, hpath, hread, hcheck⟩ := confined_eq_some.mp hconfined
    refine ⟨hvalid, below_of_confined hconfined, fun absolute' allowMissing' hkey' => ?_, _, hplacement.mpr ⟨key, hkey, rfl⟩, rfl,
      fun allowMissing' hmore => resolve_eq_some.mpr ⟨key, rfl, confined_eq_some.mpr ⟨hvalid, hpath, hread, ?_⟩⟩⟩
    · obtain ⟨-, hpath', -⟩ := confined_eq_some.mp (keyFromAbsolute_eq_some.mp hkey')
      rw [hpath', hpath]
    · cases allowMissing' with
      | true => exact checkFrom_mono hcheck
      | false =>
        cases allowMissing with
        | false => exact hcheck
        | true => exact absurd (hmore rfl) Bool.false_ne_true
  · obtain ⟨key, rfl, hconfined⟩ := resolve_eq_some.mp hfile
    exact validates_of_confined hconfined
  · obtain ⟨key, hkey, rfl⟩ := hplacement.mp hfile
    exact validates_of_confined (keyFromAbsolute_eq_some.mp hkey)

end Registry

/-- A registry of the root `/srv` without objects, and its object `1/a`: neither `/srv/` nor `/srv2` is below the root. -/
def someRegistry : Registry := ⟨ascii "/srv", by decide, fun _ => true, fun _ => .missing⟩

theorem placement_round_trip_of_srv :
    someRegistry.keyFromAbsolute (ascii "/srv2/a") true = none ∧ someRegistry.keyFromAbsolute (ascii "/srv/") true = none ∧
      Below (ascii "/srv") (ascii "/srv/1/a") := by
  have hkey : someRegistry.keyFromAbsolute (ascii "/srv/1/a") true = some (ascii "1/a") := by decide
  exact ⟨by decide, by decide, ((Registry.placement_round_trip someRegistry).1 _ _ _ hkey).2.1⟩

end Storage

end HomeCloud
