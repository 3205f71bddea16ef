import HomeCloud.Faults
import HomeCloud.Storage.Placement

/-!
# The mount at a storage root

What the kernel writes into the table of mounts, and what the registry reads out of it.

* `escape`, `Mount`, `mountinfo`: the text.
* `decode`, `entry`, `linuxMountIdentity`: the parser.
* `decode_escape`: decoding gives every string back.
* `Below`, `below_iff`: below a root, by the components of the paths.
* **`mount_table_exact`**.
-/

namespace HomeCloud

namespace MountTable

open Faults Storage

/-! ## What the kernel writes -/

/-- The units of a path that the kernel escapes: space, tab, newline and backslash. -/
def isEscaped (c : UInt16) : Bool := c = 0x20 || c = 0x09 || c = 0x0A || c = 0x5C

/-- A path as it is written, each escaped unit as a backslash and three octal digits. -/
def escape (s : JsString) : JsString :=
  s.flatMap fun c => if isEscaped c then [0x5C, 0x30 + c / 64, 0x30 + c / 8 % 8, 0x30 + c % 8] else [c]

/-- The field that ends the optional fields. -/
def hyphen : JsString := [0x2D]

/-- A field of a line. -/
abbrev Field := {s : JsString // 0x20 ∉ s ∧ 0x0A ∉ s}

/-- A mount. Its two paths are any strings, and it has any optional fields. -/
structure Mount where
  mountId : ℕ
  parentId : ℕ
  major : ℕ
  minor : ℕ
  filesystemRoot : JsString
  mountPoint : JsString
  readOnly : Bool
  options : Field
  optionalFields : List Field
  filesystemType : Field
  source : Field
  superOptions : Field

namespace Mount

variable (m : Mount)

/-- The fields before the optional ones. The options of a mount begin with `ro` or `rw`. -/
def firstFields : List JsString :=
  [decimal m.mountId, decimal m.parentId, decimal m.major ++ 0x3A :: decimal m.minor, escape m.filesystemRoot,
    escape m.mountPoint, ascii (if m.readOnly then "ro" else "rw") ++ m.options.val]

def lastFields : List JsString :=
  m.optionalFields.map Subtype.val ++ [hyphen, m.filesystemType.val, m.source.val, m.superOptions.val]

def fields : List JsString := m.firstFields ++ m.lastFields

def line : JsString := [0x20].intercalate m.fields

end Mount

/-- The text of a list of mounts, a line for each. -/
def mountinfo (mounts : List Mount) : JsString := mounts.flatMap fun m => m.line ++ [0x0A]

/-! ## The parser -/

/-- The alternatives of `/\\(040|011|012|134)/`. -/
def octals : List JsString := [ascii "040", ascii "011", ascii "012", ascii "134"]

/-- `parseInt`, of three octal digits. -/
def octal (b c d : UInt16) : UInt16 := (b - 0x30) * 64 + (c - 0x30) * 8 + (d - 0x30)

/-- All escapes replaced, from the left. -/
def decode : JsString → JsString
  | a :: b :: c :: d :: s =>
    if a = 0x5C ∧ [b, c, d] ∈ octals then octal b c d :: decode s else a :: decode (b :: c :: d :: s)
  | s => s

/-- The fields of a line, and where the separator is. -/
structure Entry where
  fields : List JsString
  separator : ℕ
  valid : 6 ≤ separator ∧ separator + 4 ≤ fields.length

def entry (line : JsString) : Except String Entry :=
  match (line.splitOn 0x20).idxOf? hyphen with
  | none => .error "Invalid mountinfo"
  | some separator =>
    if h : 6 ≤ separator ∧ separator + 4 ≤ (line.splitOn 0x20).length then
      .ok ⟨line.splitOn 0x20, separator, h⟩
    else .error "Invalid mountinfo"

def entries (mountinfo : JsString) : Except String (List Entry) :=
  ((mountinfo.splitOn 0x0A).filter (· ≠ [])).mapM entry

structure ExpectedMount where
  source : JsString
  filesystemRoot : JsString
  filesystemType : JsString

/-- The strings of the fingerprint, and whether the mount or its filesystem is read-only. -/
structure MountIdentity where
  fingerprint : List JsString
  readOnly : Bool
  deriving DecidableEq

namespace Entry

variable (e : Entry)

/-- A field, which is there up to the third behind the separator. -/
def field (i : ℕ) : JsString := e.fields.getD i []

def mountPoint : JsString := decode (e.field 4)

def isExpected (expected : ExpectedMount) : Bool :=
  decode (e.field (e.separator + 2)) = expected.source && decode (e.field 3) = expected.filesystemRoot &&
    e.field (e.separator + 1) = expected.filesystemType

def identity : MountIdentity where
  fingerprint := [e.field 0, e.field 1, e.field 2, decode (e.field 3), e.mountPoint, e.field (e.separator + 1),
    decode (e.field (e.separator + 2))]
  readOnly := ascii "ro" ∈ (e.field 5).splitOn 0x2C || ascii "ro" ∈ (e.field (e.separator + 3)).splitOn 0x2C

end Entry

/-- No identity if a mount is below the root, or if not exactly one is at it. -/
def linuxMountIdentity (root mountinfo : JsString) (expected : Option ExpectedMount) :
    Except String (Option MountIdentity) := do
  let entries ← entries mountinfo
  if entries.any fun e => root ++ [0x2F] <+: e.mountPoint then
    return none
  match entries.filter fun e => e.mountPoint = root with
  | [e] => return if expected.all e.isExpected then some e.identity else none
  | _ => return none

/-! ## Escapes -/

theorem decode_cons {c : UInt16} (h : c ≠ 0x5C) (s : JsString) : decode (c :: s) = c :: decode s := by
  match s with
  | [] => rfl
  | [_] => rfl
  | [_, _] => rfl
  | _ :: _ :: _ :: _ => rw [decode, if_neg fun he => h he.1]

theorem isEscaped_iff {c : UInt16} : isEscaped c = true ↔ c = 0x20 ∨ c = 0x09 ∨ c = 0x0A ∨ c = 0x5C := by
  simp only [isEscaped, Bool.or_eq_true, decide_eq_true_eq, or_assoc]

/-- The digits of an escaped unit are among the alternatives, and give it back. -/
theorem octal_of_isEscaped {c : UInt16} (h : isEscaped c = true) :
    [0x30 + c / 64, 0x30 + c / 8 % 8, 0x30 + c % 8] ∈ octals ∧
      octal (0x30 + c / 64) (0x30 + c / 8 % 8) (0x30 + c % 8) = c := by
  rcases isEscaped_iff.mp h with rfl | rfl | rfl | rfl <;> decide

/-- **Decoding gives every string back**, also one that looks like an escape. -/
theorem decode_escape (s : JsString) : decode (escape s) = s := by
  induction s with
  | nil => rfl
  | cons c s ih =>
    rw [escape, List.flatMap_cons, ← escape]
    split
    next h =>
      obtain ⟨hmem, hoctal⟩ := octal_of_isEscaped h
      simp only [List.cons_append, List.nil_append]
      rw [decode, if_pos ⟨rfl, hmem⟩, hoctal, ih]
    next h =>
      have hc : c ≠ 0x5C := fun hc => h (isEscaped_iff.mpr (.inr (.inr (.inr hc))))
      rw [List.singleton_append, decode_cons hc, ih]

theorem written_of_isEscaped {c : UInt16} (h : isEscaped c = true) :
    ∀ d ∈ [0x5C, 0x30 + c / 64, 0x30 + c / 8 % 8, 0x30 + c % 8], d ≠ 0x20 ∧ d ≠ 0x0A := by
  simp only [List.forall_mem_cons, List.not_mem_nil, false_imp_iff, implies_true]
  rcases isEscaped_iff.mp h with rfl | rfl | rfl | rfl <;> decide

/-- What is written has no space and no newline. -/
theorem escape_field (s : JsString) : 0x20 ∉ escape s ∧ 0x0A ∉ escape s := by
  have hunit {d : UInt16} (hd : d ∈ escape s) : d ≠ 0x20 ∧ d ≠ 0x0A := by
    obtain ⟨c, -, hc⟩ := List.mem_flatMap.mp hd
    split at hc
    next h => exact written_of_isEscaped h d hc
    next h =>
      rw [List.mem_singleton] at hc
      rw [isEscaped_iff, not_or, not_or, not_or] at h
      exact ⟨hc ▸ h.1, hc ▸ h.2.2.1⟩
  exact ⟨fun h => (hunit h).1 rfl, fun h => (hunit h).2 rfl⟩

theorem escape_eq_hyphen {s : JsString} : escape s = hyphen ↔ s = hyphen := by
  constructor
  · intro h
    have hdecode := decode_escape s
    rw [h] at hdecode
    exact hdecode.symm
  · rintro rfl
    decide

/-! ## Lines -/

/-- No path of the mount is a field that looks like the separator. -/
def Mount.Legible (m : Mount) : Prop := m.filesystemRoot ≠ hyphen ∧ m.mountPoint ≠ hyphen

theorem decimal_field (n : ℕ) : 0x20 ∉ decimal n ∧ 0x0A ∉ decimal n :=
  ⟨fun h => absurd (mem_decimal h).1 (by decide), fun h => absurd (mem_decimal h).1 (by decide)⟩

theorem decimal_ne_hyphen (n : ℕ) : decimal n ≠ hyphen := by
  intro h
  have hmem : 0x2D ∈ decimal n := by
    rw [h]
    exact List.mem_singleton_self _
  exact absurd (mem_decimal hmem).1 (by decide)

theorem access_field (readOnly : Bool) :
    0x20 ∉ ascii (if readOnly then "ro" else "rw") ∧ 0x0A ∉ ascii (if readOnly then "ro" else "rw") := by
  cases readOnly <;> decide

namespace Mount

variable (m : Mount)

theorem fields_field : ∀ f ∈ m.fields, 0x20 ∉ f ∧ 0x0A ∉ f := by
  have hdevice : 0x20 ∉ decimal m.major ++ 0x3A :: decimal m.minor ∧ 0x0A ∉ decimal m.major ++ 0x3A :: decimal m.minor := by
    simp [decimal_field]
  have hoptions : 0x20 ∉ ascii (if m.readOnly then "ro" else "rw") ++ m.options.val ∧
      0x0A ∉ ascii (if m.readOnly then "ro" else "rw") ++ m.options.val := by
    simp only [List.mem_append, not_or]
    exact ⟨⟨(access_field m.readOnly).1, m.options.property.1⟩, (access_field m.readOnly).2, m.options.property.2⟩
  have hhyphen : 0x20 ∉ hyphen ∧ 0x0A ∉ hyphen := by decide
  intro f hf
  rcases List.mem_append.mp hf with hf | hf
  · simp only [firstFields, List.mem_cons, List.not_mem_nil, or_false] at hf
    rcases hf with rfl | rfl | rfl | rfl | rfl | rfl
    · exact decimal_field m.mountId
    · exact decimal_field m.parentId
    · exact hdevice
    · exact escape_field m.filesystemRoot
    · exact escape_field m.mountPoint
    · exact hoptions
  · rcases List.mem_append.mp hf with hf | hf
    · obtain ⟨optional, -, rfl⟩ := List.mem_map.mp hf
      exact optional.property
    · simp only [List.mem_cons, List.not_mem_nil, or_false] at hf
      rcases hf with rfl | rfl | rfl | rfl
      · exact hhyphen
      · exact m.filesystemType.property
      · exact m.source.property
      · exact m.superOptions.property

theorem length_fields : m.fields.length = m.optionalFields.length + 10 := by
  simp [fields, firstFields, lastFields]

/-- The fields can be read off the line. -/
theorem splitOn_line : m.line.splitOn 0x20 = m.fields :=
  List.splitOn_intercalate 0x20 (fun f hf => (m.fields_field f hf).1) (List.cons_ne_nil _ _)

theorem line_ne_nil : m.line ≠ [] := by
  intro h
  have hlength := congrArg List.length m.splitOn_line
  rw [h, List.splitOn_nil, length_fields, List.length_singleton] at hlength
  omega

theorem not_mem_line : 0x0A ∉ m.line := by
  have hfields := fun f hf => (m.fields_field f hf).2
  unfold line
  generalize m.fields = fields at hfields
  induction fields with
  | nil => exact List.not_mem_nil
  | cons f fields ih =>
    cases fields with
    | nil => simpa using hfields
    | cons g fields =>
      rw [List.intercalate_cons_of_ne_nil (List.cons_ne_nil g fields)]
      simp only [List.mem_append, List.mem_singleton, not_or]
      exact ⟨⟨hfields f List.mem_cons_self, by decide⟩, ih fun f' hf' => hfields f' (List.mem_cons_of_mem f hf')⟩

theorem hyphen_mem_firstFields : hyphen ∈ m.firstFields ↔ ¬m.Legible := by
  have hdevice : hyphen ≠ decimal m.major ++ 0x3A :: decimal m.minor := by
    intro h
    have hmem : (0x3A : UInt16) ∈ hyphen := by
      rw [h]
      exact List.mem_append_right _ List.mem_cons_self
    exact absurd hmem (by decide)
  have hoptions : hyphen ≠ ascii (if m.readOnly then "ro" else "rw") ++ m.options.val := by
    intro h
    have hlength := congrArg List.length h
    have htwo : (ascii (if m.readOnly then "ro" else "rw")).length = 2 := by cases m.readOnly <;> rfl
    rw [List.length_append, htwo] at hlength
    exact absurd hlength (by simp only [hyphen, List.length_singleton]; omega)
  simp only [firstFields, List.mem_cons, List.not_mem_nil, or_false, hdevice, hoptions, false_or,
    (decimal_ne_hyphen _).symm, eq_comm (a := hyphen), escape_eq_hyphen, Legible, not_and_or, ne_eq, not_not]

/-- The first hyphen among the last fields is at most the separator. -/
theorem idxOf?_lastFields : ∃ i ≤ m.optionalFields.length, m.lastFields.idxOf? hyphen = some i := by
  have hmem : hyphen ∈ m.lastFields := List.mem_append_right _ List.mem_cons_self
  obtain ⟨i, hi⟩ := Option.isSome_iff_exists.mp (List.isSome_idxOf?.mpr hmem)
  refine ⟨i, not_lt.mp fun hlt => ?_, hi⟩
  obtain ⟨hlength, -, hbefore⟩ := List.idxOf?_eq_some_iff.mp hi
  refine hbefore m.optionalFields.length hlt ?_
  simp [lastFields]

theorem idxOf?_fields :
    m.fields.idxOf? hyphen = (m.firstFields.idxOf? hyphen).or ((m.lastFields.idxOf? hyphen).map (· + 6)) :=
  List.findIdx?_append

end Mount

/-- **A legible line is taken**, and its mount point is read. -/
theorem entry_line {m : Mount} (h : m.Legible) : ∃ e, entry m.line = .ok e ∧ e.mountPoint = m.mountPoint := by
  obtain ⟨i, hi, hlast⟩ := m.idxOf?_lastFields
  have hfirst : m.firstFields.idxOf? hyphen = none :=
    List.idxOf?_eq_none_iff.mpr fun hmem => m.hyphen_mem_firstFields.mp hmem h
  have hseparator : (m.line.splitOn 0x20).idxOf? hyphen = some (i + 6) := by
    rw [m.splitOn_line, m.idxOf?_fields, hfirst, hlast]
    rfl
  have hvalid : 6 ≤ i + 6 ∧ i + 6 + 4 ≤ (m.line.splitOn 0x20).length := by
    rw [m.splitOn_line, m.length_fields]
    omega
  refine ⟨⟨m.line.splitOn 0x20, i + 6, hvalid⟩, ?_, ?_⟩
  · unfold entry
    rw [hseparator]
    exact dif_pos hvalid
  · change decode ((m.line.splitOn 0x20).getD 4 []) = m.mountPoint
    rw [m.splitOn_line]
    exact decode_escape m.mountPoint

/-- The separator of any other line is found too early. -/
theorem entry_line_error {m : Mount} (h : ¬m.Legible) : entry m.line = .error "Invalid mountinfo" := by
  obtain ⟨i, hi⟩ := Option.isSome_iff_exists.mp (List.isSome_idxOf?.mpr (m.hyphen_mem_firstFields.mpr h))
  obtain ⟨hlt, -⟩ := List.idxOf?_eq_some_iff.mp hi
  have hseparator : (m.line.splitOn 0x20).idxOf? hyphen = some i := by
    rw [m.splitOn_line, m.idxOf?_fields, hi]
    rfl
  have hearly : ¬(6 ≤ i ∧ i + 4 ≤ (m.line.splitOn 0x20).length) := fun hvalid => absurd hlt (not_lt.mpr hvalid.1)
  unfold entry
  rw [hseparator]
  exact dif_neg hearly

/-! ## The table -/

/-- The lines of the text are those of the mounts. -/
theorem lines_mountinfo (mounts : List Mount) :
    ((mountinfo mounts).splitOn 0x0A).filter (· ≠ []) = mounts.map Mount.line := by
  induction mounts with
  | nil => rfl
  | cons m mounts ih =>
    have htext : mountinfo (m :: mounts) = m.line ++ 0x0A :: mountinfo mounts := by
      rw [mountinfo, List.flatMap_cons, List.append_assoc, List.singleton_append, ← mountinfo]
    rw [htext, List.splitOn_append_cons_self_of_not_mem m.not_mem_line, List.filter_cons,
      if_pos (decide_eq_true m.line_ne_nil), ih, List.map_cons]

theorem mapM_cons_eq {m : Mount} {mounts : List Mount} :
    ((m :: mounts).map Mount.line).mapM entry = (do
      let e ← entry m.line
      let es ← (mounts.map Mount.line).mapM entry
      return e :: es) := by
  rw [List.map_cons, List.mapM_cons]

/-- **The whole table is taken if every line is legible**, and its mount points are read. -/
theorem entries_mountinfo {mounts : List Mount} (h : ∀ m ∈ mounts, m.Legible) :
    ∃ es, entries (mountinfo mounts) = .ok es ∧ es.map Entry.mountPoint = mounts.map Mount.mountPoint := by
  rw [entries, lines_mountinfo]
  induction mounts with
  | nil => exact ⟨[], rfl, rfl⟩
  | cons m mounts ih =>
    obtain ⟨hm, hmounts⟩ := List.forall_mem_cons.mp h
    obtain ⟨e, he, hpoint⟩ := entry_line hm
    obtain ⟨es, hes, hpoints⟩ := ih hmounts
    refine ⟨e :: es, ?_, ?_⟩
    · rw [mapM_cons_eq, he, hes]
      rfl
    · rw [List.map_cons, List.map_cons, hpoint, hpoints]

theorem legible_of_entries {mounts : List Mount} {es : List Entry} (h : entries (mountinfo mounts) = .ok es) :
    ∀ m ∈ mounts, m.Legible := by
  rw [entries, lines_mountinfo] at h
  induction mounts generalizing es with
  | nil => exact fun m hm => absurd hm List.not_mem_nil
  | cons m mounts ih =>
    rw [mapM_cons_eq] at h
    obtain ⟨e, he, h⟩ := bind_eq_ok.mp h
    obtain ⟨es', hes, -⟩ := bind_eq_ok.mp h
    refine List.forall_mem_cons.mpr ⟨?_, ih hes⟩
    by_contra hm
    rw [entry_line_error hm] at he
    cases he

/-! ## The root -/

/-- Strictly below a path, by the components: those of the path and at least one more. -/
def Below (root path : JsString) : Prop :=
  ∃ components, components ≠ [] ∧ path.splitOn 0x2F = root.splitOn 0x2F ++ components

/-- The test of the code is not fooled by a sibling whose name only begins as that of the root. -/
theorem below_iff {root path : JsString} : root ++ [0x2F] <+: path ↔ Below root path := by
  constructor
  · rintro ⟨rest, rfl⟩
    refine ⟨rest.splitOn 0x2F, List.splitOn_ne_nil 0x2F rest, ?_⟩
    rw [List.append_assoc, List.singleton_append, List.splitOn_append_cons_self]
  · rintro ⟨components, hne, hsplit⟩
    have hslash := flatMap_splitOn path
    rw [hsplit, List.flatMap_append, flatMap_splitOn, flatMap_slash hne, List.cons_append, List.cons.injEq] at hslash
    refine ⟨[0x2F].intercalate components, ?_⟩
    rw [List.append_assoc, List.singleton_append, hslash.2]

/-- **The search of a root** among the mount points that were read. -/
theorem exists_identity_iff {root text : JsString} {es : List Entry} (h : entries text = .ok es) :
    (∃ identity, linuxMountIdentity root text none = .ok (some identity)) ↔
      (es.map Entry.mountPoint).countP (· = root) = 1 ∧ ∀ path ∈ es.map Entry.mountPoint, ¬Below root path := by
  have hrun : linuxMountIdentity root text none =
      if es.any fun e => root ++ [0x2F] <+: e.mountPoint then .ok none
      else match es.filter fun e => e.mountPoint = root with
        | [e] => .ok (some e.identity)
        | _ => .ok none := by
    rw [linuxMountIdentity, h]
    rfl
  have hbelow : (es.any fun e => root ++ [0x2F] <+: e.mountPoint) = true ↔
      ¬∀ path ∈ es.map Entry.mountPoint, ¬Below root path := by
    simp [List.any_eq_true, below_iff]
  have hcount : (es.map Entry.mountPoint).countP (· = root) = (es.filter fun e => e.mountPoint = root).length := by
    rw [List.countP_map, List.countP_eq_length_filter]
    rfl
  rw [hrun, hcount]
  split
  next hany => exact ⟨fun ⟨_, he⟩ => (nomatch he), fun he => absurd he.2 (hbelow.mp hany)⟩
  next hany =>
    have hnone := not_not.mp fun he => hany (hbelow.mpr he)
    split
    next e hone => exact ⟨fun _ => ⟨by rw [hone]; rfl, hnone⟩, fun _ => ⟨e.identity, rfl⟩⟩
    next hmany =>
      refine ⟨fun ⟨_, he⟩ => (nomatch he), fun he => ?_⟩
      obtain ⟨e, hone⟩ := List.length_eq_one_iff.mp he.1
      exact absurd hone (hmany e)

/-- **The table is read exactly.** Decoding gives every string back. The mount points of a table are read as they are
unless a path of a mount is a single hyphen, which the parser takes for the separator; and a root has an identity if
there is no such path, exactly one mount is at the root, and none is strictly below it. -/
theorem mount_table_exact (mounts : List Mount) (root : JsString) :
    (∀ s, decode (escape s) = s) ∧
    ((∃ es, entries (mountinfo mounts) = .ok es ∧ es.map Entry.mountPoint = mounts.map Mount.mountPoint) ↔
      ∀ m ∈ mounts, m.Legible) ∧
    ((∃ identity, linuxMountIdentity root (mountinfo mounts) none = .ok (some identity)) ↔
      (∀ m ∈ mounts, m.Legible) ∧ mounts.countP (fun m => m.mountPoint = root) = 1 ∧
        ∀ m ∈ mounts, ¬Below root m.mountPoint) := by
  refine ⟨decode_escape, ⟨fun ⟨es, hes, _⟩ => legible_of_entries hes, entries_mountinfo⟩, ?_⟩
  have hmap {es : List Entry} (hpoints : es.map Entry.mountPoint = mounts.map Mount.mountPoint) :
      ((es.map Entry.mountPoint).countP (· = root) = 1 ∧ ∀ path ∈ es.map Entry.mountPoint, ¬Below root path) ↔
        mounts.countP (fun m => m.mountPoint = root) = 1 ∧ ∀ m ∈ mounts, ¬Below root m.mountPoint := by
    rw [hpoints, List.countP_map, List.forall_mem_map]
    rfl
  constructor
  · rintro ⟨identity, hidentity⟩
    obtain ⟨es, hes, -⟩ := bind_eq_ok.mp hidentity
    have hlegible := legible_of_entries hes
    obtain ⟨es, hes, hpoints⟩ := entries_mountinfo hlegible
    exact ⟨hlegible, (hmap hpoints).mp ((exists_identity_iff hes).mp ⟨identity, hidentity⟩)⟩
  · rintro ⟨hlegible, hroot⟩
    obtain ⟨es, hes, hpoints⟩ := entries_mountinfo hlegible
    exact (exists_identity_iff hes).mpr ((hmap hpoints).mpr hroot)

/-- A mount of a disk. -/
def mountAt (mountPoint : JsString) : Mount where
  mountId := 36
  parentId := 25
  major := 8
  minor := 1
  filesystemRoot := ascii "/"
  mountPoint := mountPoint
  readOnly := false
  options := ⟨ascii ",relatime", by decide⟩
  optionalFields := []
  filesystemType := ⟨ascii "ext4", by decide⟩
  source := ⟨ascii "/dev/sda1", by decide⟩
  superOptions := ⟨ascii "rw", by decide⟩

/-- A mount point that is a single hyphen hides the separator, and no identity is found for the root beside it. -/
theorem no_identity_of_hyphen :
    validateRoot (ascii "/storage") = true ∧
    [mountAt (ascii "/storage"), mountAt hyphen].countP (fun m => m.mountPoint = ascii "/storage") = 1 ∧
    (∀ m ∈ [mountAt (ascii "/storage"), mountAt hyphen], ¬Below (ascii "/storage") m.mountPoint) ∧
    ¬∃ identity, linuxMountIdentity (ascii "/storage")
      (mountinfo [mountAt (ascii "/storage"), mountAt hyphen]) none = .ok (some identity) := by
  refine ⟨by decide, by decide, ?_, ?_⟩
  · intro m hm
    rw [← below_iff]
    revert m
    decide
  · rintro ⟨identity, hidentity⟩
    obtain ⟨es, hes, -⟩ := bind_eq_ok.mp hidentity
    have hlegible := legible_of_entries hes (mountAt hyphen) (by simp)
    exact hlegible.2 rfl

end MountTable

end HomeCloud
