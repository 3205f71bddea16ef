import Mathlib.Data.Nat.Notation
import Mathlib.Tactic.Common

/-!
# JavaScript strings and database text

A JavaScript string is a sequence of UTF-16 code units and may hold lone surrogates; text that
reaches PostgreSQL is UTF-8, so the driver replaces each lone surrogate by U+FFFD on the way in.

* `toWellFormed`, `DbText`: what is stored for a string.
* `validateDisplayName`: the check on requested file names.
* `candidate`: the numbered variants of a requested name.
* **`storable_eq_of_ofJs_eq`**: on well-formed strings storing loses nothing.
-/

namespace HomeCloud

/-- A JavaScript string: its UTF-16 code units. -/
abbrev JsString := List UInt16

instance : LawfulBEq JsString := inferInstance

/-! ## Well-formed strings -/

def isHighSurrogate (c : UInt16) : Bool := 0xD800 ≤ c && c ≤ 0xDBFF

def isLowSurrogate (c : UInt16) : Bool := 0xDC00 ≤ c && c ≤ 0xDFFF

/-- The string with every lone surrogate replaced by U+FFFD. -/
def toWellFormed : JsString → JsString
  | [] => []
  | [c] => if isHighSurrogate c || isLowSurrogate c then [0xFFFD] else [c]
  | c :: d :: s =>
    if isHighSurrogate c then
      if isLowSurrogate d then c :: d :: toWellFormed s else 0xFFFD :: toWellFormed (d :: s)
    else if isLowSurrogate c then 0xFFFD :: toWellFormed (d :: s)
    else c :: toWellFormed (d :: s)

/-- A string without lone surrogates, which the database stores as it is. -/
def WellFormed (s : JsString) : Prop := toWellFormed s = s

instance (s : JsString) : Decidable (WellFormed s) := inferInstanceAs (Decidable (_ = _))

theorem replacement_not_surrogate :
    isHighSurrogate 0xFFFD = false ∧ isLowSurrogate 0xFFFD = false := by
  decide

theorem high_not_low {c : UInt16} (h : isHighSurrogate c = true) : isLowSurrogate c = false := by
  simp only [isHighSurrogate, isLowSurrogate, Bool.and_eq_true, decide_eq_true_eq,
    Bool.and_eq_false_iff, decide_eq_false_iff_not] at h ⊢
  left
  intro h'
  have h1 := UInt16.le_iff_toNat_le.mp h.2
  have h2 := UInt16.le_iff_toNat_le.mp h'
  have h3 : (0xDC00 : UInt16).toNat = 0xDC00 := rfl
  have h4 : (0xDBFF : UInt16).toNat = 0xDBFF := rfl
  omega

/-- A unit that is no surrogate passes through in front of any string. -/
theorem toWellFormed_cons {c : UInt16} (hh : isHighSurrogate c = false)
    (hl : isLowSurrogate c = false) (s : JsString) : toWellFormed (c :: s) = c :: toWellFormed s := by
  cases s <;> simp [toWellFormed, hh, hl]

/-- Replacing lone surrogates leaves none. -/
theorem wellFormed_toWellFormed (s : JsString) : WellFormed (toWellFormed s) := by
  unfold WellFormed
  fun_induction toWellFormed s with
  | case1 => rfl
  | case2 c h => rfl
  | case3 c h =>
    rw [Bool.or_eq_true, not_or, Bool.not_eq_true, Bool.not_eq_true] at h
    exact toWellFormed_cons h.1 h.2 []
  | case4 c d s hc hd ih => rw [toWellFormed, if_pos hc, if_pos hd, ih]
  | case5 c d s hc hd ih =>
    rw [toWellFormed_cons replacement_not_surrogate.1 replacement_not_surrogate.2, ih]
  | case6 c d s hc hd ih =>
    rw [toWellFormed_cons replacement_not_surrogate.1 replacement_not_surrogate.2, ih]
  | case7 c d s hc hd ih =>
    rw [toWellFormed_cons (by simpa using hc) (by simpa using hd), ih]

/-- Text as the database holds it. -/
abbrev DbText := {s : JsString // WellFormed s}

/-- What is stored for the string `s`. -/
def DbText.ofJs (s : JsString) : DbText := ⟨toWellFormed s, wellFormed_toWellFormed s⟩

theorem DbText.ofJs_val {s : JsString} (h : WellFormed s) : (DbText.ofJs s).val = s := h

/-- **On well-formed strings storing loses nothing.** -/
theorem storable_eq_of_ofJs_eq {s s' : JsString} (hs : WellFormed s) (hs' : WellFormed s')
    (h : DbText.ofJs s = DbText.ofJs s') : s = s' := by
  rw [← DbText.ofJs_val hs, ← DbText.ofJs_val hs', h]

/-! ## The parts of a string -/

/-- A part has units of the string, and is without the separator. -/
theorem mem_of_mem_splitOn {c d : UInt16} {s p : JsString} (h : p ∈ s.splitOn c) (hd : d ∈ p) : d ∈ s ∧ d ≠ c := by
  induction s generalizing p with
  | nil =>
    rw [List.splitOn_nil, List.mem_singleton] at h
    rw [h] at hd
    exact absurd hd List.not_mem_nil
  | cons e s ih =>
    have htail {q : JsString} (hq : q ∈ s.splitOn c) (hdq : d ∈ q) : d ∈ e :: s ∧ d ≠ c :=
      ⟨List.mem_cons_of_mem e (ih hq hdq).1, (ih hq hdq).2⟩
    rw [List.splitOn_eq_splitOnP, List.splitOnP_cons_eq_if_modifyHead, ← List.splitOn_eq_splitOnP] at h
    split at h
    · rcases List.mem_cons.mp h with rfl | h
      · exact absurd hd List.not_mem_nil
      · exact htail h hd
    · next hne =>
      cases hparts : s.splitOn c with
      | nil =>
        rw [hparts] at h
        exact absurd h List.not_mem_nil
      | cons q qs =>
        rw [hparts, List.modifyHead_cons] at h
        rcases List.mem_cons.mp h with rfl | h
        · rcases List.mem_cons.mp hd with rfl | hd
          · exact ⟨List.mem_cons_self, fun heq => hne (beq_iff_eq.mpr heq)⟩
          · exact htail (hparts ▸ List.mem_cons_self) hd
        · exact htail (hparts ▸ List.mem_cons_of_mem q h) hd

theorem not_mem_of_mem_splitOn {c : UInt16} {s p : JsString} (h : p ∈ s.splitOn c) : c ∉ p :=
  fun hc => (mem_of_mem_splitOn h hc).2 rfl

/-! ## Display names -/

/-- The white space and line terminators that `trim` removes. -/
def isJsSpace (c : UInt16) : Bool :=
  (9 ≤ c && c ≤ 13) || c == 0x20 || c == 0xA0 || c == 0x1680 || (0x2000 ≤ c && c ≤ 0x200A) ||
    c == 0x2028 || c == 0x2029 || c == 0x202F || c == 0x205F || c == 0x3000 || c == 0xFEFF

def trim (s : JsString) : JsString := ((s.dropWhile isJsSpace).reverse.dropWhile isJsSpace).reverse

/-- The check of a requested file name: the trimmed name, unless it is empty, longer than 255 units,
has a slash, a backslash or a control character, or is `.` or `..`. -/
def validateDisplayName (name : JsString) : Option JsString :=
  let trimmed := trim name
  if trimmed.isEmpty || trimmed.length > 255 ||
      trimmed.any (fun c => c == 0x5C || c == 0x2F) ||
      trimmed.any (fun c => c < 32 || c == 127) ||
      trimmed == [0x2E] || trimmed == [0x2E, 0x2E] then none
  else some trimmed

/-! ## Numbered names -/

/-- The last index of a unit in a string, `-1` being `none`. -/
def lastIndexOf (s : JsString) (c : UInt16) : Option ℕ :=
  (s.reverse.findIdx? (· == c)).map fun i => s.length - 1 - i

/-- `/^[a-f0-9]{n}$/`. -/
def isHex (n : ℕ) (s : JsString) : Bool :=
  s.length = n && s.all fun c => (0x61 ≤ c && c ≤ 0x66) || (0x30 ≤ c && c ≤ 0x39)

/-- The decimal digits of a number. -/
def decimal (n : ℕ) : JsString := (Nat.toDigits 10 n).map fun c => c.val.toUInt16

inductive EntryKind where
  | file
  | folder
  deriving DecidableEq

/-- Where the extension of a requested name starts: files only, at the last dot, and not at the
first unit. -/
def extensionStart (kind : EntryKind) (requested : JsString) : Option ℕ :=
  match kind with
  | .file => (lastIndexOf requested 0x2E).filter (0 < ·)
  | .folder => none

/-- The name tried after `requested` and the variants before `index`: at most 255 units, the
extension kept behind the number. -/
def candidate (kind : EntryKind) (requested : JsString) (index : ℕ) : JsString :=
  let dot := extensionStart kind requested
  let extension := dot.elim [] requested.drop
  let stem := dot.elim requested requested.take
  let suffix := [0x20, 0x28] ++ decimal index ++ [0x29]
  let suffixBudget := 255 - suffix.length
  let safeExtension := extension.take (suffixBudget - 1)
  stem.take (suffixBudget - safeExtension.length) ++ suffix ++ safeExtension

/-- The first free name among `requested` and its variants `1` to `10000`. -/
def chooseName (kind : EntryKind) (requested : JsString) (occupied : List JsString) :
    Option JsString :=
  if requested ∈ occupied then
    ((List.range 10000).map fun i => candidate kind requested (i + 1)).find? fun c =>
      decide (c ∉ occupied)
  else some requested

theorem chooseName_free {kind : EntryKind} {requested name : JsString} {occupied : List JsString}
    (h : chooseName kind requested occupied = some name) : name ∉ occupied := by
  unfold chooseName at h
  split_ifs at h with hr
  · have := List.find?_some h
    exact of_decide_eq_true this
  · cases h
    exact hr

/-- The chosen name is the requested one or, when that is occupied, one of its variants. -/
theorem chooseName_eq {kind : EntryKind} {requested name : JsString} {occupied : List JsString}
    (h : chooseName kind requested occupied = some name) :
    name = requested ∨ requested ∈ occupied ∧
      ∃ i, 1 ≤ i ∧ i ≤ 10000 ∧ name = candidate kind requested i := by
  unfold chooseName at h
  split_ifs at h with hr
  · obtain ⟨i, hi, rfl⟩ := List.mem_map.mp (List.mem_of_find?_eq_some h)
    rw [List.mem_range] at hi
    exact .inr ⟨hr, i + 1, by omega, by omega, rfl⟩
  · cases h
    exact .inl rfl

end HomeCloud
