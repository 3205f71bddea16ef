import HomeCloud.Uploads.Service

/-!
# The names of objects on the disk

An object gets the name of its file with what a file system may not like replaced, a suffix that makes it
unique, and the extension in lower case.

* `byteLength`: the bytes of a string in UTF-8.
* `extname`, `basename`: the two parts of a name, for names without slashes.
* `LowerCase`: what is used of `toLowerCase`.
* `generateSafeFilename`, `finalName`: the names of copies, and of what is published.
* `byteLength_diskName`: how long they get.
* **`suffix_eq_of_diskName_eq`**: the suffix can be read off the name, whatever the file was called.
-/

namespace HomeCloud

namespace Storage

/-! ## Strings -/

/-- An ASCII text. -/
def ascii (s : String) : JsString := s.toList.map fun c => c.val.toUInt16

/-- `Buffer.byteLength(s, "utf8")`; a lone surrogate counts as U+FFFD. -/
def byteLength : JsString → ℕ
  | [] => 0
  | [c] => if c < 0x80 then 1 else if c < 0x800 then 2 else 3
  | c :: d :: s =>
    if c < 0x80 then 1 + byteLength (d :: s)
    else if c < 0x800 then 2 + byteLength (d :: s)
    else if isHighSurrogate c && isLowSurrogate d then 4 + byteLength s
    else 3 + byteLength (d :: s)

theorem byteLength_cons {c : UInt16} (hc : c < 0x80) (s : JsString) : byteLength (c :: s) = 1 + byteLength s := by
  cases s <;> simp [byteLength, hc]

/-- ASCII in front counts a byte for each unit. -/
theorem byteLength_append {s : JsString} (h : ∀ c ∈ s, c < 0x80) (s' : JsString) :
    byteLength (s ++ s') = s.length + byteLength s' := by
  induction s with
  | nil => simp
  | cons c s ih =>
    rw [List.cons_append, byteLength_cons (h c List.mem_cons_self), ih fun d hd => h d (List.mem_cons_of_mem c hd),
      List.length_cons]
    omega

theorem byteLength_ascii {s : JsString} (h : ∀ c ∈ s, c < 0x80) : byteLength s = s.length := by
  have happend := byteLength_append h []
  rw [List.append_nil] at happend
  exact happend

theorem length_toWellFormed (s : JsString) : (toWellFormed s).length = s.length := by
  fun_induction toWellFormed s <;> simp_all

/-- A unit that is no surrogate separates a string. -/
theorem toWellFormed_append {c : UInt16} (hh : isHighSurrogate c = false) (hl : isLowSurrogate c = false)
    (s s' : JsString) : toWellFormed (s ++ c :: s') = toWellFormed s ++ c :: toWellFormed s' := by
  fun_induction toWellFormed s with
  | case1 => exact toWellFormed_cons hh hl s'
  | case2 d h =>
    have htail : toWellFormed (c :: s') = c :: toWellFormed s' := toWellFormed_cons hh hl s'
    rw [Bool.or_eq_true] at h
    rcases h with h | h
    · simp [toWellFormed, h, hl, htail]
    · by_cases hd : isHighSurrogate d = true
      · simp [toWellFormed, hd, hl, htail]
      · simp [toWellFormed, hd, h, htail]
  | case3 d h =>
    rw [Bool.or_eq_true, not_or, Bool.not_eq_true, Bool.not_eq_true] at h
    have htail : toWellFormed (c :: s') = c :: toWellFormed s' := toWellFormed_cons hh hl s'
    simp [toWellFormed, h.1, h.2, htail]
  | case4 d e s hd he ih => simp [toWellFormed, hd, he, ih]
  | case5 d e s hd he ih => simpa [toWellFormed, hd, he] using ih
  | case6 d e s hd he ih => simpa [toWellFormed, hd, he] using ih
  | case7 d e s hd he ih => simpa [toWellFormed, hd, he] using ih

theorem wellFormed_append_iff {c : UInt16} (hh : isHighSurrogate c = false) (hl : isLowSurrogate c = false)
    {s s' : JsString} : WellFormed (s ++ c :: s') ↔ WellFormed s ∧ WellFormed s' := by
  unfold WellFormed
  rw [toWellFormed_append hh hl]
  constructor
  · intro h
    obtain ⟨hs, htail⟩ := List.append_inj h (length_toWellFormed s)
    exact ⟨hs, (List.cons.inj htail).2⟩
  · rintro ⟨hs, hs'⟩
    rw [hs, hs']

theorem wellFormed_cons_iff {c : UInt16} (hh : isHighSurrogate c = false) (hl : isLowSurrogate c = false) {s : JsString} :
    WellFormed (c :: s) ↔ WellFormed s := by
  have happend : WellFormed ([] ++ c :: s) ↔ WellFormed [] ∧ WellFormed s := wellFormed_append_iff hh hl
  rw [List.nil_append] at happend
  exact happend.trans (and_iff_right rfl)

/-- A unit of ASCII is no surrogate. -/
theorem ascii_not_surrogate {c : UInt16} (h : c < 0x80) : isHighSurrogate c = false ∧ isLowSurrogate c = false := by
  have hlt := UInt16.lt_iff_toNat_lt.mp h
  have h80 : (0x80 : UInt16).toNat = 0x80 := rfl
  have hd8 : (0xD800 : UInt16).toNat = 0xD800 := rfl
  have hdc : (0xDC00 : UInt16).toNat = 0xDC00 := rfl
  constructor
  · refine Bool.and_eq_false_iff.mpr (.inl (decide_eq_false fun hle => ?_))
    have := UInt16.le_iff_toNat_le.mp hle
    omega
  · refine Bool.and_eq_false_iff.mpr (.inl (decide_eq_false fun hle => ?_))
    have := UInt16.le_iff_toNat_le.mp hle
    omega

theorem wellFormed_ascii_append {s : JsString} (h : ∀ c ∈ s, c < 0x80) {s' : JsString} :
    WellFormed (s ++ s') ↔ WellFormed s' := by
  induction s with
  | nil => rfl
  | cons c s ih =>
    obtain ⟨hh, hl⟩ := ascii_not_surrogate (h c List.mem_cons_self)
    rw [List.cons_append, wellFormed_cons_iff hh hl, ih fun d hd => h d (List.mem_cons_of_mem c hd)]

/-! ## The parts of a name -/

/-- Where the extension of a name starts: at the last dot, unless the name begins there or is `..`. -/
def extensionIndex (name : JsString) : Option ℕ :=
  (lastIndexOf name 0x2E).filter fun i => 0 < i && name != ascii ".."

/-- `path.extname(name)`. -/
def extname (name : JsString) : JsString := (extensionIndex name).elim [] name.drop

/-- `path.basename(name, ext)`. -/
def basename (name ext : JsString) : JsString :=
  if ext.isSuffixOf name then name.take (name.length - ext.length) else name

example : extname (ascii "a.tar.GZ") = ascii ".GZ" ∧ extname (ascii ".env") = [] ∧ extname (ascii "a.") = ascii "." := by
  decide

/-- The last index of a unit that occurs: what follows it is free of the unit. -/
theorem lastIndexOf_eq_some {s : JsString} {c : UInt16} {i : ℕ} (h : lastIndexOf s c = some i) :
    i < s.length ∧ s = s.take i ++ c :: s.drop (i + 1) ∧ c ∉ s.drop (i + 1) := by
  obtain ⟨j, hj, rfl⟩ := Option.map_eq_some_iff.mp h
  obtain ⟨hlt, hget, hbefore⟩ := List.findIdx?_eq_some_iff_getElem.mp hj
  rw [List.length_reverse] at hlt
  have hi : s.length - 1 - j < s.length := by omega
  rw [List.getElem_reverse, beq_iff_eq] at hget
  refine ⟨hi, ?_, fun hmem => ?_⟩
  · rw [← hget, List.getElem_cons_drop, List.take_append_drop]
  · obtain ⟨k, hk, hkc⟩ := List.mem_iff_getElem.mp hmem
    rw [List.length_drop] at hk
    refine hbefore (s.length - 1 - (s.length - 1 - j + 1 + k)) (by omega) ?_
    rw [List.getElem_reverse, beq_iff_eq, ← hkc, List.getElem_drop]
    congr 1
    omega

theorem lastIndexOf_eq_none {s : JsString} {c : UInt16} (h : lastIndexOf s c = none) : c ∉ s := by
  intro hc
  have hnone := Option.map_eq_none_iff.mp h
  rw [List.findIdx?_eq_none_iff] at hnone
  have := hnone c (List.mem_reverse.mpr hc)
  simp at this

/-- **The parts of a name**: it has no extension and no dot after its second unit, or the extension is what the
last dot starts. -/
theorem extname_cases (name : JsString) :
    extname name = [] ∧ basename name (extname name) = name ∧ (∀ i : ℕ, name[i]? = some (0x2E : UInt16) → i < 2) ∨
      ∃ base ext, name = base ++ 0x2E :: ext ∧ extname name = 0x2E :: ext ∧
        basename name (extname name) = base ∧ 0x2E ∉ ext := by
  have hnone : extensionIndex name = none → extname name = [] ∧ basename name (extname name) = name := by
    intro h
    have hext : extname name = [] := by
      unfold extname
      rw [h]
      rfl
    rw [hext]
    refine ⟨rfl, ?_⟩
    unfold basename
    simp
  rcases hlast : lastIndexOf name 0x2E with _ | i
  · left
    have hindex : extensionIndex name = none := by
      unfold extensionIndex
      rw [hlast]
      rfl
    refine ⟨(hnone hindex).1, (hnone hindex).2, fun i hi => ?_⟩
    exact absurd (List.mem_of_getElem? hi) (lastIndexOf_eq_none hlast)
  · obtain ⟨hlt, hsplit, hafter⟩ := lastIndexOf_eq_some hlast
    by_cases hstart : (0 < i && name != ascii "..") = true
    · right
      have hindex : extensionIndex name = some i := by
        unfold extensionIndex
        rw [hlast]
        simp only [Option.filter, hstart, if_true]
      have hdrop : name.drop i = 0x2E :: name.drop (i + 1) := by
        conv_lhs => rw [hsplit]
        rw [List.drop_append_of_le_length (by rw [List.length_take]; omega), List.drop_take, Nat.sub_self,
          List.take_zero, List.nil_append]
      have hext : extname name = 0x2E :: name.drop (i + 1) := by
        unfold extname
        rw [hindex, ← hdrop]
        rfl
      refine ⟨name.take i, name.drop (i + 1), hsplit, hext, ?_, hafter⟩
      rw [hext, ← hdrop]
      unfold basename
      rw [if_pos (List.isSuffixOf_iff_suffix.mpr (List.drop_suffix i name)), List.length_drop]
      congr 1
      omega
    · left
      have hindex : extensionIndex name = none := by
        unfold extensionIndex
        rw [hlast]
        simp only [Option.filter, hstart]
        rfl
      refine ⟨(hnone hindex).1, (hnone hindex).2, fun k hk => ?_⟩
      rw [Bool.and_eq_true, not_and_or, decide_eq_true_iff, bne_iff_ne, not_not] at hstart
      have hklt : k < name.length := (List.getElem?_eq_some_iff.mp hk).1
      rcases hstart with hi | rfl
      · -- the only dot is the first unit
        by_contra hk2
        refine hafter (List.mem_iff_getElem?.mpr ⟨k - (i + 1), ?_⟩)
        rw [List.getElem?_drop, show i + 1 + (k - (i + 1)) = k by omega]
        exact hk
      · exact hklt

/-- What an extension has is in the name. -/
theorem mem_of_mem_extname {name : JsString} {c : UInt16} (h : c ∈ extname name) : c ∈ name := by
  unfold extname at h
  cases hindex : extensionIndex name with
  | none =>
    rw [hindex] at h
    exact absurd h List.not_mem_nil
  | some i =>
    rw [hindex] at h
    exact List.mem_of_mem_drop h

/-! ## Lower case -/

/-- What is used of `toLowerCase`: a dot in front stays, what is ASCII in the result is a letter or was there,
and surrogates keep their pairs. -/
structure LowerCase where
  lower : JsString → JsString
  nil : lower [] = []
  dot : ∀ s, lower (0x2E :: s) = 0x2E :: lower s
  ascii : ∀ s, ∀ c ∈ lower s, c < 0x80 → c ∈ s ∨ 0x61 ≤ c ∧ c ≤ 0x7A
  wellFormed : ∀ s, WellFormed (lower s) ↔ WellFormed s

/-- The lower case of an ASCII unit. -/
def lowerUnit (c : UInt16) : UInt16 := if 0x41 ≤ c ∧ c ≤ 0x5A then c + 0x20 else c

theorem lowerUnit_cases (c : UInt16) : lowerUnit c = c ∨ 0x61 ≤ lowerUnit c ∧ lowerUnit c ≤ 0x7A := by
  unfold lowerUnit
  split
  · right
    grind
  · exact .inl rfl

theorem wellFormed_map_lowerUnit (s : JsString) : WellFormed (s.map lowerUnit) ↔ WellFormed s := by
  have hlow (c : UInt16) : isHighSurrogate (lowerUnit c) = isHighSurrogate c ∧
      isLowSurrogate (lowerUnit c) = isLowSurrogate c ∧ (lowerUnit c = 0xFFFD ↔ c = 0xFFFD) := by
    unfold lowerUnit isHighSurrogate isLowSurrogate
    grind
  have hsurrogate (c : UInt16) (h : isHighSurrogate c = true ∨ isLowSurrogate c = true) : c ≠ 0xFFFD := by
    rintro rfl
    revert h
    decide
  unfold WellFormed
  fun_induction toWellFormed s <;> grind [toWellFormed]

/-- `toLowerCase` of strings without other letters than those of ASCII. -/
def asciiLowerCase : LowerCase where
  lower s := s.map lowerUnit
  nil := rfl
  dot _ := rfl
  ascii s c hc _ := by
    obtain ⟨d, hd, rfl⟩ := List.mem_map.mp hc
    rcases lowerUnit_cases d with h | h
    · exact .inl (h.symm ▸ hd)
    · exact .inr h
  wellFormed := wellFormed_map_lowerUnit

variable (low : LowerCase)

/-- A unit of ASCII that is no letter is in the result only if it was there. -/
theorem LowerCase.mem_of_mem_lower {s : JsString} {c : UInt16} (h : c ∈ low.lower s) (hc : c < 0x61) : c ∈ s := by
  have hlt := UInt16.lt_iff_toNat_lt.mp hc
  have h61 : (0x61 : UInt16).toNat = 0x61 := rfl
  have h80 : (0x80 : UInt16).toNat = 0x80 := rfl
  rcases low.ascii s c h (UInt16.lt_iff_toNat_lt.mpr (by omega)) with hmem | ⟨hle, -⟩
  · exact hmem
  · have := UInt16.le_iff_toNat_le.mp hle
    omega

/-! ## Names on the disk -/

/-- The units that `/[^a-zA-Z0-9._-]/g` leaves alone. -/
def isSafe (c : UInt16) : Bool :=
  (0x61 ≤ c && c ≤ 0x7A) || (0x41 ≤ c && c ≤ 0x5A) || (0x30 ≤ c && c ≤ 0x39) || c == 0x2E || c == 0x5F || c == 0x2D

/-- `baseName.replace(/[^a-zA-Z0-9._-]/g, "_")`. -/
def sanitize (baseName : JsString) : JsString := baseName.map fun c => if isSafe c then c else 0x5F

/-- `${safeBase}_${unique}${ext.toLowerCase()}`. -/
def diskName (name unique : JsString) : JsString :=
  let ext := extname name
  sanitize (basename name ext) ++ 0x5F :: (unique ++ low.lower ext)

def generateSafeFilename (originalName unique : JsString) : JsString := diskName low originalName unique

/-- The name of a published object: the identifier of the attempt alone where the file system would not take
the other. -/
def finalName (uploadId filename : JsString) : JsString :=
  let diskName := diskName low filename uploadId
  if byteLength diskName > 255 then uploadId ++ ascii ".upload" else diskName

theorem isSafe_ascii {c : UInt16} (h : isSafe c = true) : c < 0x80 ∧ c ≠ 0x2F ∧ c ≠ 0x5C ∧ c ≠ 0 := by
  have hlt : c < 0x80 := by
    simp only [isSafe, Bool.or_eq_true, Bool.and_eq_true, decide_eq_true_eq, beq_iff_eq] at h
    grind
  refine ⟨hlt, ?_, ?_, ?_⟩ <;>
  · rintro rfl
    revert h
    decide

/-- **What replacing leaves.** -/
theorem mem_sanitize {c : UInt16} {baseName : JsString} (h : c ∈ sanitize baseName) : isSafe c = true := by
  obtain ⟨d, -, rfl⟩ := List.mem_map.mp h
  split
  · assumption
  · rfl

/-- A suffix: of the given length, lower-case hexadecimal digits, dashes and dots. -/
structure Suffix (n : ℕ) where
  val : JsString
  length_eq : val.length = n
  units : ∀ c ∈ val, (0x30 ≤ c ∧ c ≤ 0x39) ∨ (0x61 ≤ c ∧ c ≤ 0x66) ∨ c = 0x2D ∨ c = 0x2E

namespace Suffix

variable {n : ℕ} (u : Suffix n)

theorem isSafe_of_mem {c : UInt16} (h : c ∈ u.val) : isSafe c = true ∧ c ≠ 0x5F := by
  have := u.units c h
  constructor
  · simp only [isSafe, Bool.or_eq_true, Bool.and_eq_true, decide_eq_true_eq, beq_iff_eq]
    grind
  · rintro rfl
    revert this
    decide

theorem ascii {c : UInt16} (h : c ∈ u.val) : c < 0x80 := (isSafe_ascii (u.isSafe_of_mem h).1).1

/-- The underscore separates a suffix from the name. -/
theorem not_mem : (0x5F : UInt16) ∉ u.val := fun h => (u.isSafe_of_mem h).2 rfl

end Suffix

variable {n : ℕ}

/-- **The length of a name on the disk.** -/
theorem byteLength_diskName (name : JsString) (u : Suffix n) :
    byteLength (diskName low name u.val) =
      (basename name (extname name)).length + 1 + n + byteLength (low.lower (extname name)) := by
  have hsafe : ∀ c ∈ sanitize (basename name (extname name)), c < 0x80 := fun c hc =>
    (isSafe_ascii (mem_sanitize hc)).1
  unfold diskName
  rw [byteLength_append hsafe, byteLength_cons (by decide), byteLength_append fun c hc => u.ascii hc, u.length_eq]
  unfold sanitize
  rw [List.length_map]
  omega

/-- What is published fits. -/
theorem byteLength_finalName (hn : n ≤ 248) (filename : JsString) (u : Suffix n) :
    byteLength (finalName low u.val filename) ≤ 255 := by
  unfold finalName
  simp only
  split
  · rw [byteLength_append fun c hc => u.ascii hc, u.length_eq]
    have hupload : byteLength (ascii ".upload") = 7 := by decide
    omega
  · omega

theorem not_mem_final (u : Suffix n) : (0x5F : UInt16) ∉ u.val ++ ascii ".upload" := by
  intro h
  rcases List.mem_append.mp h with h | h
  · exact u.not_mem h
  · revert h
    decide

/-! ## The suffix can be read off -/

/-- The units after a name's extension. -/
theorem lower_extname_dot {name : JsString} {i : ℕ} (h : (low.lower (extname name))[i]? = some (0x2E : UInt16)) :
    i = 0 := by
  rcases extname_cases name with ⟨hext, -, -⟩ | ⟨base, ext, -, hext, -, hfree⟩
  · rw [hext, low.nil] at h
    cases h
  · rw [hext, low.dot] at h
    cases i with
    | zero => rfl
    | succ i => exact absurd (low.mem_of_mem_lower (List.mem_of_getElem? h) (by decide)) hfree

theorem diskName_getElem? (name : JsString) (u : Suffix n) (i : ℕ) :
    (diskName low name u.val)[(basename name (extname name)).length + 1 + i]? =
      (u.val ++ low.lower (extname name))[i]? := by
  unfold diskName
  have hlen : (sanitize (basename name (extname name))).length = (basename name (extname name)).length :=
    List.length_map _
  rw [List.getElem?_append_right (by omega), hlen, Nat.add_assoc, Nat.add_sub_cancel_left, Nat.add_comm 1 i]
  exact List.getElem?_cons_succ

theorem length_diskName (name : JsString) (u : Suffix n) :
    (diskName low name u.val).length =
      (basename name (extname name)).length + 1 + n + (low.lower (extname name)).length := by
  unfold diskName sanitize
  rw [List.length_append, List.length_map, List.length_cons, List.length_append, u.length_eq]
  omega

variable {low}

/-- Two names of one object have extensions of one length. -/
theorem length_lower_le (hn : 0 < n) {name name' : JsString} {u u' : Suffix n}
    (h : diskName low name u.val = diskName low name' u'.val) :
    (low.lower (extname name')).length ≤ (low.lower (extname name)).length := by
  by_contra hlt
  rw [not_le] at hlt
  have hlength := congrArg List.length h
  rw [length_diskName, length_diskName] at hlength
  have hget := fun i : ℕ => congrArg (fun l : JsString => l[i]?) h
  -- the longer extension begins with a dot
  have hdot : (diskName low name' u'.val)[(basename name' (extname name')).length + 1 + n]? = some 0x2E := by
    rw [diskName_getElem?, List.getElem?_append_right u'.length_eq.le, u'.length_eq, Nat.sub_self]
    rcases extname_cases name' with ⟨hext, -, -⟩ | ⟨base, ext, -, hext, -, -⟩
    · rw [hext, low.nil] at hlt
      exact absurd hlt (Nat.not_lt_zero _)
    · rw [hext, low.dot]
      rfl
  rcases extname_cases name with ⟨hext, hbase, hdots⟩ | ⟨base, ext, -, hext, -, -⟩
  · rw [hext, low.nil, List.length_nil] at hlength hlt
    rw [← hext, hbase] at hlength
    rcases lt_or_ge ((basename name' (extname name')).length + 1 + n) name.length with hp | hp
    · -- the dot would be one of the name
      have hname : (diskName low name u.val)[(basename name' (extname name')).length + 1 + n]? =
          (sanitize name)[(basename name' (extname name')).length + 1 + n]? := by
        unfold diskName
        simp only [hbase]
        exact List.getElem?_append_left (by unfold sanitize; rw [List.length_map]; exact hp)
      rw [← h, hname] at hdot
      unfold sanitize at hdot
      rw [List.getElem?_map] at hdot
      obtain ⟨c, hc, hcdot⟩ := Option.map_eq_some_iff.mp hdot
      have hcc : c = 0x2E := by
        by_cases hsafe : isSafe c = true
        · rwa [if_pos hsafe] at hcdot
        · rw [if_neg hsafe] at hcdot
          exact absurd hcdot (by decide)
      have := hdots _ (hcc ▸ hc)
      omega
    · -- the underscore of the one would be in the suffix of the other
      have hunder : (diskName low name u.val)[name.length]? = some 0x5F := by
        unfold diskName
        simp only [hbase]
        have hlen : (sanitize name).length = name.length := List.length_map _
        rw [List.getElem?_append_right hlen.le, hlen, Nat.sub_self]
        rfl
      have hne : name.length ≠ (basename name' (extname name')).length + 1 + n := by
        intro heq
        rw [h, heq, hdot] at hunder
        exact absurd hunder (by decide)
      obtain ⟨i, hi, hin⟩ : ∃ i, name.length = (basename name' (extname name')).length + 1 + i ∧ i < n :=
        ⟨name.length - ((basename name' (extname name')).length + 1), by omega, by omega⟩
      rw [h, hi, diskName_getElem?, List.getElem?_append_left (by rw [u'.length_eq]; exact hin)] at hunder
      exact u'.not_mem (List.mem_of_getElem? hunder)
  · -- the shorter extension would begin inside the longer
    have hdot' : (diskName low name u.val)[(basename name (extname name)).length + 1 + n]? = some 0x2E := by
      rw [diskName_getElem?, List.getElem?_append_right u.length_eq.le, u.length_eq, Nat.sub_self, hext, low.dot]
      rfl
    obtain ⟨i, hi⟩ : ∃ i, (basename name (extname name)).length + 1 + n =
        (basename name' (extname name')).length + 1 + (n + i) :=
      ⟨(basename name (extname name)).length - (basename name' (extname name')).length, by omega⟩
    rw [h, hi, diskName_getElem?, List.getElem?_append_right (by rw [u'.length_eq]; omega), u'.length_eq,
      Nat.add_sub_cancel_left] at hdot'
    have := lower_extname_dot low hdot'
    omega

/-- **The suffix can be read off the name**, whatever the files were called. -/
theorem suffix_eq_of_diskName_eq (hn : 0 < n) {name name' : JsString} {u u' : Suffix n}
    (h : diskName low name u.val = diskName low name' u'.val) : u.val = u'.val := by
  have hext : (low.lower (extname name)).length = (low.lower (extname name')).length :=
    le_antisymm (length_lower_le hn h.symm) (length_lower_le hn h)
  have hlength := congrArg List.length h
  rw [length_diskName, length_diskName] at hlength
  have hbase : (basename name (extname name)).length = (basename name' (extname name')).length := by omega
  unfold diskName sanitize at h
  have htail := (List.append_inj h (by rw [List.length_map, List.length_map, hbase])).2
  exact (List.append_inj (List.cons.inj htail).2 (u.length_eq.trans u'.length_eq.symm)).1

theorem suffix_eq_of_finalName_eq (hn : 0 < n) {name name' : JsString} {u u' : Suffix n}
    (h : finalName low u.val name = finalName low u'.val name') : u.val = u'.val := by
  have hmem (name : JsString) (u : Suffix n) : (0x5F : UInt16) ∈ diskName low name u.val :=
    List.mem_append_right _ List.mem_cons_self
  unfold finalName at h
  simp only at h
  split at h
  · split at h
    · exact (List.append_inj h (u.length_eq.trans u'.length_eq.symm)).1
    · exact absurd (h ▸ hmem name' u') (not_mem_final u)
  · split at h
    · exact absurd (h ▸ hmem name u) (not_mem_final u')
    · exact suffix_eq_of_diskName_eq hn h

end Storage

end HomeCloud
