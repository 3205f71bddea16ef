import HomeCloud.Storage.DiskNames

/-!
# Numbered names

A name that is taken is cut by UTF-16 units to make room for a number before its extension.

* `stem`, `extension`, `suffix`, `candidate_eq`: the parts of a numbered name.
* `candidate_injective`: the number can be read off.
* `splits`, `wellFormed_take`: where a cut leaves half of a pair.
* `First`, `chooseName_eq_some`: which name is chosen.
* **`names_iff`**: when the chosen name is as it should be.
-/

namespace HomeCloud

namespace NumberedNames

open Storage

/-! ## The parts of a numbered name -/

section

variable (kind : EntryKind) (requested : JsString) (index : ℕ)

def extension : JsString := (extensionStart kind requested).elim [] requested.drop

def stem : JsString := (extensionStart kind requested).elim requested requested.take

def suffix : JsString := [0x20, 0x28] ++ decimal index ++ [0x29]

/-- How much of the extension is kept at most. -/
def extensionCut : ℕ := 255 - (suffix index).length - 1

def safeExtension : JsString := (extension kind requested).take (extensionCut index)

/-- How much of the stem is kept at most. -/
def stemCut : ℕ := 255 - (suffix index).length - (safeExtension kind requested index).length

theorem candidate_eq : candidate kind requested index =
    (stem kind requested).take (stemCut kind requested index) ++ suffix index ++ safeExtension kind requested index :=
  rfl

/-- There is no extension, or the last dot starts it. -/
theorem extension_cases : (extension kind requested = [] ∧ stem kind requested = requested) ∨
    ∃ ext, extension kind requested = 0x2E :: ext ∧ 0x2E ∉ ext ∧ requested = stem kind requested ++ 0x2E :: ext ∧
      stem kind requested ≠ [] := by
  unfold extension stem
  cases hstart : extensionStart kind requested with
  | none => exact .inl ⟨rfl, rfl⟩
  | some i =>
    refine .inr ?_
    have hlast : lastIndexOf requested 0x2E = some i ∧ 0 < i := by
      cases kind with
      | folder => cases hstart
      | file =>
        obtain ⟨hlast, hpos⟩ := Option.filter_eq_some_iff.mp hstart
        exact ⟨hlast, of_decide_eq_true hpos⟩
    obtain ⟨hlt, hsplit, hafter⟩ := lastIndexOf_eq_some hlast.1
    have hdrop : requested.drop i = 0x2E :: requested.drop (i + 1) := by
      rw [List.drop_eq_getElem_cons hlt]
      have hget := congrArg (fun l : JsString => l[i]?) hsplit
      have hlength : (requested.take i).length = i := by
        rw [List.length_take]
        omega
      simp only [List.getElem?_append_right hlength.le, hlength, Nat.sub_self, List.getElem?_cons_zero,
        List.getElem?_eq_getElem hlt] at hget
      rw [Option.some.inj hget]
    refine ⟨requested.drop (i + 1), hdrop, hafter, hsplit, fun hnil => ?_⟩
    have hlength := congrArg List.length hnil
    simp only [Option.elim_some, List.length_take, List.length_nil] at hlength
    omega

variable {index}

/-- The numbers that are tried have five digits at most. -/
theorem length_suffix (h : index ≤ 10000) : 4 ≤ (suffix index).length ∧ (suffix index).length ≤ 8 := by
  unfold suffix decimal
  have hle := (Nat.length_toDigits_le_iff (b := 10) (n := index) (k := 5) (by decide) (by decide)).mpr (by omega)
  have hpos := Nat.length_toDigits_pos (b := 10) (n := index)
  simp only [List.length_append, List.length_cons, List.length_nil, List.length_map]
  omega

/-- **A numbered name** has 1 to 255 units. -/
theorem length_candidate (h : index ≤ 10000) :
    1 ≤ (candidate kind requested index).length ∧ (candidate kind requested index).length ≤ 255 := by
  have hsuffix := length_suffix h
  have hext : (safeExtension kind requested index).length ≤ extensionCut index := List.length_take_le _ _
  unfold extensionCut at hext
  rw [candidate_eq]
  simp only [List.length_append, List.length_take, stemCut]
  omega

/-- It ends with the extension when there is room for that. -/
theorem extension_suffix (hroom : (extension kind requested).length + (suffix index).length < 255) :
    extension kind requested <:+ candidate kind requested index := by
  have hkept : safeExtension kind requested index = extension kind requested := by
    unfold safeExtension extensionCut
    rw [List.take_of_length_le]
    omega
  rw [candidate_eq, hkept]
  exact List.suffix_append _ _

end

/-! ## Reading the number -/

/-- The last of a unit separates a string in one way. -/
theorem append_cons_inj {c : UInt16} {s s' t t' : JsString} (ht : c ∉ t) (ht' : c ∉ t')
    (h : s ++ c :: t = s' ++ c :: t') : s = s' ∧ t = t' := by
  rcases List.append_eq_append_iff.mp h with ⟨a, hs, hc⟩ | ⟨a, hs, hc⟩
  · cases a with
    | nil => exact ⟨by rw [hs, List.append_nil], (List.cons.inj hc).2⟩
    | cons b a =>
      have hmem : c ∈ t := (List.cons.inj hc).2 ▸ List.mem_append_right a List.mem_cons_self
      exact absurd hmem ht
  · cases a with
    | nil => exact ⟨by rw [hs, List.append_nil], (List.cons.inj hc).2.symm⟩
    | cons b a =>
      have hmem : c ∈ t' := (List.cons.inj hc).2 ▸ List.mem_append_right a List.mem_cons_self
      exact absurd hmem ht'

/-- The characters of a number, from its units. -/
theorem map_decimal (n : ℕ) : (decimal n).map (fun c => Char.ofNat c.toNat) = Nat.toDigits 10 n := by
  unfold decimal
  rw [List.map_map]
  conv_rhs => rw [← List.map_id (Nat.toDigits 10 n)]
  refine List.map_congr_left fun d hd => ?_
  have hdigit := Nat.isDigit_of_mem_toDigits (by decide) (by decide) hd
  simp only [Char.isDigit, Bool.and_eq_true, decide_eq_true_eq] at hdigit
  have hle := UInt32.le_iff_toNat_le.mp hdigit.2
  have h57 : '9'.val.toNat = 57 := rfl
  have hval : d.val.toUInt16.toNat = d.toNat := by
    rw [UInt32.toNat_toUInt16, Nat.mod_eq_of_lt (by omega)]
    rfl
  rw [Function.comp_apply, hval, Char.ofNat_toNat, id]

theorem decimal_injective {i j : ℕ} (h : decimal i = decimal j) : i = j := by
  have hchars : Nat.toDigits 10 i = Nat.toDigits 10 j := by rw [← map_decimal, ← map_decimal, h]
  calc
    i = Nat.ofDigitChars 10 (Nat.toDigits 10 i) 0 := Nat.ofDigitChars_ten_toDigits.symm
    _ = Nat.ofDigitChars 10 (Nat.toDigits 10 j) 0 := by rw [hchars]
    _ = j := Nat.ofDigitChars_ten_toDigits

theorem not_mem_decimal {n : ℕ} {c : UInt16} (hc : c < 0x30) : c ∉ decimal n := by
  intro hmem
  obtain ⟨d, hd, rfl⟩ := List.mem_map.mp hmem
  have hdigit := Nat.isDigit_of_mem_toDigits (by decide) (by decide) hd
  simp only [Char.isDigit, Bool.and_eq_true, decide_eq_true_eq] at hdigit
  have hle := UInt32.le_iff_toNat_le.mp hdigit.1
  have hge := UInt32.le_iff_toNat_le.mp hdigit.2
  have h48 : '0'.val.toNat = 48 := rfl
  have h57 : '9'.val.toNat = 57 := rfl
  have hlt := UInt16.lt_iff_toNat_lt.mp hc
  rw [UInt32.toNat_toUInt16, Nat.mod_eq_of_lt (by omega)] at hlt
  have h30 : (0x30 : UInt16).toNat = 48 := rfl
  omega

/-- The number at the end of a string can be read off. -/
theorem index_eq_of_append_suffix {i j : ℕ} {s s' : JsString} (h : s ++ suffix i = s' ++ suffix j) : i = j := by
  unfold suffix at h
  have hshape : s ++ ([0x20, 0x28] ++ decimal i) ++ [0x29] = s' ++ ([0x20, 0x28] ++ decimal j) ++ [0x29] := by
    simpa [List.append_assoc] using h
  have hend := (List.append_inj' hshape rfl).1
  have hsplit : (s ++ [0x20]) ++ 0x28 :: decimal i = (s' ++ [0x20]) ++ 0x28 :: decimal j := by
    simpa [List.append_assoc] using hend
  exact decimal_injective (append_cons_inj (not_mem_decimal (by decide)) (not_mem_decimal (by decide)) hsplit).2

/-- **Different numbers make different names.** -/
theorem candidate_injective {kind : EntryKind} {requested : JsString} {i j : ℕ} (hi : i ≤ 10000) (hj : j ≤ 10000)
    (h : candidate kind requested i = candidate kind requested j) : i = j := by
  rw [candidate_eq, candidate_eq] at h
  rcases extension_cases kind requested with ⟨hnone, -⟩ | ⟨ext, hext, hfree, -, -⟩
  · unfold safeExtension at h
    rw [hnone, List.take_nil, List.take_nil, List.append_nil, List.append_nil] at h
    exact index_eq_of_append_suffix h
  · -- The last dot of the name is that of the extension.
    have hkept (k : ℕ) (hk : k ≤ 10000) :
        safeExtension kind requested k = 0x2E :: ext.take (extensionCut k - 1) := by
      have hsuffix := length_suffix hk
      unfold safeExtension
      rw [hext]
      obtain ⟨m, hm⟩ : ∃ m, extensionCut k = m + 1 := ⟨extensionCut k - 1, by unfold extensionCut; omega⟩
      rw [hm, List.take_succ_cons, Nat.add_sub_cancel]
    rw [hkept i hi, hkept j hj] at h
    have hfree' (k : ℕ) : (0x2E : UInt16) ∉ ext.take (extensionCut k - 1) := fun hmem => hfree (List.mem_of_mem_take hmem)
    exact index_eq_of_append_suffix (append_cons_inj (hfree' i) (hfree' j) h).1

/-! ## Cuts -/

/-- A cut after `k` units leaves half of a pair on each side. -/
def splits (s : JsString) (k : ℕ) : Bool := k ≠ 0 && s[k - 1]?.any isHighSurrogate && s[k]?.any isLowSurrogate

theorem splits_cons_succ (c : UInt16) (s : JsString) {k : ℕ} (hk : k ≠ 0) : splits (c :: s) (k + 1) = splits s k := by
  obtain ⟨m, rfl⟩ := Nat.exists_eq_succ_of_ne_zero hk
  simp [splits]

theorem wellFormed_pair_iff {c d : UInt16} (hh : isHighSurrogate c = true) (hl : isLowSurrogate d = true) {s : JsString} :
    WellFormed (c :: d :: s) ↔ WellFormed s := by
  unfold WellFormed
  simp [toWellFormed, hh, hl]

/-- A lone surrogate is not stored as it is. -/
theorem not_wellFormed_cons {c : UInt16} {s : JsString} (hc : isHighSurrogate c = true ∨ isLowSurrogate c = true)
    (hlone : isHighSurrogate c = false ∨ s.head?.any isLowSurrogate = false) : ¬WellFormed (c :: s) := by
  have hne : (0xFFFD : UInt16) ≠ c := by
    rintro rfl
    rw [replacement_not_surrogate.1, replacement_not_surrogate.2] at hc
    simp at hc
  intro h
  unfold WellFormed at h
  cases s with
  | nil =>
    have hor : (isHighSurrogate c || isLowSurrogate c) = true := by simpa using hc
    rw [toWellFormed, if_pos hor] at h
    exact hne (List.cons.inj h).1
  | cons d s =>
    by_cases hh : isHighSurrogate c = true
    · have hd : ¬isLowSurrogate d = true := by simpa [hh] using hlone
      rw [toWellFormed, if_pos hh, if_neg hd] at h
      exact hne (List.cons.inj h).1
    · rw [toWellFormed, if_neg hh, if_pos (hc.resolve_left hh)] at h
      exact hne (List.cons.inj h).1

/-- **Where a well-formed string can be cut.** -/
theorem wellFormed_take {s : JsString} (h : WellFormed s) (k : ℕ) : WellFormed (s.take k) ↔ splits s k = false := by
  fun_induction toWellFormed s generalizing k with
  | case1 => exact iff_of_true (by rw [List.take_nil]; rfl) (by simp [splits])
  | case2 c hc =>
    rw [Bool.or_eq_true] at hc
    exact absurd h (not_wellFormed_cons hc (.inr rfl))
  | case3 c hc =>
    have hsplits : splits [c] k = false := by cases k <;> simp [splits]
    refine iff_of_true ?_ hsplits
    cases k with
    | zero => rfl
    | succ k =>
      rw [List.take_succ_cons, List.take_nil]
      exact h
  | case4 c d s hc hd ih =>
    rw [wellFormed_pair_iff hc hd] at h
    rcases k with _ | _ | k
    · exact iff_of_true rfl (by simp [splits])
    · refine iff_of_false ?_ (by simp [splits, hc, hd])
      exact not_wellFormed_cons (.inl hc) (.inr rfl)
    · rw [List.take_succ_cons, List.take_succ_cons, wellFormed_pair_iff hc hd, ih h k]
      cases k with
      | zero =>
        have hhigh : isHighSurrogate d = false := by
          by_contra hhigh
          rw [high_not_low (by simpa using hhigh)] at hd
          cases hd
        simp [splits, hhigh]
      | succ k => rw [splits_cons_succ c _ (Nat.succ_ne_zero _), splits_cons_succ d s (Nat.succ_ne_zero k)]
  | case5 c d s hc hd ih => exact absurd h (not_wellFormed_cons (.inl hc) (.inr (by simpa using hd)))
  | case6 c d s hc hd ih => exact absurd h (not_wellFormed_cons (.inr hd) (.inl (by simpa using hc)))
  | case7 c d s hc hd ih =>
    have hh : isHighSurrogate c = false := by simpa using hc
    have hl : isLowSurrogate c = false := by simpa using hd
    rw [wellFormed_cons_iff hh hl] at h
    cases k with
    | zero => exact iff_of_true rfl (by simp [splits])
    | succ k =>
      rw [List.take_succ_cons, wellFormed_cons_iff hh hl, ih h k]
      cases k with
      | zero => simp [splits, hh]
      | succ k => rw [splits_cons_succ c (d :: s) (Nat.succ_ne_zero k)]

/-- Neither cut of a numbered name splits a pair. -/
def Uncut (kind : EntryKind) (requested : JsString) (index : ℕ) : Prop :=
  splits (stem kind requested) (stemCut kind requested index) = false ∧
    splits (extension kind requested) (extensionCut index) = false

theorem suffix_ascii {index : ℕ} : ∀ c ∈ suffix index, c < 0x80 := by
  intro c hc
  unfold suffix at hc
  rcases List.mem_append.mp hc with hc | hc
  · rcases List.mem_append.mp hc with hc | hc
    · simp only [List.mem_cons, List.not_mem_nil, or_false] at hc
      rcases hc with rfl | rfl <;> decide
    · obtain ⟨d, hd, rfl⟩ := List.mem_map.mp hc
      have hdigit := Nat.isDigit_of_mem_toDigits (by decide) (by decide) hd
      simp only [Char.isDigit, Bool.and_eq_true, decide_eq_true_eq] at hdigit
      have hge := UInt32.le_iff_toNat_le.mp hdigit.2
      have h57 : '9'.val.toNat = 57 := rfl
      have h80 : (0x80 : UInt16).toNat = 128 := rfl
      rw [UInt16.lt_iff_toNat_lt, UInt32.toNat_toUInt16, Nat.mod_eq_of_lt (by omega)]
      omega
  · rw [List.mem_singleton.mp hc]
    decide

/-- **When a numbered name is well formed.** -/
theorem wellFormed_candidate {kind : EntryKind} {requested : JsString} (h : WellFormed requested) (index : ℕ) :
    WellFormed (candidate kind requested index) ↔ Uncut kind requested index := by
  have hspace : isHighSurrogate 0x20 = false ∧ isLowSurrogate 0x20 = false := ascii_not_surrogate (by decide)
  have hdot : isHighSurrogate 0x2E = false ∧ isLowSurrogate 0x2E = false := ascii_not_surrogate (by decide)
  have hparts : WellFormed (stem kind requested) ∧ WellFormed (extension kind requested) := by
    rcases extension_cases kind requested with ⟨hnone, hstem⟩ | ⟨ext, hext, -, hsplit, -⟩
    · rw [hnone, hstem]
      exact ⟨h, rfl⟩
    · rw [hsplit, wellFormed_append_iff hdot.1 hdot.2] at h
      rw [hext, wellFormed_cons_iff hdot.1 hdot.2]
      exact h
  have hsuffix : suffix index = 0x20 :: (0x28 :: decimal index ++ [0x29]) := rfl
  have htail : ∀ c ∈ (0x28 :: decimal index ++ [0x29] : JsString), c < 0x80 := fun c hc =>
    suffix_ascii c (hsuffix ▸ List.mem_cons_of_mem 0x20 hc)
  rw [candidate_eq, hsuffix, List.append_assoc, List.cons_append, wellFormed_append_iff hspace.1 hspace.2,
    wellFormed_ascii_append htail]
  exact and_congr (wellFormed_take hparts.1 _) (wellFormed_take hparts.2 _)

/-! ## The name that is chosen -/

/-- The first number whose name is free. -/
structure First (kind : EntryKind) (requested : JsString) (occupied : List JsString) (index : ℕ) : Prop where
  pos : 1 ≤ index
  le : index ≤ 10000
  free : candidate kind requested index ∉ occupied
  before : ∀ j, 1 ≤ j → j < index → candidate kind requested j ∈ occupied

section

variable {kind : EntryKind} {requested name : JsString} {occupied : List JsString}

theorem chooseName_eq_some (h : requested ∈ occupied) : chooseName kind requested occupied = some name ↔
    ∃ index, First kind requested occupied index ∧ name = candidate kind requested index := by
  unfold chooseName
  rw [if_pos h, List.find?_map]
  simp only [Option.map_eq_some_iff, List.find?_range_eq_some, Function.comp_apply, decide_eq_true_eq, Bool.not_eq_true',
    decide_eq_false_iff_not, not_not, List.mem_range]
  constructor
  · rintro ⟨i, ⟨hfree, hlt, hbefore⟩, rfl⟩
    refine ⟨i + 1, ⟨by omega, by omega, hfree, fun j hj hji => ?_⟩, rfl⟩
    have := hbefore (j - 1) (by omega)
    rwa [Nat.sub_add_cancel hj] at this
  · rintro ⟨index, ⟨hpos, hle, hfree, hbefore⟩, rfl⟩
    refine ⟨index - 1, ⟨?_, by omega, fun j hj => hbefore (j + 1) (by omega) (by omega)⟩, ?_⟩
    · rwa [Nat.sub_add_cancel hpos]
    · rw [Nat.sub_add_cancel hpos]

theorem chooseName_eq_none (h : chooseName kind requested occupied = none) :
    requested ∈ occupied ∧ ∀ i, 1 ≤ i → i ≤ 10000 → candidate kind requested i ∈ occupied := by
  unfold chooseName at h
  split at h
  · next hmem =>
    refine ⟨hmem, fun i hi hle => ?_⟩
    have := List.find?_eq_none.mp h (candidate kind requested i)
      (List.mem_map.mpr ⟨i - 1, List.mem_range.mpr (by omega), by rw [Nat.sub_add_cancel hi]⟩)
    simpa using this
  · cases h

/-- What is to hold of the name: the requested one if it is free, else a well-formed one of 1 to 255 units that is
free, with the same extension if there is room; different numbers make different names, and it fails only when all
of them are taken. -/
structure Allocates (kind : EntryKind) (requested : JsString) (occupied : List JsString) : Prop where
  free : requested ∉ occupied → chooseName kind requested occupied = some requested
  chosen : requested ∈ occupied → ∀ name, chooseName kind requested occupied = some name →
    WellFormed name ∧ 1 ≤ name.length ∧ name.length ≤ 255 ∧ name ∉ occupied ∧
      ∃ index, 1 ≤ index ∧ index ≤ 10000 ∧ name = candidate kind requested index ∧
        ((extension kind requested).length + (suffix index).length < 255 → extension kind requested <:+ name)
  distinct : ∀ i j, 1 ≤ i → i ≤ 10000 → 1 ≤ j → j ≤ 10000 →
    candidate kind requested i = candidate kind requested j → i = j
  fails : chooseName kind requested occupied = none →
    requested ∈ occupied ∧ ∀ i, 1 ≤ i → i ≤ 10000 → candidate kind requested i ∈ occupied

theorem allocates_iff (h : WellFormed requested) : Allocates kind requested occupied ↔
    (requested ∈ occupied → ∀ index, First kind requested occupied index → Uncut kind requested index) := by
  constructor
  · intro hall hmem index hfirst
    have hchosen := hall.chosen hmem _ ((chooseName_eq_some hmem).mpr ⟨index, hfirst, rfl⟩)
    exact (wellFormed_candidate h index).mp hchosen.1
  · intro huncut
    refine ⟨fun hfree => if_neg hfree, fun hmem name hname => ?_, fun i j _ hi _ hj => candidate_injective hi hj,
      chooseName_eq_none⟩
    obtain ⟨index, hfirst, rfl⟩ := (chooseName_eq_some hmem).mp hname
    have hlength := length_candidate kind requested hfirst.le
    exact ⟨(wellFormed_candidate h index).mpr (huncut hmem index hfirst), hlength.1, hlength.2, hfirst.free, index,
      hfirst.pos, hfirst.le, rfl, extension_suffix kind requested⟩

/-- **When a name is allocated as it should be**: exactly when the first free number does not cut a pair in two; for
all sets of occupied names, when no number does. -/
theorem names_iff (kind : EntryKind) (requested : JsString) (hwell : WellFormed requested) :
    (∀ occupied, Allocates kind requested occupied ↔
      (requested ∈ occupied → ∀ index, First kind requested occupied index → Uncut kind requested index)) ∧
    ((∀ occupied, Allocates kind requested occupied) ↔ ∀ index, 1 ≤ index → index ≤ 10000 → Uncut kind requested index) := by
  refine ⟨fun occupied => allocates_iff hwell, fun hall index hi hi' => ?_, fun huncut occupied => ?_⟩
  · -- The names with smaller numbers are occupied.
    let occupied := requested :: (List.range (index - 1)).map fun j => candidate kind requested (j + 1)
    have hmem (j : ℕ) (hj : 1 ≤ j) (hlt : j < index) : candidate kind requested j ∈ occupied :=
      List.mem_cons_of_mem _ (List.mem_map.mpr ⟨j - 1, List.mem_range.mpr (by omega), by rw [Nat.sub_add_cancel hj]⟩)
    by_cases hnew : candidate kind requested index ∈ occupied
    · rcases List.mem_cons.mp hnew with heq | hold
      · rw [← wellFormed_candidate hwell, heq]
        exact hwell
      · obtain ⟨j, hj, heq⟩ := List.mem_map.mp hold
        rw [List.mem_range] at hj
        have := candidate_injective (by omega) hi' heq
        omega
    · exact (allocates_iff hwell).mp (hall occupied) List.mem_cons_self index ⟨hi, hi', hnew, hmem⟩
  · exact (allocates_iff hwell).mpr fun _ index hfirst => huncut index hfirst.pos hfirst.le

/-- A name of 252 units whose last two are a pair. -/
def pairAtCut : JsString := List.replicate 250 0x61 ++ [0xD83D, 0xDE00]

theorem names_of_short : (∀ occupied, Allocates .file [0x61, 0x2E, 0x62] occupied) ↔
    ∀ index, 1 ≤ index → index ≤ 10000 → Uncut .file [0x61, 0x2E, 0x62] index :=
  (names_iff .file [0x61, 0x2E, 0x62] (by decide)).2

/-- **A name that is cut in a pair** is not stored as it was chosen. -/
theorem pair_cut_in_two : ¬∀ (kind : EntryKind) (requested : JsString) (occupied : List JsString), WellFormed requested →
    1 ≤ requested.length → requested.length ≤ 255 → Allocates kind requested occupied := by
  intro hall
  have hgood := hall .file pairAtCut [pairAtCut] (by decide +kernel) (by decide +kernel) (by decide +kernel)
  have hname : chooseName .file pairAtCut [pairAtCut] = some (candidate .file pairAtCut 1) := by
    refine (chooseName_eq_some List.mem_cons_self).mpr ⟨1, ⟨le_rfl, by decide, by decide +kernel, fun j hj hlt => ?_⟩, rfl⟩
    omega
  exact absurd (hgood.chosen List.mem_cons_self _ hname).1 (by decide +kernel)

end

end NumberedNames

end HomeCloud
