import HomeCloud.Javascript.Digits
import HomeCloud.Storage.DiskNames

/-!
# Ranges of a download

The two parsers of a `Range` header, and what the header asks for.

* `exec`, `exec_eq_some`: the positions in the text of a header.
* `parseRangeHeader`, `parseDownloadRange`: the parser of shared downloads, and that of private ones.
* `Wants`: what a text asks for of a file.
* **`ranges_agree`**: the parsers agree, and a range is what the header asks for.
-/

namespace HomeCloud

namespace Ranges

open Javascript

/-! ## The two parsers -/

inductive RangeParseResult where
  | none
  | range (start stop : ℚ)
  | unsatisfiable
  deriving DecidableEq

/-- `/^bytes=(\d*)-(\d*)$/.exec(text)`. -/
def exec (text : JsString) : Option (JsString × JsString) :=
  if Storage.ascii "bytes=" <+: text then
    let rest := text.drop 6
    match rest.dropWhile isDigit with
    | [] => none
    | c :: stop => if c = 0x2D ∧ stop.all isDigit then some (rest.takeWhile isDigit, stop) else none
  else none

/-- The positions that a shared download asks for. -/
def headerPositions (fileSize : ℚ) (startStr endStr : JsString) : Option (ℚ × ℚ) :=
  if startStr.isEmpty then
    let suffix := number endStr
    if !isSafeInteger suffix || suffix ≤ 0 then none
    else if suffix ≥ fileSize then some (0, fileSize - 1)
    else some (fileSize - suffix, fileSize - 1)
  else
    let start := number startStr
    let stop := if endStr.isEmpty then fileSize - 1 else number endStr
    if !isSafeInteger start || !isSafeInteger stop then none else some (start, stop)

/-- The positions that a private download asks for. -/
def downloadPositions (fileSize : ℚ) (startText endText : JsString) : Option (ℚ × ℚ) :=
  if startText.isEmpty then
    let suffix := number endText
    if !isSafeInteger suffix || suffix ≤ 0 || fileSize = 0 then none
    else some (if suffix ≥ fileSize then 0 else fileSize - suffix, fileSize - 1)
  else
    let start := number startText
    let stop := if endText.isEmpty then fileSize - 1 else number endText
    if !isSafeInteger start || !isSafeInteger stop || fileSize = 0 then none else some (start, stop)

/-- The last checks of a shared download, which clamp the range to the file. -/
def headerRange (fileSize start stop : ℚ) : RangeParseResult :=
  if start < 0 || stop < 0 then .unsatisfiable
  else if start > stop then .unsatisfiable
  else if fileSize = 0 then .unsatisfiable
  else if start ≥ fileSize then .unsatisfiable
  else if stop ≥ fileSize then .range start (fileSize - 1)
  else .range start stop

def downloadRange (fileSize start stop : ℚ) : RangeParseResult :=
  if start < 0 || stop < 0 || start > stop || start ≥ fileSize then .unsatisfiable
  else .range start (if stop ≥ fileSize then fileSize - 1 else stop)

/-- The file size of a call is none if it is not finite; a header that is absent or blank asks for nothing. -/
def parseRangeHeader (rangeHeader : Option JsString) (fileSize : Option ℚ) : RangeParseResult :=
  match fileSize with
  | none => .unsatisfiable
  | some fileSize =>
    if !isSafeInteger fileSize || fileSize < 0 then .unsatisfiable
    else
      match rangeHeader with
      | none => .none
      | some header =>
        if header.isEmpty || (trim header).isEmpty then .none
        else
          match exec (trim header) with
          | none => .unsatisfiable
          | some (startStr, endStr) =>
            match headerPositions fileSize startStr endStr with
            | none => .unsatisfiable
            | some (start, stop) => headerRange fileSize start stop

def parseDownloadRange (rangeHeader : Option JsString) (fileSize : Option ℚ) : RangeParseResult :=
  match fileSize with
  | none => .unsatisfiable
  | some fileSize =>
    if !isSafeInteger fileSize || fileSize < 0 then .unsatisfiable
    else
      match rangeHeader with
      | none => .none
      | some header =>
        if header.isEmpty || (trim header).isEmpty then .none
        else
          match exec (trim header) with
          | none => .unsatisfiable
          | some (startText, endText) =>
            match downloadPositions fileSize startText endText with
            | none => .unsatisfiable
            | some (start, stop) => downloadRange fileSize start stop

/-! ## What a header asks for -/

/-- A single range of bytes, with the digits of its two positions. -/
structure Single (text start stop : JsString) : Prop where
  text : text = Storage.ascii "bytes=" ++ (start ++ 0x2D :: stop)
  start : ∀ c ∈ start, isDigit c = true
  stop : ∀ c ∈ stop, isDigit c = true

/-- The first and the last byte that a text asks for of a file of `size` bytes: those of a range up to the end of the
file, those from a position on, or so many last ones. The positions are safe integers, and the first is in the file. -/
inductive Wants (size : ℕ) (text : JsString) : ℕ → ℕ → Prop where
  | between (start stop : JsString) : Single text start stop → start ≠ [] → stop ≠ [] →
      digitsValue stop < 2 ^ 53 → digitsValue start ≤ digitsValue stop → digitsValue start < size →
      Wants size text (digitsValue start) (min (digitsValue stop) (size - 1))
  | onwards (start : JsString) : Single text start [] → start ≠ [] → digitsValue start < size →
      Wants size text (digitsValue start) (size - 1)
  | last (n : JsString) : Single text [] n → 0 < digitsValue n → digitsValue n < 2 ^ 53 → 0 < size →
      Wants size text (size - digitsValue n) (size - 1)

/-- **What is asked for is in the file.** -/
theorem Wants.bounds {size first last : ℕ} {text : JsString} (h : Wants size text first last) : first ≤ last ∧ last < size := by
  cases h with
  | between start stop _ _ _ _ hle hlt => omega
  | onwards start _ _ hlt => omega
  | last n _ hpos _ hsize => omega

theorem Wants.single {size a b : ℕ} {text : JsString} (h : Wants size text a b) : ∃ first last, Single text first last := by
  cases h with
  | between first last hsingle => exact ⟨first, last, hsingle⟩
  | onwards first hsingle => exact ⟨first, [], hsingle⟩
  | last n hsingle => exact ⟨[], n, hsingle⟩

theorem takeWhile_digits {start rest : JsString} (h : ∀ c ∈ start, isDigit c = true) :
    (start ++ 0x2D :: rest).takeWhile isDigit = start ∧ (start ++ 0x2D :: rest).dropWhile isDigit = 0x2D :: rest := by
  have hdash : isDigit 0x2D = false := by decide
  rw [List.takeWhile_append_of_pos h, List.dropWhile_append_of_pos h, List.takeWhile_cons, List.dropWhile_cons, hdash]
  exact ⟨List.append_nil start, rfl⟩

/-- **The text of a single range.** -/
theorem exec_eq_some {text start stop : JsString} : exec text = some (start, stop) ↔ Single text start stop := by
  unfold exec
  constructor
  · intro h
    split_ifs at h with hprefix
    obtain ⟨rest, rfl⟩ := hprefix
    have hdrop : (Storage.ascii "bytes=" ++ rest).drop 6 = rest := List.drop_left' rfl
    rw [hdrop] at h
    dsimp only at h
    cases hrest : rest.dropWhile isDigit with
    | nil =>
      rw [hrest] at h
      cases h
    | cons c stop' =>
      rw [hrest] at h
      dsimp only at h
      split_ifs at h with hc
      obtain ⟨rfl, rfl⟩ := Prod.mk.inj (Option.some.inj h)
      refine ⟨?_, List.all_eq_true.mp List.all_takeWhile, List.all_eq_true.mp hc.2⟩
      rw [← hc.1, ← hrest, List.takeWhile_append_dropWhile]
  · rintro ⟨rfl, hstart, hstop⟩
    have hdrop : (Storage.ascii "bytes=" ++ (start ++ 0x2D :: stop)).drop 6 = start ++ 0x2D :: stop := List.drop_left' rfl
    obtain ⟨htake, hrest⟩ := @takeWhile_digits start stop hstart
    rw [if_pos (List.prefix_append _ _), hdrop]
    dsimp only
    rw [hrest, htake]
    dsimp only
    rw [if_pos ⟨rfl, List.all_eq_true.mpr hstop⟩]

/-! ## The outcome -/

section

variable {rangeHeader : Option JsString} {fileSize : Option ℚ} {header text first last : JsString} {size a b : ℕ}
  {start stop : ℚ}

/-- The two parsers check the same, in another order. -/
theorem parseRangeHeader_eq (rangeHeader : Option JsString) (fileSize : Option ℚ) :
    parseRangeHeader rangeHeader fileSize = parseDownloadRange rangeHeader fileSize := by
  unfold parseRangeHeader parseDownloadRange
  cases fileSize with
  | none => rfl
  | some fileSize =>
    dsimp only
    by_cases hsize : (!isSafeInteger fileSize || fileSize < 0) = true
    · rw [if_pos hsize, if_pos hsize]
    rw [if_neg hsize, if_neg hsize]
    simp only [Bool.or_eq_true, decide_eq_true_eq, not_or, not_lt] at hsize
    have hnonneg := hsize.2
    cases rangeHeader with
    | none => rfl
    | some header =>
      dsimp only
      by_cases hempty : (header.isEmpty || (trim header).isEmpty) = true
      · rw [if_pos hempty, if_pos hempty]
      rw [if_neg hempty, if_neg hempty]
      cases exec (trim header) with
      | none => rfl
      | some positions =>
        obtain ⟨first, last⟩ := positions
        dsimp only
        unfold headerPositions downloadPositions headerRange downloadRange
        by_cases hfirst : first.isEmpty = true
        · rw [if_pos hfirst, if_pos hfirst]
          grind
        · rw [if_neg hfirst, if_neg hfirst]
          grind

/-- The text determines the positions. -/
theorem Single.unique {first' last' : JsString} (h : Single text first last) (h' : Single text first' last') :
    first' = first ∧ last' = last := by
  have heq := (exec_eq_some.mpr h').symm.trans (exec_eq_some.mpr h)
  exact Prod.mk.inj (Option.some.inj heq)

/-- The positions of a range that may be longer than the file. -/
inductive Positions (size : ℕ) (first last : JsString) : ℕ → ℕ → Prop where
  | between : first ≠ [] → last ≠ [] → digitsValue first < 2 ^ 53 → digitsValue last < 2 ^ 53 →
      Positions size first last (digitsValue first) (digitsValue last)
  | onwards : first ≠ [] → last = [] → digitsValue first < 2 ^ 53 → Positions size first last (digitsValue first) (size - 1)
  | last : first = [] → 0 < digitsValue last → digitsValue last < 2 ^ 53 →
      Positions size first last (size - digitsValue last) (size - 1)

theorem number_safe (digits : JsString) : (isSafeInteger (number digits) = true ∧ digitsValue digits < 2 ^ 53 ∧
    number digits = digitsValue digits) ∨ (isSafeInteger (number digits) = false ∧ ¬digitsValue digits < 2 ^ 53) := by
  by_cases h : digitsValue digits < 2 ^ 53
  · exact .inl ⟨isSafeInteger_number.mpr h, h, number_eq h⟩
  · exact .inr ⟨Bool.eq_false_iff.mpr fun hsafe => h (isSafeInteger_number.mp hsafe), h⟩

theorem positions_nil : Positions size [] last a b ↔
    0 < digitsValue last ∧ digitsValue last < 2 ^ 53 ∧ a = size - digitsValue last ∧ b = size - 1 := by
  constructor
  · intro h
    cases h with
    | between hne => exact absurd rfl hne
    | onwards hne => exact absurd rfl hne
    | last _ hpos hlt => exact ⟨hpos, hlt, rfl, rfl⟩
  · rintro ⟨hpos, hlt, rfl, rfl⟩
    exact .last rfl hpos hlt

theorem positions_of_ne (hne : first ≠ []) : Positions size first last a b ↔ digitsValue first < 2 ^ 53 ∧ a = digitsValue first ∧
    ((last = [] ∧ b = size - 1) ∨ (last ≠ [] ∧ digitsValue last < 2 ^ 53 ∧ b = digitsValue last)) := by
  constructor
  · intro h
    cases h with
    | between _ hlast hlt hlt' => exact ⟨hlt, rfl, .inr ⟨hlast, hlt', rfl⟩⟩
    | onwards _ hlast hlt => exact ⟨hlt, rfl, .inl ⟨hlast, rfl⟩⟩
    | last hnil => exact absurd hnil hne
  · rintro ⟨hlt, rfl, ⟨hlast, rfl⟩ | ⟨hlast, hlt', rfl⟩⟩
    · exact .onwards hne hlast hlt
    · exact .between hne hlast hlt hlt'

/-- The last bytes of a file. -/
theorem downloadPositions_nil (hpos : 0 < size) : downloadPositions size [] last = some (start, stop) ↔
    ∃ a b : ℕ, Positions size [] last a b ∧ start = a ∧ stop = b := by
  have hend : (size : ℚ) - 1 = (size - 1 : ℕ) := by rw [Nat.cast_sub hpos, Nat.cast_one]
  have hstart : (if (digitsValue last : ℚ) ≥ size then 0 else (size : ℚ) - digitsValue last) =
      (size - digitsValue last : ℕ) := by
    split_ifs with hlong
    · rw [Nat.sub_eq_zero_of_le (Nat.cast_le.mp hlong), Nat.cast_zero]
    · rw [Nat.cast_sub (Nat.cast_lt.mp (not_le.mp hlong)).le]
  unfold downloadPositions
  rw [List.isEmpty_nil, if_pos rfl, hend]
  simp only [positions_nil]
  rcases number_safe last with ⟨hsafe, hlt, heq⟩ | ⟨hsafe, hlt⟩
  · rw [hsafe, heq, hstart]
    rcases Nat.eq_zero_or_pos (digitsValue last) with hzero | hlast
    · rw [if_pos (by simp [hzero])]
      exact iff_of_false nofun fun ⟨_, _, h, _⟩ => absurd hzero h.1.ne'
    · rw [if_neg (by simp [hlast.ne', hpos.ne']), Option.some.injEq, Prod.mk.injEq]
      constructor
      · rintro ⟨rfl, rfl⟩
        exact ⟨_, _, ⟨hlast, hlt, rfl, rfl⟩, rfl, rfl⟩
      · rintro ⟨a, b, ⟨-, -, rfl, rfl⟩, rfl, rfl⟩
        exact ⟨rfl, rfl⟩
  · rw [hsafe, if_pos (by simp)]
    exact iff_of_false nofun fun ⟨_, _, h, _⟩ => hlt h.2.1

/-- The bytes from a position on. -/
theorem downloadPositions_of_ne (hsize : size < 2 ^ 53) (hpos : 0 < size) (hne : first ≠ []) :
    downloadPositions size first last = some (start, stop) ↔
      ∃ a b : ℕ, Positions size first last a b ∧ start = a ∧ stop = b := by
  have hend : (size : ℚ) - 1 = (size - 1 : ℕ) := by rw [Nat.cast_sub hpos, Nat.cast_one]
  have hsafeend : isSafeInteger ((size - 1 : ℕ) : ℚ) = true := isSafeInteger_natCast.mpr (by omega)
  unfold downloadPositions
  rw [List.isEmpty_eq_false_iff.mpr hne, if_neg Bool.false_ne_true, hend]
  simp only [positions_of_ne hne]
  rcases number_safe first with ⟨hsafe, hlt, heq⟩ | ⟨hsafe, hlt⟩
  · rw [hsafe, heq]
    by_cases hlast : last = []
    · subst hlast
      rw [List.isEmpty_nil, if_pos rfl, hsafeend, if_neg (by simp [hpos.ne']), Option.some.injEq, Prod.mk.injEq]
      constructor
      · rintro ⟨rfl, rfl⟩
        exact ⟨_, _, ⟨hlt, rfl, .inl ⟨rfl, rfl⟩⟩, rfl, rfl⟩
      · rintro ⟨a, b, ⟨-, rfl, ⟨-, rfl⟩ | ⟨habsurd, -⟩⟩, rfl, rfl⟩
        · exact ⟨rfl, rfl⟩
        · exact absurd rfl habsurd
    · rw [List.isEmpty_eq_false_iff.mpr hlast, if_neg Bool.false_ne_true]
      rcases number_safe last with ⟨hsafe', hlt', heq'⟩ | ⟨hsafe', hlt'⟩
      · rw [hsafe', heq', if_neg (by simp [hpos.ne']), Option.some.injEq, Prod.mk.injEq]
        constructor
        · rintro ⟨rfl, rfl⟩
          exact ⟨_, _, ⟨hlt, rfl, .inr ⟨hlast, hlt', rfl⟩⟩, rfl, rfl⟩
        · rintro ⟨a, b, ⟨-, rfl, ⟨habsurd, -⟩ | ⟨-, -, rfl⟩⟩, rfl, rfl⟩
          · exact absurd habsurd hlast
          · exact ⟨rfl, rfl⟩
      · rw [hsafe', if_pos (by simp)]
        refine iff_of_false nofun ?_
        rintro ⟨a, b, ⟨-, -, ⟨habsurd, -⟩ | ⟨-, hlt, -⟩⟩, -⟩
        · exact hlast habsurd
        · exact hlt' hlt
  · rw [hsafe, if_pos (by simp)]
    exact iff_of_false nofun fun ⟨_, _, h, _⟩ => hlt h.1

/-- **The positions that are read**, none of an empty file. -/
theorem downloadPositions_eq_some (hsize : size < 2 ^ 53) : downloadPositions size first last = some (start, stop) ↔
    0 < size ∧ ∃ a b : ℕ, Positions size first last a b ∧ start = a ∧ stop = b := by
  rcases Nat.eq_zero_or_pos size with rfl | hpos
  · refine iff_of_false ?_ fun h => absurd h.1 (lt_irrefl 0)
    unfold downloadPositions
    split_ifs <;> simp
  rw [and_iff_right hpos]
  by_cases hfirst : first = []
  · rw [hfirst]
    exact downloadPositions_nil hpos
  · exact downloadPositions_of_ne hsize hpos hfirst

/-- **The range is clamped to the file.** -/
theorem downloadRange_eq_range (hpos : 0 < size) : downloadRange size a b = .range start stop ↔
    a ≤ b ∧ a < size ∧ start = a ∧ stop = (min b (size - 1) : ℕ) := by
  have hneg (n : ℕ) : ¬(n : ℚ) < 0 := not_lt.mpr (Nat.cast_nonneg n)
  have hmin : (if (b : ℚ) ≥ size then (size : ℚ) - 1 else b) = (min b (size - 1) : ℕ) := by
    split_ifs with hb
    · have hb' : size ≤ b := Nat.cast_le.mp hb
      rw [min_eq_right (by omega), Nat.cast_sub hpos, Nat.cast_one]
    · have hb' : b < size := Nat.cast_lt.mp (not_le.mp hb)
      rw [min_eq_left (by omega)]
  unfold downloadRange
  by_cases hlt : a < size
  · by_cases hle : a ≤ b
    · rw [if_neg (by simp [hneg, hle, hlt]), hmin, RangeParseResult.range.injEq]
      exact ⟨fun h => ⟨hle, hlt, h.1.symm, h.2.symm⟩, fun h => ⟨h.2.2.1.symm, h.2.2.2.symm⟩⟩
    · rw [if_pos (by simp [not_le.mp hle])]
      exact iff_of_false nofun fun h => hle h.1
  · rw [if_pos (by simp [not_lt.mp hlt])]
    exact iff_of_false nofun fun h => hlt h.2.1

/-- A text asks for its positions, in the file. -/
theorem wants_iff (h : Single text first last) (hsize : size < 2 ^ 53) {c : ℕ} : Wants size text a c ↔
    ∃ b, Positions size first last a b ∧ 0 < size ∧ a ≤ b ∧ a < size ∧ c = min b (size - 1) := by
  constructor
  · intro hwants
    cases hwants with
    | between start stop hsingle hstart hstop hlt hle hin =>
      obtain ⟨rfl, rfl⟩ := h.unique hsingle
      exact ⟨_, .between hstart hstop (by omega) hlt, by omega, hle, hin, rfl⟩
    | onwards start hsingle hstart hin =>
      obtain ⟨rfl, hnil⟩ := h.unique hsingle
      exact ⟨_, .onwards hstart hnil.symm (by omega), by omega, by omega, hin, (min_self _).symm⟩
    | last n hsingle hpos hlt hin =>
      obtain ⟨hnil, rfl⟩ := h.unique hsingle
      exact ⟨_, .last hnil.symm hpos hlt, hin, by omega, by omega, (min_self _).symm⟩
  · rintro ⟨b, hpositions, hpos, hle, hin, rfl⟩
    cases hpositions with
    | between hfirst hlast hlt hlt' => exact .between first last h hfirst hlast hlt' hle hin
    | onwards hfirst hlast hlt =>
      subst hlast
      rw [min_self]
      exact .onwards first h hfirst hin
    | last hfirst hlast hlt =>
      subst hfirst
      rw [min_self]
      exact .last last h hlast hlt hpos

/-- **A range is what the text asks for.** -/
theorem parseDownloadRange_iff (hsize : size < 2 ^ 53) : parseDownloadRange (some header) (some size) = .range start stop ↔
    ∃ a b : ℕ, Wants size (trim header) a b ∧ start = a ∧ stop = b := by
  have hsafe : isSafeInteger (size : ℚ) = true := isSafeInteger_natCast.mpr hsize
  have hnonneg : ¬(size : ℚ) < 0 := not_lt.mpr (Nat.cast_nonneg size)
  unfold parseDownloadRange
  dsimp only
  rw [if_neg (by simp [hsafe])]
  cases hexec : exec (trim header) with
  | none =>
    refine iff_of_false (fun h => ?_) ?_
    · split_ifs at h
    · rintro ⟨a, b, hwants, -, -⟩
      obtain ⟨first, last, hsingle⟩ := hwants.single
      rw [exec_eq_some.mpr hsingle] at hexec
      cases hexec
  | some positions =>
    obtain ⟨first, last⟩ := positions
    have hsingle := exec_eq_some.mp hexec
    have htrim : (trim header).isEmpty = false := by
      rw [hsingle.text]
      rfl
    have hheader : header.isEmpty = false := by
      cases header with
      | nil => cases htrim
      | cons c header => rfl
    rw [if_neg (by simp [htrim, hheader])]
    simp only [wants_iff hsingle hsize]
    constructor
    · intro h
      cases hpositions : downloadPositions size first last with
      | none =>
        rw [hpositions] at h
        cases h
      | some x =>
        obtain ⟨hpos, a, b, hab, hx, hy⟩ := (downloadPositions_eq_some hsize).mp hpositions
        rw [hpositions] at h
        dsimp only at h
        rw [hx, hy, downloadRange_eq_range hpos] at h
        exact ⟨a, _, ⟨b, hab, hpos, h.1, h.2.1, rfl⟩, h.2.2⟩
    · rintro ⟨a, c, ⟨b, hab, hpos, hle, hin, rfl⟩, rfl, rfl⟩
      rw [(downloadPositions_eq_some hsize).mpr ⟨hpos, a, b, hab, rfl, rfl⟩]
      exact (downloadRange_eq_range hpos).mpr ⟨hle, hin, rfl, rfl⟩

/-- **The two parsers of a range** agree on every header and every file size; they find a range exactly when the trimmed
header asks for one, and then it is that, clamped to the file. -/
theorem ranges_agree (rangeHeader : Option JsString) (fileSize : Option ℚ) :
    parseRangeHeader rangeHeader fileSize = parseDownloadRange rangeHeader fileSize ∧
    (∀ start stop, parseRangeHeader rangeHeader fileSize = .range start stop ↔ ∃ (header : JsString) (size first last : ℕ),
      rangeHeader = some header ∧ fileSize = some (size : ℚ) ∧ size < 2 ^ 53 ∧ Wants size (trim header) first last ∧
        start = first ∧ stop = last) ∧
    ∀ start stop, parseRangeHeader rangeHeader fileSize = .range start stop →
      ∃ size, fileSize = some size ∧ 0 ≤ start ∧ start ≤ stop ∧ stop < size := by
  have hrange : ∀ start stop, parseRangeHeader rangeHeader fileSize = .range start stop ↔
      ∃ (header : JsString) (size first last : ℕ), rangeHeader = some header ∧ fileSize = some (size : ℚ) ∧ size < 2 ^ 53 ∧
        Wants size (trim header) first last ∧ start = first ∧ stop = last := by
    intro start stop
    rw [parseRangeHeader_eq]
    constructor
    · intro h
      cases fileSize with
      | none => cases h
      | some fileSize =>
        cases rangeHeader with
        | none =>
          unfold parseDownloadRange at h
          dsimp only at h
          split_ifs at h
        | some header =>
          by_cases hvalid : isSafeInteger fileSize = true ∧ 0 ≤ fileSize
          · obtain ⟨size, rfl, hsize⟩ := exists_of_isSafeInteger hvalid.1 hvalid.2
            obtain ⟨first, last, hwants, hstart, hstop⟩ := (parseDownloadRange_iff hsize).mp h
            exact ⟨header, size, first, last, rfl, rfl, hsize, hwants, hstart, hstop⟩
          · unfold parseDownloadRange at h
            dsimp only at h
            rw [if_pos (by simpa [or_iff_not_imp_left] using hvalid)] at h
            cases h
    · rintro ⟨header, size, first, last, rfl, rfl, hsize, hwants, hstart, hstop⟩
      exact (parseDownloadRange_iff hsize).mpr ⟨first, last, hwants, hstart, hstop⟩
  refine ⟨parseRangeHeader_eq rangeHeader fileSize, hrange, fun start stop h => ?_⟩
  obtain ⟨header, size, first, last, -, rfl, -, hwants, rfl, rfl⟩ := (hrange start stop).mp h
  exact ⟨size, rfl, Nat.cast_nonneg first, Nat.cast_le.mpr hwants.bounds.1, Nat.cast_lt.mpr hwants.bounds.2⟩

end

end Ranges

end HomeCloud
