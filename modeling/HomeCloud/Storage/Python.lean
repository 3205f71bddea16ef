import HomeCloud.Storage.ObjectKeys
import Mathlib.Data.List.Sort

/-!
# Python's strings

What the scripts use to take texts apart, and what comes out of a text that was put together from lines.

* `Python`: what is used of numbers and of the order of strings.
* `splitlines`, `strip`, `split1`: the operations.
* `splitlines_flatMap`, **`mem_splitlines`**: the lines of a text; what follows a line break is a line.
* `records_flatMap`: the lines of a dump.
-/

namespace HomeCloud

/-- What is used of Python: `int` reads decimal numbers, and strings have an order. -/
structure Python where
  int : JsString → Option ℤ
  less : JsString → JsString → Bool
  int_decimal : ∀ n : ℕ, int (decimal n) = some (n : ℤ)

namespace Python

/-- `str.isspace` of one unit. -/
def isSpace (c : UInt16) : Bool :=
  (9 ≤ c && c ≤ 13) || (0x1C ≤ c && c ≤ 0x20) || c == 0x85 || c == 0xA0 || c == 0x1680 || (0x2000 ≤ c && c ≤ 0x200A) ||
    c == 0x2028 || c == 0x2029 || c == 0x202F || c == 0x205F || c == 0x3000

/-- Where `str.splitlines` splits. -/
def isLineBreak (c : UInt16) : Bool :=
  (10 ≤ c && c ≤ 13) || (0x1C ≤ c && c ≤ 0x1E) || c == 0x85 || c == 0x2028 || c == 0x2029

/-- The lines of the rest of a text, with the line that has begun, after a carriage return or not. -/
def splitlinesFrom (afterReturn : Bool) (line : JsString) : JsString → List JsString
  | [] => if line.isEmpty then [] else [line]
  | c :: s =>
    if afterReturn && c == 0x0A then splitlinesFrom false [] s
    else if isLineBreak c then line :: splitlinesFrom (c == 0x0D) [] s
    else splitlinesFrom false (line ++ [c]) s

/-- `s.splitlines()`. -/
def splitlines (s : JsString) : List JsString := splitlinesFrom false [] s

/-- `s.strip()`. -/
def strip (s : JsString) : JsString := ((s.dropWhile isSpace).reverse.dropWhile isSpace).reverse

/-- `s.split(None, 1)`. -/
def split1 (s : JsString) : List JsString :=
  let s := s.dropWhile isSpace
  let rest := (s.dropWhile fun c => !isSpace c).dropWhile isSpace
  if s.isEmpty then []
  else if rest.isEmpty then [s.takeWhile fun c => !isSpace c]
  else [s.takeWhile fun c => !isSpace c, rest]

/-- The lines of the output of a query that are not empty. -/
def records (stdout : JsString) : List JsString := (((strip stdout).splitOn 0x0A).map strip).filter (· ≠ [])

/-! ## Lines -/

/-- A text within one line. -/
def Unbroken (s : JsString) : Prop := ∀ c ∈ s, isLineBreak c = false

instance (s : JsString) : Decidable (Unbroken s) :=
  decidable_of_iff (s.all fun c => !isLineBreak c) (by simp [Unbroken, List.all_eq_true])

theorem splitlinesFrom_line {l : JsString} (h : Unbroken l) (line s : JsString) :
    splitlinesFrom false line (l ++ 0x0A :: s) = (line ++ l) :: splitlines s := by
  induction l generalizing line with
  | nil =>
    rw [List.nil_append, List.append_nil, splitlinesFrom]
    rfl
  | cons c l ih =>
    have hc : isLineBreak c = false := h c List.mem_cons_self
    rw [List.cons_append, splitlinesFrom, Bool.false_and, if_neg Bool.false_ne_true, hc, if_neg Bool.false_ne_true,
      ih (fun d hd => h d (List.mem_cons_of_mem c hd)), List.append_assoc, List.singleton_append]

/-- The lines that a text was made of. -/
theorem splitlines_flatMap {ls : List JsString} (h : ∀ l ∈ ls, Unbroken l) :
    splitlines (ls.flatMap (· ++ [0x0A])) = ls := by
  induction ls with
  | nil => rfl
  | cons l ls ih =>
    have hline := splitlinesFrom_line (h l List.mem_cons_self) [] (ls.flatMap (· ++ [0x0A]))
    rw [List.flatMap_cons, List.append_assoc, List.singleton_append, splitlines, hline, List.nil_append,
      ih fun l' hl' => h l' (List.mem_cons_of_mem l hl')]

theorem mem_splitlinesFrom {b : UInt16} {l : JsString} (hb : isLineBreak b = true) (hne : b ≠ 0x0D) (hl : Unbroken l)
    (afterReturn : Bool) (line s s' : JsString) : l ∈ splitlinesFrom afterReturn line (s ++ b :: (l ++ 0x0A :: s')) := by
  have hnext : l ∈ splitlinesFrom false [] (l ++ 0x0A :: s') := by
    rw [splitlinesFrom_line hl]
    exact List.mem_cons_self
  induction s generalizing afterReturn line with
  | nil =>
    have hreturn : (b == 0x0D) = false := beq_eq_false_iff_ne.mpr hne
    rw [List.nil_append, splitlinesFrom, hb, hreturn, if_pos rfl]
    split
    · exact hnext
    · exact List.mem_cons_of_mem line hnext
  | cons c s ih =>
    rw [List.cons_append, splitlinesFrom]
    split
    · exact ih false []
    · split
      · exact List.mem_cons_of_mem line (ih _ [])
      · exact ih false _

/-- **What follows a line break is a line**, up to the end of the line that it is in. -/
theorem mem_splitlines {b : UInt16} {l : JsString} (hb : isLineBreak b = true) (hne : b ≠ 0x0D) (hl : Unbroken l)
    (s s' : JsString) : l ∈ splitlines (s ++ b :: (l ++ 0x0A :: s')) :=
  mem_splitlinesFrom hb hne hl false [] s s'

/-- What follows the last line break. -/
theorem exists_last_break {s : JsString} (h : ¬Unbroken s) :
    ∃ a b l, s = a ++ b :: l ∧ isLineBreak b = true ∧ Unbroken l := by
  induction s with
  | nil => exact absurd (fun c hc => absurd hc List.not_mem_nil) h
  | cons c s ih =>
    by_cases hs : Unbroken s
    · refine ⟨[], c, s, rfl, ?_, hs⟩
      by_contra hc
      exact h fun d hd => (List.mem_cons.mp hd).elim (fun heq => heq ▸ eq_false_of_ne_true hc) (hs d)
    · obtain ⟨a, b, l, rfl, hb, hl⟩ := ih hs
      exact ⟨c :: a, b, l, rfl, hb, hl⟩

theorem unbroken_splitlinesFrom (afterReturn : Bool) {line : JsString} (hline : Unbroken line) (s : JsString) :
    ∀ l ∈ splitlinesFrom afterReturn line s, Unbroken l := by
  have hnil : Unbroken [] := fun c hc => absurd hc List.not_mem_nil
  induction s generalizing afterReturn line with
  | nil =>
    intro l hl
    rw [splitlinesFrom] at hl
    split at hl
    · cases hl
    · rwa [List.mem_singleton.mp hl]
  | cons c s ih =>
    rw [splitlinesFrom]
    split
    · exact ih false hnil
    · split
      · exact List.forall_mem_cons.mpr ⟨hline, ih _ hnil⟩
      · next hc =>
        refine ih false fun d hd => ?_
        rcases List.mem_append.mp hd with hd | hd
        · exact hline d hd
        · rw [List.mem_singleton.mp hd]
          exact eq_false_of_ne_true hc

/-- Every line is one. -/
theorem unbroken_splitlines {s l : JsString} (h : l ∈ splitlines s) : Unbroken l :=
  unbroken_splitlinesFrom false (List.forall_mem_nil _) s l h

/-! ## Records -/

/-- A line as it is printed: it is not empty, and there is no space around it and no new line in it. -/
structure Printed (s : JsString) : Prop where
  first : ∃ c l, s = c :: l ∧ isSpace c = false
  last : ∃ l c, s = l ++ [c] ∧ isSpace c = false
  newline : 0x0A ∉ s

theorem Printed.ne_nil {s : JsString} (h : Printed s) : s ≠ [] := by
  obtain ⟨c, l, rfl, -⟩ := h.first
  exact List.cons_ne_nil c l

theorem strip_eq {s : JsString} (hfirst : ∃ c l, s = c :: l ∧ isSpace c = false)
    (hlast : ∃ l c, s = l ++ [c] ∧ isSpace c = false) {spaces : JsString} (hspaces : ∀ c ∈ spaces, isSpace c = true) :
    strip (s ++ spaces) = s := by
  have hfront : (s ++ spaces).dropWhile isSpace = s ++ spaces := by
    obtain ⟨c, l, rfl, hc⟩ := hfirst
    rw [List.cons_append, List.dropWhile_cons, hc, if_neg Bool.false_ne_true]
  have hback : (s ++ spaces).reverse.dropWhile isSpace = s.reverse := by
    obtain ⟨l, c, rfl, hc⟩ := hlast
    rw [List.reverse_append, List.dropWhile_append_of_pos fun d hd => hspaces d (List.mem_reverse.mp hd),
      List.reverse_append, List.reverse_singleton, List.singleton_append, List.dropWhile_cons, hc,
      if_neg Bool.false_ne_true]
  unfold strip
  rw [hfront, hback, List.reverse_reverse]

theorem Printed.strip {s : JsString} (h : Printed s) : strip s = s := by
  have : HomeCloud.Python.strip (s ++ []) = s := strip_eq h.first h.last fun c hc => absurd hc List.not_mem_nil
  rwa [List.append_nil] at this

/-- **The records that were printed** are read. -/
theorem records_flatMap {rows : List JsString} (h : ∀ r ∈ rows, Printed r) :
    records (rows.flatMap (· ++ [0x0A])) = rows := by
  cases rows with
  | nil => rfl
  | cons r rows =>
    have htext : ∀ (r : JsString) (rows : List JsString), (r :: rows).flatMap (· ++ [0x0A]) =
        [0x0A].intercalate (r :: rows) ++ [0x0A] := by
      intro r rows
      induction rows generalizing r with
      | nil => simp [List.intercalate]
      | cons r' rows ih =>
        rw [List.flatMap_cons, ih r']
        simp [List.intercalate]
    have hends : ∀ (r : JsString) (rows : List JsString), (∀ x ∈ r :: rows, Printed x) →
        (∃ c l, [0x0A].intercalate (r :: rows) = c :: l ∧ isSpace c = false) ∧
        ∃ l c, [0x0A].intercalate (r :: rows) = l ++ [c] ∧ isSpace c = false := by
      intro r rows
      induction rows generalizing r with
      | nil =>
        intro hall
        have hr := hall r List.mem_cons_self
        have hone : [0x0A].intercalate [r] = r := by simp [List.intercalate]
        rw [hone]
        exact ⟨hr.first, hr.last⟩
      | cons r' rows ih =>
        intro hall
        have hcons : [0x0A].intercalate (r :: r' :: rows) = r ++ 0x0A :: [0x0A].intercalate (r' :: rows) := by
          simp [List.intercalate]
        obtain ⟨c, l, hr, hc⟩ := (hall r List.mem_cons_self).first
        obtain ⟨-, l', c', hl, hc'⟩ := ih r' fun x hx => hall x (List.mem_cons_of_mem r hx)
        rw [hcons]
        exact ⟨⟨c, l ++ 0x0A :: [0x0A].intercalate (r' :: rows), by rw [hr, List.cons_append], hc⟩,
          ⟨r ++ 0x0A :: l', c', by rw [hl, List.append_assoc, List.cons_append], hc'⟩⟩
    obtain ⟨hfirst, hlast⟩ := hends r rows h
    unfold records
    rw [htext, strip_eq hfirst hlast fun c hc => List.mem_singleton.mp hc ▸ rfl,
      List.splitOn_intercalate 0x0A (fun l hl => (h l hl).newline) (List.cons_ne_nil r rows),
      List.map_congr_left fun l hl => (h l hl).strip, List.map_id']
    exact List.filter_eq_self.mpr fun l hl => decide_eq_true (h l hl).ne_nil

/-! ## Fields -/

/-- Decimal digits are no spaces. -/
theorem isSpace_decimal {n : ℕ} {c : UInt16} (h : c ∈ decimal n) : isSpace c = false := by
  have hc := Storage.mem_decimal h
  simp only [UInt16.le_iff_toNat_le, UInt16.reduceToNat] at hc
  simp only [isSpace, Bool.or_eq_false_iff, Bool.and_eq_false_iff, decide_eq_false_iff_not, beq_eq_false_iff_ne,
    UInt16.le_iff_toNat_le, ne_eq, ← UInt16.toNat_inj, UInt16.reduceToNat]
  omega

theorem isLineBreak_decimal {n : ℕ} {c : UInt16} (h : c ∈ decimal n) : isLineBreak c = false := by
  have hc := Storage.mem_decimal h
  simp only [isLineBreak, Bool.or_eq_false_iff, Bool.and_eq_false_iff, decide_eq_false_iff_not, beq_eq_false_iff_ne]
  grind

/-- A number and what follows it. -/
theorem split1_decimal (n : ℕ) {c : UInt16} (hc : isSpace c = false) (s : JsString) :
    split1 (decimal n ++ 0x20 :: c :: s) = [decimal n, c :: s] := by
  have hdigits : ∀ d ∈ decimal n, (!isSpace d) = true := fun d hd => by rw [isSpace_decimal hd]; rfl
  obtain ⟨d, ds, hd⟩ := List.exists_cons_of_ne_nil (Storage.component_decimal n).ne_nil
  have hfront : (decimal n ++ 0x20 :: c :: s).dropWhile isSpace = decimal n ++ 0x20 :: c :: s := by
    rw [hd, List.cons_append, List.dropWhile_cons, isSpace_decimal (n := n) (hd ▸ List.mem_cons_self),
      if_neg Bool.false_ne_true]
  have htake : (decimal n ++ 0x20 :: c :: s).takeWhile (fun c => !isSpace c) = decimal n := by
    rw [List.takeWhile_append_of_pos hdigits]
    exact List.append_nil _
  have hdrop : ((decimal n ++ 0x20 :: c :: s).dropWhile fun c => !isSpace c).dropWhile isSpace = c :: s := by
    rw [List.dropWhile_append_of_pos hdigits]
    show (0x20 :: c :: s : JsString).dropWhile isSpace = c :: s
    have hspace : isSpace 0x20 = true := rfl
    rw [List.dropWhile_cons, if_pos hspace, List.dropWhile_cons, hc, if_neg Bool.false_ne_true]
  have hempty : (decimal n ++ 0x20 :: c :: s).isEmpty = false := by
    rw [hd]
    rfl
  unfold split1
  simp only [hfront, htake, hdrop, hempty]
  rfl

/-- The second part of a line is an end of it. -/
theorem suffix_of_split1 {s a b : JsString} (h : split1 s = [a, b]) : b <:+ s := by
  unfold split1 at h
  simp only at h
  split at h
  · cases h
  · split at h
    · cases h
    · rw [List.cons.injEq, List.cons.injEq] at h
      rw [← h.2.1]
      exact (List.dropWhile_suffix _).trans ((List.dropWhile_suffix _).trans (List.dropWhile_suffix _))

end Python

end HomeCloud
