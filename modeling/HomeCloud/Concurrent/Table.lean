import Mathlib.Algebra.BigOperators.Group.Finset.Basic
import Mathlib.Algebra.BigOperators.Group.Finset.Piecewise
import Mathlib.Algebra.GroupWithZero.Nat
import Mathlib.Algebra.Order.BigOperators.Group.Finset
import Mathlib.Data.Finset.Range

/-!
# Tables with generated row identifiers

A table maps identifiers to rows and knows a bound above every identifier it has ever issued, so
that a new row gets an identifier no earlier row had.

* `Table.put`, `Table.insert`, `Table.erase`, `Table.eraseAll`, `Table.map`: the row operations,
  with one `get` lemma each.
* **`Table.total_put`**, **`Table.total_erase`**, **`Table.total_eraseAll`**: how a sum over the
  rows changes.
-/

namespace Concurrent

open Finset

/-- A table: rows by identifier, none at or above `bound`. -/
structure Table (R : Type) where
  get : ℕ → Option R
  bound : ℕ
  absent : ∀ i, bound ≤ i → get i = none

namespace Table

variable {R S : Type}

/-! ## Operations -/

/-- The table without rows; identifiers start at `1`. -/
def empty : Table R := ⟨fun _ => none, 1, fun _ _ => rfl⟩

/-- Writes the row `r` under `i`. -/
def put (T : Table R) (i : ℕ) (r : R) : Table R where
  get j := if j = i then some r else T.get j
  bound := max T.bound (i + 1)
  absent j hj := by
    rw [if_neg (by omega)]
    exact T.absent j (by omega)

/-- Writes `r` under a new identifier, `T.bound`. -/
def insert (T : Table R) (r : R) : Table R := T.put T.bound r

/-- Deletes the row `i`. -/
def erase (T : Table R) (i : ℕ) : Table R where
  get j := if j = i then none else T.get j
  bound := T.bound
  absent j hj := by
    split_ifs
    · rfl
    · exact T.absent j hj

/-- Deletes every row whose identifier is in `is`. -/
def eraseAll (T : Table R) (is : List ℕ) : Table R where
  get j := if j ∈ is then none else T.get j
  bound := T.bound
  absent j hj := by
    split_ifs
    · rfl
    · exact T.absent j hj

/-- Rewrites every row. -/
def map (T : Table R) (f : ℕ → R → S) : Table S where
  get j := (T.get j).map (f j)
  bound := T.bound
  absent j hj := by rw [T.absent j hj]; rfl

/-- The identifiers in use, in order. -/
def ids (T : Table R) : List ℕ := (List.range T.bound).filter fun i => (T.get i).isSome

/-- The identifiers of the rows that satisfy `p`, in order. -/
def select (T : Table R) (p : ℕ → R → Bool) : List ℕ :=
  (List.range T.bound).filter fun i => (T.get i).any (p i)

/-- The first row that satisfies `p`, with its identifier. -/
def find (T : Table R) (p : ℕ → R → Bool) : Option (ℕ × R) :=
  (List.range T.bound).findSome? fun i =>
    match T.get i with
    | some r => if p i r then some (i, r) else none
    | none => none

/-- The rows of `T'` are new or go back to rows of `T`, from which they differ as `same` allows. -/
structure Issued (same : R → R → Prop) (T T' : Table R) : Prop where
  bound : T.bound ≤ T'.bound
  old : ∀ i r', i < T.bound → T'.get i = some r' → ∃ r, T.get i = some r ∧ same r r'

/-- The sum of `f` over the rows. -/
def total (T : Table R) (f : ℕ → R → ℕ) : ℕ := ∑ i ∈ range T.bound, (T.get i).elim 0 (f i)

/-! ## Reading a row after an operation -/

@[simp]
theorem get_empty (i : ℕ) : (empty : Table R).get i = none := rfl

theorem get_put (T : Table R) (i j : ℕ) (r : R) :
    (T.put i r).get j = if j = i then some r else T.get j := rfl

@[simp]
theorem get_put_self (T : Table R) (i : ℕ) (r : R) : (T.put i r).get i = some r := if_pos rfl

theorem get_put_ne (T : Table R) {i j : ℕ} (r : R) (h : j ≠ i) : (T.put i r).get j = T.get j :=
  if_neg h

@[simp]
theorem bound_put (T : Table R) (i : ℕ) (r : R) : (T.put i r).bound = max T.bound (i + 1) := rfl

theorem get_erase (T : Table R) (i j : ℕ) :
    (T.erase i).get j = if j = i then none else T.get j := rfl

@[simp]
theorem get_erase_self (T : Table R) (i : ℕ) : (T.erase i).get i = none := if_pos rfl

theorem get_erase_ne (T : Table R) {i j : ℕ} (h : j ≠ i) : (T.erase i).get j = T.get j := if_neg h

theorem get_eraseAll (T : Table R) (is : List ℕ) (j : ℕ) :
    (T.eraseAll is).get j = if j ∈ is then none else T.get j := rfl

theorem get_eraseAll_eq_some {T : Table R} {is : List ℕ} {j : ℕ} {r : R} :
    (T.eraseAll is).get j = some r ↔ j ∉ is ∧ T.get j = some r := by
  rw [get_eraseAll]
  split_ifs with h <;> simp [h]

@[simp]
theorem get_map (T : Table R) (f : ℕ → R → S) (j : ℕ) : (T.map f).get j = (T.get j).map (f j) :=
  rfl

@[simp]
theorem bound_map (T : Table R) (f : ℕ → R → S) : (T.map f).bound = T.bound := rfl

theorem lt_bound {T : Table R} {i : ℕ} {r : R} (h : T.get i = some r) : i < T.bound := by
  by_contra hi
  rw [T.absent i (by omega)] at h
  cases h

theorem ne_bound {T : Table R} {i : ℕ} {r : R} (h : T.get i = some r) : i ≠ T.bound :=
  Nat.ne_of_lt (lt_bound h)

@[simp]
theorem get_bound (T : Table R) : T.get T.bound = none := T.absent _ le_rfl

@[simp]
theorem get_insert_bound (T : Table R) (r : R) : (T.insert r).get T.bound = some r :=
  get_put_self T _ r

theorem get_insert (T : Table R) (r : R) (j : ℕ) :
    (T.insert r).get j = if j = T.bound then some r else T.get j := rfl

theorem get_insert_of_some {T : Table R} {r r' : R} {j : ℕ} (h : T.get j = some r') :
    (T.insert r).get j = some r' := by
  rw [get_insert, if_neg (ne_bound h), h]

namespace Issued

variable {same : R → R → Prop} {T T₁ T₂ T₃ : Table R}

theorem refl (T : Table R) (hs : ∀ r, same r r := by intro _; rfl) : Issued same T T :=
  ⟨le_rfl, fun _ r' _ h => ⟨r', h, hs r'⟩⟩

theorem trans (hs : ∀ r₁ r₂ r₃, same r₁ r₂ → same r₂ r₃ → same r₁ r₃) (h : Issued same T₁ T₂)
    (h' : Issued same T₂ T₃) : Issued same T₁ T₃ where
  bound := h.bound.trans h'.bound
  old i r₃ hi hr := by
    obtain ⟨r₂, h2, e2⟩ := h'.old i r₃ (lt_of_lt_of_le hi h.bound) hr
    obtain ⟨r₁, h1, e1⟩ := h.old i r₂ hi h2
    exact ⟨r₁, h1, hs _ _ _ e1 e2⟩

theorem insert (T : Table R) (r : R) (hs : ∀ r, same r r := by intro _; rfl) :
    Issued same T (T.insert r) where
  bound := le_max_left _ _
  old i r' hi hr := by
    rw [get_insert, if_neg (Nat.ne_of_lt hi)] at hr
    exact ⟨r', hr, hs r'⟩

theorem put {i : ℕ} {r r' : R} (hr : T.get i = some r) (hrr : same r r')
    (hs : ∀ r, same r r := by intro _; rfl) : Issued same T (T.put i r') where
  bound := le_max_left _ _
  old j s _ hj := by
    rw [get_put] at hj
    split_ifs at hj with h
    · cases hj
      exact ⟨r, h ▸ hr, hrr⟩
    · exact ⟨s, hj, hs s⟩

theorem map {f : ℕ → R → R} (T : Table R) (hf : ∀ i r, same r (f i r)) :
    Issued same T (T.map f) where
  bound := le_rfl
  old i r' _ hr := by
    obtain ⟨r, hold, rfl⟩ := Option.map_eq_some_iff.mp hr
    exact ⟨r, hold, hf i r⟩

end Issued

theorem mem_select {T : Table R} {p : ℕ → R → Bool} {i : ℕ} :
    i ∈ T.select p ↔ ∃ r, T.get i = some r ∧ p i r = true := by
  simp only [select, List.mem_filter, List.mem_range, Option.any_eq_true]
  constructor
  · rintro ⟨-, h⟩
    exact h
  · rintro ⟨r, hr, hp⟩
    exact ⟨lt_bound hr, r, hr, hp⟩

theorem nodup_select (T : Table R) (p : ℕ → R → Bool) : (T.select p).Nodup :=
  List.nodup_range.filter _

/-- What is made of the rows that satisfy `p`. -/
theorem mem_rows {T : Table R} {p : ℕ → R → Bool} {f : ℕ → R → S} {b : S} :
    b ∈ (T.select p).filterMap (fun i => (T.get i).map (f i)) ↔
      ∃ i r, T.get i = some r ∧ p i r = true ∧ f i r = b := by
  simp only [List.mem_filterMap, mem_select, Option.map_eq_some_iff]
  constructor
  · rintro ⟨i, ⟨r, hr, hp⟩, r', hr', hb⟩
    cases hr.symm.trans hr'
    exact ⟨i, r, hr, hp, hb⟩
  · rintro ⟨i, r, hr, hp, hb⟩
    exact ⟨i, ⟨r, hr, hp⟩, r, hr, hb⟩

/-- When the identifier can be read off, there is one for each row. -/
theorem map_rows {T : Table R} {p : ℕ → R → Bool} {f : ℕ → R → S} {g : S → ℕ} (h : ∀ i r, g (f i r) = i) :
    ((T.select p).filterMap fun i => (T.get i).map (f i)).map g = T.select p := by
  rw [List.map_filterMap]
  refine (List.filterMap_congr fun i hi => ?_).trans List.filterMap_some
  obtain ⟨r, hr, -⟩ := mem_select.mp hi
  rw [hr, Option.map_some, Option.map_some, h]

theorem length_select_le {T T' : Table R} {p p' : ℕ → R → Bool}
    (h : ∀ i r', T'.get i = some r' → p' i r' = true → ∃ r, T.get i = some r ∧ p i r = true) :
    (T'.select p').length ≤ (T.select p).length := by
  refine ((T'.nodup_select p').subperm fun i hi => ?_).length_le
  obtain ⟨r', hr', hp⟩ := mem_select.mp hi
  exact mem_select.mpr (h i r' hr' hp)

theorem find_some {T : Table R} {p : ℕ → R → Bool} {i : ℕ} {r : R} (h : T.find p = some (i, r)) :
    T.get i = some r ∧ p i r = true := by
  obtain ⟨j, -, hj⟩ := List.exists_of_findSome?_eq_some h
  cases hr : T.get j with
  | none => rw [hr] at hj; cases hj
  | some r' =>
    rw [hr] at hj
    dsimp only at hj
    by_cases hp : p j r'
    · rw [if_pos hp] at hj
      cases hj
      exact ⟨hr, hp⟩
    · rw [if_neg hp] at hj
      cases hj

theorem find_none {T : Table R} {p : ℕ → R → Bool} (h : T.find p = none) {i : ℕ} {r : R}
    (hr : T.get i = some r) : p i r = false := by
  have := (List.findSome?_eq_none_iff.mp h) i (List.mem_range.mpr (lt_bound hr))
  rw [hr] at this
  dsimp only at this
  by_contra hp
  rw [if_pos (by simpa using hp)] at this
  cases this

/-! ## Sums over the rows -/

theorem total_eq_range (T : Table R) (f : ℕ → R → ℕ) {n : ℕ} (h : T.bound ≤ n) :
    T.total f = ∑ i ∈ range n, (T.get i).elim 0 (f i) := by
  refine sum_subset (range_subset_range.mpr h) fun i _ hi => ?_
  rw [T.absent i (by simpa using hi)]
  rfl

@[simp]
theorem total_empty (f : ℕ → R → ℕ) : (empty : Table R).total f = 0 := by
  simp [total]

/-- **Writing a row moves the sum by the difference of the two rows.** -/
theorem total_put (T : Table R) (f : ℕ → R → ℕ) (i : ℕ) (r : R) :
    (T.put i r).total f + (T.get i).elim 0 (f i) = T.total f + f i r := by
  set n := max T.bound (i + 1)
  have hi : i ∈ range n := mem_range.mpr (by omega)
  have h1 : (T.put i r).total f = ∑ j ∈ range n, ((T.put i r).get j).elim 0 (f j) := rfl
  rw [h1, T.total_eq_range f (le_max_left _ _ : T.bound ≤ n), ← add_sum_erase _ _ hi,
    ← add_sum_erase (range n) (fun j => (T.get j).elim 0 (f j)) hi, get_put_self]
  have h2 : ∑ j ∈ (range n).erase i, ((T.put i r).get j).elim 0 (f j) =
      ∑ j ∈ (range n).erase i, (T.get j).elim 0 (f j) :=
    sum_congr rfl fun j hj => by rw [get_put_ne _ _ (ne_of_mem_erase hj)]
  rw [h2]
  simp only [Option.elim_some]
  omega

theorem total_put_of_none {T : Table R} (f : ℕ → R → ℕ) {i : ℕ} (r : R) (h : T.get i = none) :
    (T.put i r).total f = T.total f + f i r := by
  have := T.total_put f i r
  rwa [h] at this

theorem total_insert (T : Table R) (f : ℕ → R → ℕ) (r : R) :
    (T.insert r).total f = T.total f + f T.bound r :=
  total_put_of_none f r T.get_bound

theorem total_put_of_some {T : Table R} (f : ℕ → R → ℕ) {i : ℕ} {r r' : R}
    (h : T.get i = some r') (hf : f i r = f i r') : (T.put i r).total f = T.total f := by
  have := T.total_put f i r
  rw [h] at this
  simp only [Option.elim_some] at this
  omega

/-- **Deleting a row takes its value out of the sum.** -/
theorem total_erase (T : Table R) (f : ℕ → R → ℕ) (i : ℕ) :
    (T.erase i).total f + (T.get i).elim 0 (f i) = T.total f := by
  by_cases hi : i < T.bound
  · have hm : i ∈ range T.bound := mem_range.mpr hi
    have h1 : (T.erase i).total f = ∑ j ∈ range T.bound, ((T.erase i).get j).elim 0 (f j) := rfl
    rw [h1, total, ← add_sum_erase _ _ hm,
      ← add_sum_erase (range T.bound) (fun j => (T.get j).elim 0 (f j)) hm, get_erase_self]
    have h2 : ∑ j ∈ (range T.bound).erase i, ((T.erase i).get j).elim 0 (f j) =
        ∑ j ∈ (range T.bound).erase i, (T.get j).elim 0 (f j) :=
      sum_congr rfl fun j hj => by rw [get_erase_ne _ (ne_of_mem_erase hj)]
    rw [h2]
    simp only [Option.elim_none]
    omega
  · have hn : T.get i = none := T.absent i (by omega)
    have h1 : (T.erase i).total f = T.total f := by
      refine sum_congr rfl fun j _ => ?_
      by_cases hj : j = i
      · rw [hj, get_erase_self, hn]
      · rw [get_erase_ne _ hj]
    rw [h1, hn]
    rfl

theorem eraseAll_cons (T : Table R) (i : ℕ) (is : List ℕ) :
    T.eraseAll (i :: is) = (T.eraseAll is).erase i := by
  have h : (T.eraseAll (i :: is)).get = ((T.eraseAll is).erase i).get := by
    funext j
    rw [get_eraseAll, get_erase, get_eraseAll]
    by_cases hj : j = i <;> simp [hj]
  simp only [eraseAll, erase] at h ⊢
  congr

/-- **Deleting rows takes their values out of the sum.** -/
theorem total_eraseAll (T : Table R) (f : ℕ → R → ℕ) :
    ∀ {is : List ℕ}, is.Nodup →
      (T.eraseAll is).total f + (is.map fun i => (T.get i).elim 0 (f i)).sum = T.total f
  | [], _ => by
    have : (T.eraseAll []).total f = T.total f :=
      sum_congr rfl fun j _ => by rw [get_eraseAll, if_neg List.not_mem_nil]
    rw [this, List.map_nil, List.sum_nil, Nat.add_zero]
  | i :: is, h => by
    have ih := T.total_eraseAll f (List.nodup_cons.mp h).2
    have h1 := (T.eraseAll is).total_erase f i
    rw [get_eraseAll, if_neg (List.nodup_cons.mp h).1] at h1
    rw [eraseAll_cons, List.map_cons, List.sum_cons]
    omega

/-- A sum whose terms are at most those of another. -/
theorem total_le {T T' : Table R} {f g : ℕ → R → ℕ}
    (h : ∀ i r', T'.get i = some r' → g i r' = 0 ∨ ∃ r, T.get i = some r ∧ g i r' ≤ f i r) :
    T'.total g ≤ T.total f := by
  rw [T.total_eq_range f (le_max_left T.bound T'.bound),
    T'.total_eq_range g (le_max_right T.bound T'.bound)]
  refine sum_le_sum fun i _ => ?_
  cases hr' : T'.get i with
  | none => exact Nat.zero_le _
  | some r' =>
    rcases h i r' hr' with h0 | ⟨r, hr, hle⟩
    · exact h0.le.trans (Nat.zero_le _)
    · rw [hr]
      exact hle

/-- The sum depends only on the rows. -/
theorem total_eq_of_get {T T' : Table R} (f : ℕ → R → ℕ) (h : ∀ i, T.get i = T'.get i) :
    T.total f = T'.total f := by
  rw [T.total_eq_range f (le_max_left T.bound T'.bound),
    T'.total_eq_range f (le_max_right T.bound T'.bound)]
  exact sum_congr rfl fun i _ => by rw [h]

end Table

end Concurrent
