import Mathlib.Data.List.Sort
import Mathlib.Data.Nat.Notation

/-!
# Reading a table page by page

A table is read in the order of a key. Each query asks for the first rows whose key is above the last one read, and
an empty page ends the reading.

* `page`, `read`: a query, and the loop over the pages.
* `ordered`: the rows in the order of the key.
* `page_eq`, `filter_above`: what a page is, and what is left after it.
* **`read_eq`**: the loop ends, with every row once and in order.
-/

namespace Keyset

variable {α : Type} (key : α → ℤ) (limit : ℕ) (rows : List α)

/-- `WHERE key > after ORDER BY key LIMIT limit`. -/
def page (after : ℤ) : List α :=
  ((rows.filter fun r => after < key r).mergeSort fun a b => key a ≤ key b).take limit

/-- The rows read with at most so many queries, none if there is more to read. -/
def read : ℕ → ℤ → Option (List α)
  | 0, _ => none
  | queries + 1, after =>
    match page key limit rows after with
    | [] => some []
    | r :: rs => (read queries (key ((r :: rs).getLast (List.cons_ne_nil r rs)))).map (r :: rs ++ ·)

/-- The rows in the order of the key. -/
def ordered : List α := rows.mergeSort fun a b => key a ≤ key b

variable {key limit rows}

theorem perm_ordered : (ordered key rows).Perm rows := List.mergeSort_perm rows _

theorem pairwise_ordered (hdistinct : (rows.map key).Nodup) :
    (ordered key rows).Pairwise fun a b => key a < key b := by
  have htrans (a b c : α) (hab : decide (key a ≤ key b) = true) (hbc : decide (key b ≤ key c) = true) :
      decide (key a ≤ key c) = true := decide_eq_true (le_trans (of_decide_eq_true hab) (of_decide_eq_true hbc))
  have htotal (a b : α) : (decide (key a ≤ key b) || decide (key b ≤ key a)) = true := by
    simpa only [Bool.or_eq_true, decide_eq_true_eq] using le_total (key a) (key b)
  have hle : (ordered key rows).Pairwise fun a b => decide (key a ≤ key b) = true :=
    List.pairwise_mergeSort htrans htotal rows
  have hne : (ordered key rows).Pairwise fun a b => key a ≠ key b := by
    rw [← List.pairwise_map]
    exact (perm_ordered.map key).nodup_iff.mpr hdistinct
  exact (hle.and hne).imp fun h => lt_of_le_of_ne (of_decide_eq_true h.1) h.2

/-- A page is the beginning of what is left. -/
theorem page_eq (hdistinct : (rows.map key).Nodup) (after : ℤ) :
    page key limit rows after = ((ordered key rows).filter fun r => after < key r).take limit := by
  have hfilter : ((rows.filter fun r => after < key r).map key).Nodup :=
    hdistinct.sublist (List.filter_sublist.map key)
  have hleft : ((rows.filter fun r => after < key r).mergeSort fun a b => key a ≤ key b) =
      (ordered key rows).filter fun r => after < key r := by
    refine List.Perm.eq_of_pairwise (fun a b _ _ hab hba => absurd (lt_trans hab hba) (lt_irrefl _))
      (pairwise_ordered hfilter) ((pairwise_ordered hdistinct).filter _) ?_
    exact perm_ordered.trans (perm_ordered.symm.filter _)
  rw [page, hleft]

/-- The rows after the last one that was read. -/
theorem filter_above {p q : List α} (hpair : (p ++ q).Pairwise fun a b => key a < key b) (hne : p ≠ []) :
    ((p ++ q).filter fun r => key (p.getLast hne) < key r) = q := by
  obtain ⟨hp, -, hcross⟩ := List.pairwise_append.mp hpair
  have hbefore : (p.filter fun r => key (p.getLast hne) < key r) = [] := by
    refine List.filter_eq_nil_iff.mpr fun r hr hlt => ?_
    have hle : key r ≤ key (p.getLast hne) := by
      have hlast : p.dropLast ++ [p.getLast hne] = p := List.dropLast_append_getLast hne
      rw [← hlast, List.pairwise_append] at hp
      rw [← hlast, List.mem_append, List.mem_singleton] at hr
      rcases hr with hr | hr
      · exact (hp.2.2 r hr _ (List.mem_singleton_self _)).le
      · exact (congrArg key hr).le
    exact absurd (of_decide_eq_true hlt) (not_lt.mpr hle)
  have hafter : (q.filter fun r => key (p.getLast hne) < key r) = q :=
    List.filter_eq_self.mpr fun r hr => decide_eq_true (hcross _ (List.getLast_mem hne) r hr)
  rw [List.filter_append, hbefore, hafter, List.nil_append]

/-- **The loop ends, with the rows above the key once each and in order.** Every query but the last reads a row. -/
theorem read_eq (hdistinct : (rows.map key).Nodup) (hlimit : 0 < limit) (queries : ℕ) (after : ℤ)
    (henough : ((ordered key rows).filter fun r => after < key r).length < queries) :
    read key limit rows queries after = some ((ordered key rows).filter fun r => after < key r) := by
  induction queries generalizing after with
  | zero => exact absurd henough (Nat.not_lt_zero _)
  | succ queries ih =>
    have hpair : ((ordered key rows).filter fun r => after < key r).Pairwise fun a b => key a < key b :=
      (pairwise_ordered hdistinct).filter _
    have hpage : page key limit rows after = ((ordered key rows).filter fun r => after < key r).take limit :=
      page_eq hdistinct after
    unfold read
    split
    next hnil =>
      rw [hnil] at hpage
      rcases List.take_eq_nil_iff.mp hpage.symm with h | h
      · exact absurd h hlimit.ne'
      · rw [h]
    next r rs hcons =>
      rw [hcons] at hpage
      generalize hleft : (ordered key rows).filter (fun r => after < key r) = left at hpage hpair henough
      have hsplit : r :: rs ++ left.drop limit = left := by rw [hpage, List.take_append_drop]
      have hlast : after < key ((r :: rs).getLast (List.cons_ne_nil r rs)) := by
        have hmem : (r :: rs).getLast (List.cons_ne_nil r rs) ∈ left := by
          rw [← hsplit]
          exact List.mem_append_left _ (List.getLast_mem _)
        rw [← hleft] at hmem
        exact of_decide_eq_true (List.mem_filter.mp hmem).2
      have hrest : ((ordered key rows).filter fun r' => key ((r :: rs).getLast (List.cons_ne_nil r rs)) < key r') =
          left.drop limit := by
        have habove := filter_above (hsplit.symm ▸ hpair) (List.cons_ne_nil r rs)
        rw [hsplit, ← hleft, List.filter_filter] at habove
        rw [← hleft, ← habove]
        refine List.filter_congr fun r' _ => ?_
        simp only [Bool.and_eq_decide, decide_eq_true_eq, decide_eq_decide]
        exact ⟨fun h => ⟨h, hlast.trans h⟩, And.left⟩
      have hshort : (left.drop limit).length < queries := by
        have hlen := congrArg List.length hsplit
        rw [List.length_append, List.length_cons] at hlen
        omega
      rw [ih _ (hrest ▸ hshort), hrest, Option.map_some, hsplit]

end Keyset
