import Mathlib.Tactic.Common

/-!
# Conditions without parentheses

A condition compares columns of a row, and is unknown where it compares with NULL. In a text without
parentheses AND binds stronger than OR.

* `SqlBool`: three truth values.
* `Condition`, `Condition.andWhere`: texts, and joining two of them with AND.
* **`Condition.holds_iff`**: a row satisfies a text when it satisfies one of the parts between ORs.
-/

namespace Sql

/-! ## Truth values -/

/-- True, false, or unknown. -/
abbrev SqlBool := Option Bool

namespace SqlBool

def and : SqlBool → SqlBool → SqlBool
  | some false, _ | _, some false => some false
  | some true, some true => some true
  | _, _ => none

def or : SqlBool → SqlBool → SqlBool
  | some true, _ | _, some true => some true
  | some false, some false => some false
  | _, _ => none

theorem and_eq_true {a b : SqlBool} : and a b = some true ↔ a = some true ∧ b = some true := by
  rcases a with _ | _ | _ <;> rcases b with _ | _ | _ <;> simp [and]

theorem or_eq_true {a b : SqlBool} : or a b = some true ↔ a = some true ∨ b = some true := by
  rcases a with _ | _ | _ <;> rcases b with _ | _ | _ <;> simp [or]

end SqlBool

/-! ## Texts -/

/-- A text without parentheses: the parts between the ORs, each a list of comparisons joined by
AND. -/
abbrev Condition (R : Type) := List (List (R → SqlBool))

namespace Condition

variable {R : Type}

/-- What the text says of a row. -/
def eval (c : Condition R) (r : R) : SqlBool :=
  (c.map fun part => (part.map fun a => a r).foldr SqlBool.and (some true)).foldr SqlBool.or
    (some false)

/-- Whether a statement with the condition applies to the row. -/
def holds (c : Condition R) (r : R) : Bool := c.eval r = some true

/-- The text `c AND d`: the last part of `c` and the first part of `d` become one. -/
def andWhere : Condition R → Condition R → Condition R
  | [], d => d
  | [part], [] => [part]
  | [part], part' :: d => (part ++ part') :: d
  | part :: c, d => part :: andWhere c d

theorem foldr_and_eq_true {l : List SqlBool} :
    l.foldr SqlBool.and (some true) = some true ↔ ∀ b ∈ l, b = some true := by
  induction l with
  | nil => simp
  | cons b l ih => rw [List.foldr_cons, SqlBool.and_eq_true, ih, List.forall_mem_cons]

theorem foldr_or_eq_true {l : List SqlBool} :
    l.foldr SqlBool.or (some false) = some true ↔ ∃ b ∈ l, b = some true := by
  induction l with
  | nil => simp
  | cons b l ih => simp only [List.foldr_cons, SqlBool.or_eq_true, ih, List.mem_cons, exists_eq_or_imp]

/-- **A row satisfies a text when it satisfies all comparisons of one of the parts.** -/
theorem holds_iff {c : Condition R} {r : R} :
    c.holds r = true ↔ ∃ part ∈ c, ∀ a ∈ part, a r = some true := by
  simp only [holds, decide_eq_true_eq, eval, foldr_or_eq_true, List.mem_map, exists_exists_and_eq_and]
  refine exists_congr fun part => and_congr_right fun _ => ?_
  rw [foldr_and_eq_true, List.forall_mem_map]

end Condition

end Sql
