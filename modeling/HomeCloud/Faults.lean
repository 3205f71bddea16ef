import Mathlib.Logic.Basic

/-!
# Calls that stop at the first step that fails

A call is a computation in `Except`; which of its steps fail is a parameter. Each rule says when one part of a call
succeeds.

* `attempt`, `found`, `check`: a step, a value that has to be there, a condition that has to hold.
* `bind_eq_ok`: two parts in a row.
-/

namespace HomeCloud

namespace Faults

variable {Step ε α β : Type}

def attempt (fails : Step → Bool) (step : Step) (e : ε) : Except ε Unit := if fails step then .error e else .ok ()

def found (e : ε) : Option α → Except ε α
  | some a => .ok a
  | none => .error e

def check (e : ε) (b : Bool) : Except ε Unit := if b then .ok () else .error e

theorem bind_eq_ok {x : Except ε α} {f : α → Except ε β} {b : β} :
    x >>= f = .ok b ↔ ∃ a, x = .ok a ∧ f a = .ok b := by
  cases x with
  | ok a => simp [bind, Except.bind]
  | error e => simp [bind, Except.bind]

theorem pure_eq_ok {a b : α} : (pure a : Except ε α) = .ok b ↔ a = b := by
  rw [pure, Applicative.toPure]
  exact Except.ok.injEq a b ▸ Iff.rfl

theorem attempt_eq_ok {fails : Step → Bool} {step : Step} {e : ε} {u : Unit} :
    attempt fails step e = .ok u ↔ fails step = false := by
  unfold attempt
  cases fails step with
  | true => simp
  | false => simp

theorem found_eq_ok {e : ε} {o : Option α} {a : α} : found e o = .ok a ↔ o = some a := by
  cases o with
  | none => simp [found]
  | some b => simp [found]

theorem check_eq_ok {e : ε} {b : Bool} {u : Unit} : check e b = .ok u ↔ b = true := by
  cases b with
  | true => simp [check]
  | false => simp [check]

end Faults

end HomeCloud
