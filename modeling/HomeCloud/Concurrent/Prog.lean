import Mathlib.Data.Nat.Notation

/-!
# Programs over shared state, and their weakest preconditions

A program is a tree of atomic instructions. What an instruction does to the shared state is fixed
by an interpretation `exec`; the program only sees the state the instruction ran in, and goes on
from what it read there. Between two instructions of one thread the other threads may run.

* `Prog`: the programs, a monad with failures; `Prog.run`: one undisturbed run.
* `Contract`: an invariant, what a thread may rely on, and what it has to establish before each
  instruction.
* **`wp_bind`**, **`wp_tryCatch`**, `wp_act`, `wp_mono`: the rules for weakest preconditions under
  interference; **`wp_keep`**: what a program leaves as it is.
-/

namespace Concurrent

/-! ## Programs -/

/-- A program over states `σ` and instructions `I` that fails with `ε` or returns `α`. `pick` is a
choice the program does not control; `act` runs an instruction and goes on from the state the
instruction was run in by the given thread. -/
inductive Prog (σ I ε α : Type) where
  | ret (a : α)
  | fail (e : ε)
  | pick (next : ℕ → Prog σ I ε α)
  | act (i : I) (next : ℕ → σ → Prog σ I ε α)

namespace Prog

variable {σ I ε α β : Type}

def bind : Prog σ I ε α → (α → Prog σ I ε β) → Prog σ I ε β
  | .ret a, f => f a
  | .fail e, _ => .fail e
  | .pick next, f => .pick fun n => (next n).bind f
  | .act i next, f => .act i fun t s => (next t s).bind f

/-- Runs `h` on a failure of `p`. -/
def handle : Prog σ I ε α → (ε → Prog σ I ε α) → Prog σ I ε α
  | .ret a, _ => .ret a
  | .fail e, h => h e
  | .pick next, h => .pick fun n => (next n).handle h
  | .act i next, h => .act i fun t s => (next t s).handle h

instance : Monad (Prog σ I ε) where
  pure := .ret
  bind := bind

instance : MonadExcept ε (Prog σ I ε) where
  throw := .fail
  tryCatch := handle

/-- Runs `i` and returns what `f` reads in the state `i` was run in. -/
def ask (i : I) (f : ℕ → σ → α) : Prog σ I ε α := .act i fun t s => .ret (f t s)

/-- Runs `i`. -/
def exec (i : I) : Prog σ I ε Unit := .act i fun _ _ => .ret ()

@[simp]
theorem bind_ret (a : α) (f : α → Prog σ I ε β) : (.ret a : Prog σ I ε α) >>= f = f a := rfl

@[simp]
theorem pure_eq (a : α) : (pure a : Prog σ I ε α) = .ret a := rfl

@[simp]
theorem throw_eq (e : ε) : (throw e : Prog σ I ε α) = .fail e := rfl

@[simp]
theorem bind_fail (e : ε) (f : α → Prog σ I ε β) : (.fail e : Prog σ I ε α) >>= f = .fail e := rfl

/-- Two programs in a row return at once when each of them does. -/
theorem bind_eq_ret {p : Prog σ I ε α} {f : α → Prog σ I ε β} {b : β} :
    p >>= f = .ret b ↔ ∃ a, p = .ret a ∧ f a = .ret b := by
  cases p with
  | ret a => simp
  | fail e =>
    rw [bind_fail]
    exact ⟨nofun, by rintro ⟨a, ha, -⟩; cases ha⟩
  | pick next => exact ⟨nofun, by rintro ⟨a, ha, -⟩; cases ha⟩
  | act i next => exact ⟨nofun, by rintro ⟨a, ha, -⟩; cases ha⟩

/-- All instructions of the program satisfy `K`. -/
def Only (K : I → Prop) : Prog σ I ε α → Prop
  | .ret _ => True
  | .fail _ => True
  | .pick next => ∀ n, (next n).Only K
  | .act i next => K i ∧ ∀ t s, (next t s).Only K

theorem Only.bind {K : I → Prop} {p : Prog σ I ε α} {f : α → Prog σ I ε β} (hp : p.Only K)
    (hf : ∀ a, (f a).Only K) : (p >>= f).Only K := by
  change (p.bind f).Only K
  induction p with
  | ret a => exact hf a
  | fail e => trivial
  | pick next ih => exact fun n => ih n (hp n)
  | act i next ih => exact ⟨hp.1, fun t s => ih t s (hp.2 t s)⟩

theorem Only.tryCatch {K : I → Prop} {p : Prog σ I ε α} {h : ε → Prog σ I ε α} (hp : p.Only K)
    (hh : ∀ e, (h e).Only K) : (tryCatch p h).Only K := by
  change (p.handle h).Only K
  induction p with
  | ret a => trivial
  | fail e => exact hh e
  | pick next ih => exact fun n => ih n (hp n)
  | act i next ih => exact ⟨hp.1, fun t s => ih t s (hp.2 t s)⟩

/-- All instructions of the program satisfy `K`, and what it returns satisfies `P`. -/
def Runs (K : I → Prop) (P : α → Prop) : Prog σ I ε α → Prop
  | .ret a => P a
  | .fail _ => True
  | .pick next => ∀ n, (next n).Runs K P
  | .act i next => K i ∧ ∀ t s, (next t s).Runs K P

theorem Runs.only {K : I → Prop} {P : α → Prop} {p : Prog σ I ε α} (hp : p.Runs K P) :
    p.Only K := by
  induction p with
  | ret a => trivial
  | fail e => trivial
  | pick next ih => exact fun n => ih n (hp n)
  | act i next ih => exact ⟨hp.1, fun t s => ih t s (hp.2 t s)⟩

theorem Runs.mono {K K' : I → Prop} {P : α → Prop} {p : Prog σ I ε α} (hK : ∀ i, K i → K' i)
    (hp : p.Runs K P) : p.Runs K' P := by
  induction p with
  | ret a => exact hp
  | fail e => trivial
  | pick next ih => exact fun n => ih n (hp n)
  | act i next ih => exact ⟨hK i hp.1, fun t s => ih t s (hp.2 t s)⟩

theorem Runs.bind {K : I → Prop} {P : β → Prop} {p : Prog σ I ε α} {f : α → Prog σ I ε β}
    (hp : p.Only K) (hf : ∀ a, (f a).Runs K P) : (p >>= f).Runs K P := by
  change (p.bind f).Runs K P
  induction p with
  | ret a => exact hf a
  | fail e => trivial
  | pick next ih => exact fun n => ih n (hp n)
  | act i next ih => exact ⟨hp.1, fun t s => ih t s (hp.2 t s)⟩

theorem Runs.tryCatch {K : I → Prop} {P : α → Prop} {p : Prog σ I ε α} {h : ε → Prog σ I ε α}
    (hp : p.Runs K P) (hh : ∀ e, (h e).Runs K P) : (tryCatch p h).Runs K P := by
  change (p.handle h).Runs K P
  induction p with
  | ret a => exact hp
  | fail e => exact hh e
  | pick next ih => exact fun n => ih n (hp n)
  | act i next ih => exact ⟨hp.1, fun t s => ih t s (hp.2 t s)⟩

/-- What comes after a program may depend on what that returns. -/
theorem Only.bind_of_runs {K : I → Prop} {P : α → Prop} {p : Prog σ I ε α}
    {f : α → Prog σ I ε β} (hp : p.Runs K P) (hf : ∀ a, P a → (f a).Only K) :
    (p >>= f).Only K := by
  change (p.bind f).Only K
  induction p with
  | ret a => exact hf a hp
  | fail e => trivial
  | pick next ih => exact fun n => ih n (hp n)
  | act i next ih => exact ⟨hp.1, fun t s => ih t s (hp.2 t s)⟩

/-- The outcome of an undisturbed run: blocked at some instruction, failed or returned. -/
inductive Outcome (ε α : Type) where
  | blocked
  | failed (e : ε)
  | done (a : α)

/-- Runs the program as thread `t` with nobody else running, every choice being `0`. -/
def run (step : I → ℕ → σ → Option σ) (t : ℕ) : Prog σ I ε α → σ → Outcome ε α × σ
  | .ret a, s => (.done a, s)
  | .fail e, s => (.failed e, s)
  | .pick next, s => (next 0).run step t s
  | .act i next, s =>
    match step i t s with
    | some s' => (next t s).run step t s'
    | none => (.blocked, s)

end Prog

/-! ## Contracts -/

/-- What a verified thread may assume and has to establish: `inv` holds throughout, `rely t` bounds
what others do between two instructions of `t`, and `pre i t` is what `t` establishes before it
runs `i`. Whatever is established is enough for the others. -/
structure Contract (σ I : Type) (exec : I → ℕ → σ → Option σ) where
  inv : σ → Prop
  rely : ℕ → σ → σ → Prop
  pre : I → ℕ → σ → Prop
  rely_refl : ∀ t s, rely t s s
  rely_trans : ∀ {t s₁ s₂ s₃}, rely t s₁ s₂ → rely t s₂ s₃ → rely t s₁ s₃
  inv_step : ∀ {i t s s'}, inv s → pre i t s → exec i t s = some s' → inv s'
  rely_step : ∀ {i t t' s s'}, inv s → pre i t s → exec i t s = some s' → t' ≠ t → rely t' s s'

variable {σ I ε α β : Type} {exec : I → ℕ → σ → Option σ}

/-- The weakest precondition of a program of thread `t` for the results `Q` and failures `E`, with
interference before each instruction. -/
def wp (G : Contract σ I exec) (t : ℕ) :
    Prog σ I ε α → (α → σ → Prop) → (ε → σ → Prop) → σ → Prop
  | .ret a, Q, _, s => Q a s
  | .fail e, _, E, s => E e s
  | .pick next, Q, E, s => ∀ n, wp G t (next n) Q E s
  | .act i next, Q, E, s => ∀ s₁, G.rely t s s₁ → G.inv s₁ → ∀ s₂, exec i t s₁ = some s₂ →
      G.pre i t s₁ ∧ wp G t (next t s₁) Q E s₂

/-- A program of `t` that establishes what it has to before each of its instructions. -/
def Safe (G : Contract σ I exec) (t : ℕ) (p : Prog σ I ε α) (s : σ) : Prop :=
  wp G t p (fun _ _ => True) (fun _ _ => True) s

section Rules

variable {G : Contract σ I exec} {t : ℕ} {s : σ}

@[simp]
theorem wp_ret (a : α) (Q : α → σ → Prop) (E : ε → σ → Prop) :
    wp G t (.ret a : Prog σ I ε α) Q E s ↔ Q a s := Iff.rfl

@[simp]
theorem wp_fail (e : ε) (Q : α → σ → Prop) (E : ε → σ → Prop) :
    wp G t (.fail e : Prog σ I ε α) Q E s ↔ E e s := Iff.rfl

@[simp]
theorem wp_pick (next : ℕ → Prog σ I ε α) (Q : α → σ → Prop) (E : ε → σ → Prop) :
    wp G t (.pick next) Q E s ↔ ∀ n, wp G t (next n) Q E s := Iff.rfl

theorem wp_act (i : I) (next : ℕ → σ → Prog σ I ε α) (Q : α → σ → Prop) (E : ε → σ → Prop) :
    wp G t (.act i next) Q E s ↔ ∀ s₁, G.rely t s s₁ → G.inv s₁ → ∀ s₂, exec i t s₁ = some s₂ →
      G.pre i t s₁ ∧ wp G t (next t s₁) Q E s₂ := Iff.rfl

/-- **Running two programs in a row.** -/
theorem wp_bind (p : Prog σ I ε α) (f : α → Prog σ I ε β) (Q : β → σ → Prop) (E : ε → σ → Prop) :
    wp G t (p >>= f) Q E s ↔ wp G t p (fun a s' => wp G t (f a) Q E s') E s := by
  change wp G t (p.bind f) Q E s ↔ _
  induction p generalizing s with
  | ret a => exact Iff.rfl
  | fail e => exact Iff.rfl
  | pick next ih => exact forall_congr' fun n => ih n
  | act i next ih =>
    refine forall_congr' fun s₁ => forall_congr' fun _ => forall_congr' fun _ =>
      forall_congr' fun s₂ => forall_congr' fun _ => ?_
    exact and_congr_right fun _ => ih t s₁

/-- **Handling the failures of a program.** -/
theorem wp_tryCatch (p : Prog σ I ε α) (h : ε → Prog σ I ε α) (Q : α → σ → Prop)
    (E : ε → σ → Prop) :
    wp G t (tryCatch p h) Q E s ↔ wp G t p Q (fun e s' => wp G t (h e) Q E s') s := by
  change wp G t (p.handle h) Q E s ↔ _
  induction p generalizing s with
  | ret a => exact Iff.rfl
  | fail e => exact Iff.rfl
  | pick next ih => exact forall_congr' fun n => ih n
  | act i next ih =>
    refine forall_congr' fun s₁ => forall_congr' fun _ => forall_congr' fun _ =>
      forall_congr' fun s₂ => forall_congr' fun _ => ?_
    exact and_congr_right fun _ => ih t s₁

theorem wp_mono {p : Prog σ I ε α} {Q Q' : α → σ → Prop} {E E' : ε → σ → Prop}
    (hQ : ∀ a s, Q a s → Q' a s) (hE : ∀ e s, E e s → E' e s) (h : wp G t p Q E s) :
    wp G t p Q' E' s := by
  induction p generalizing s with
  | ret a => exact hQ _ _ h
  | fail e => exact hE _ _ h
  | pick next ih => exact fun n => ih n (h n)
  | act i next ih =>
    intro s₁ hr hi s₂ he
    exact ⟨(h s₁ hr hi s₂ he).1, ih t s₁ (h s₁ hr hi s₂ he).2⟩

theorem wp_ask {i : I} {f : ℕ → σ → α} {Q : α → σ → Prop} {E : ε → σ → Prop}
    (h : ∀ s₁, G.rely t s s₁ → G.inv s₁ → ∀ s₂, exec i t s₁ = some s₂ →
      G.pre i t s₁ ∧ Q (f t s₁) s₂) :
    wp G t (Prog.ask i f : Prog σ I ε α) Q E s := h

theorem wp_exec {i : I} {Q : Unit → σ → Prop} {E : ε → σ → Prop}
    (h : ∀ s₁, G.rely t s s₁ → G.inv s₁ → ∀ s₂, exec i t s₁ = some s₂ →
      G.pre i t s₁ ∧ Q () s₂) :
    wp G t (Prog.exec i : Prog σ I ε Unit) Q E s := h

/-- Interference does not make a safe program unsafe. -/
theorem Safe.rely {p : Prog σ I ε α} {s' : σ} (h : Safe G t p s) (hr : G.rely t s s') :
    Safe G t p s' := by
  induction p with
  | ret a => trivial
  | fail e => trivial
  | pick next ih => exact fun n => ih n (h n)
  | act i next _ => exact fun s₁ hr' hi s₂ he => h s₁ (G.rely_trans hr hr') hi s₂ he

/-- **What no instruction of the program and no other thread changes holds in the end**, also when the
program fails. -/
theorem wp_keep {K : I → Prop} {H : σ → Prop} {p : Prog σ I ε α} {Q : α → σ → Prop}
    {E : ε → σ → Prop} (hp : p.Only K) (hrely : ∀ s s', G.rely t s s' → G.inv s' → H s → H s')
    (hstep : ∀ i s s', K i → G.inv s → G.pre i t s → exec i t s = some s' → H s → H s')
    (h : wp G t p Q E s)
    (hH : H s) : wp G t p (fun a s' => Q a s' ∧ H s') (fun e s' => E e s' ∧ H s') s := by
  induction p generalizing s with
  | ret a => exact ⟨h, hH⟩
  | fail e => exact ⟨h, hH⟩
  | pick next ih => exact fun n => ih n (hp n) (h n) hH
  | act i next ih =>
    intro s₁ hr hi s₂ he
    obtain ⟨hpre, hnext⟩ := h s₁ hr hi s₂ he
    exact ⟨hpre, ih t s₁ (hp.2 t s₁) hnext (hstep i s₁ s₂ hp.1 hi hpre he (hrely s s₁ hr hi hH))⟩

theorem Safe.of_wp {p : Prog σ I ε α} {Q : α → σ → Prop} {E : ε → σ → Prop}
    (h : wp G t p Q E s) : Safe G t p s :=
  wp_mono (fun _ _ _ => trivial) (fun _ _ _ => trivial) h

/-- A program that is safe whatever its first part returns is safe. -/
theorem Safe.bind {p : Prog σ I ε α} {f : α → Prog σ I ε β} (h : Safe G t p s)
    (hf : ∀ a s', Safe G t (f a) s') : Safe G t (p >>= f) s := by
  rw [Safe, wp_bind]
  exact wp_mono (fun a s' _ => hf a s') (fun _ _ _ => trivial) h

end Rules

end Concurrent
