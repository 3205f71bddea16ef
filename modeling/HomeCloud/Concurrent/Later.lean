import HomeCloud.Concurrent.Pool

/-!
# What comes after a configuration

* `Later`: the configurations that a run reaches from a given one.
* `Reach.later`: what comes after a reachable configuration is reachable.
* **`Later.monotone`**: what every effect keeps to, a run keeps to.
-/

namespace Concurrent

variable {σ I ε α C V : Type}

/-- The configurations that runs from `c`, all of whose instructions meet `cond`, lead to. -/
inductive Later (S : System σ I ε α C V) (cond : I → ℕ → σ → Prop) (c : Config σ I ε α) :
    Config σ I ε α → Prop
  | refl : Later S cond c c
  | step {c₁ c₂} (m : Move C V) : Later S cond c c₁ → Meets cond c₁ m → c₁.next S m = some c₂ →
      Later S cond c c₂

variable {S : System σ I ε α C V} {G : Contract σ I S.exec} {cond : I → ℕ → σ → Prop} {s₀ : σ}
  {c c₁ c₂ : Config σ I ε α}

theorem Reach.later (h : Reach S cond s₀ c) (hl : Later S cond c c₁) : Reach S cond s₀ c₁ := by
  induction hl with
  | refl => exact h
  | step m _ hm hn ih => exact ih.step m hm hn

theorem Later.trans (h₁ : Later S cond c c₁) (h₂ : Later S cond c₁ c₂) : Later S cond c c₂ := by
  induction h₂ with
  | refl => exact h₁
  | step m _ hm hn ih => exact ih.step m hm hn

/-- **A relation that every effect keeps to relates a state with all states after it.** -/
theorem Later.monotone (hV : Verified S G) (h0 : G.inv s₀) {R : σ → σ → Prop} (hrefl : ∀ s, R s s)
    (htrans : ∀ {s₁ s₂ s₃}, R s₁ s₂ → R s₂ s₃ → R s₁ s₃)
    (hstep : ∀ c s', Reach S cond s₀ c → Effect S G cond c.state s' → R c.state s') (h : Reach S cond s₀ c)
    (hl : Later S cond c c₁) : R c.state c₁.state := by
  induction hl with
  | refl => exact hrefl _
  | step m hl hm hn ih =>
    have hc := h.later hl
    exact htrans ih (hstep _ _ hc (hc.effect hV h0 hm hn))

/-- The moves of a run one after the other. -/
theorem Later.nexts {ok : I → ℕ → Config σ I ε α → Bool} (h : Reach S cond s₀ c)
    (hok : ∀ c, Reach S cond s₀ c → ∀ i t, ok i t c = true → cond i t c.state) :
    ∀ {ms : List (Move C V)} {c₁ c₂ : Config σ I ε α}, Later S cond c c₁ → c₁.nexts S ok ms = some c₂ →
      Later S cond c c₂
  | [], c₁, c₂, hl, hn => by
    cases hn
    exact hl
  | m :: ms, c₁, c₂, hl, hn => by
    simp only [Config.nexts] at hn
    split_ifs at hn with hm
    obtain ⟨c', h1, h2⟩ := Option.bind_eq_some_iff.mp hn
    exact Later.nexts h hok (hl.step m (meets_of_passes hm (hok c₁ (h.later hl))) h1) h2

end Concurrent
