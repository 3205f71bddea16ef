import HomeCloud.Concurrent.Prog
import HomeCloud.Concurrent.Table

/-!
# Pools of threads

Calls come in at any time and become threads; at each step some thread runs one instruction, or is
aborted, or the environment changes the state.

* `System`, `Config`, `Move`, `Config.next`: the interleavings, executable.
* `Reach`: the configurations that runs reach whose instructions all meet a side condition.
* **`Reach.safe`**: in a verified system every thread is safe in every reachable configuration.
* **`Reach.invariant`**: an invariant of the instructions is an invariant of the runs; **`Reach.unstarted`**: the
  same of what others leave as it is, for a thread that has not been started.
-/

namespace Concurrent

/-- A system of threads: instructions, what an abort does, events of the environment, and the calls
it accepts, with a program for each. -/
structure System (σ I ε α C V : Type) where
  exec : I → ℕ → σ → Option σ
  abort : ℕ → σ → σ
  event : V → σ → Option σ
  accepts : C → σ → Bool
  prog : C → Prog σ I ε α

/-- A configuration: the shared state and the threads that were started. -/
structure Config (σ I ε α : Type) where
  state : σ
  threads : Table (Prog σ I ε α)

/-- One step of a run. `run t n` lets thread `t` do its next instruction, or make the choice `n`. -/
inductive Move (C V : Type) where
  | call (c : C)
  | run (t n : ℕ)
  | abort (t : ℕ)
  | event (v : V)

variable {σ I ε α C V : Type}

/-- The configuration after a move, when the move is possible. -/
def Config.next (S : System σ I ε α C V) (c : Config σ I ε α) : Move C V → Option (Config σ I ε α)
  | .call a => if S.accepts a c.state then some ⟨c.state, c.threads.insert (S.prog a)⟩ else none
  | .run t n =>
    match c.threads.get t with
    | some (.pick next) => some ⟨c.state, c.threads.put t (next n)⟩
    | some (.act i next) =>
      (S.exec i t c.state).map fun s => ⟨s, c.threads.put t (next t c.state)⟩
    | _ => none
  | .abort t =>
    match c.threads.get t with
    | some _ => some ⟨S.abort t c.state, c.threads.erase t⟩
    | none => none
  | .event v => (S.event v c.state).map fun s => ⟨s, c.threads⟩

/-- Whether the instruction that a move runs passes the check `ok`. -/
def Config.passes (ok : I → ℕ → Config σ I ε α → Bool) (c : Config σ I ε α) : Move C V → Bool
  | .run t _ =>
    match c.threads.get t with
    | some (.act i _) => ok i t c
    | _ => true
  | _ => true

/-- The configuration after a list of moves whose instructions all pass the check `ok`. -/
def Config.nexts (S : System σ I ε α C V) (ok : I → ℕ → Config σ I ε α → Bool)
    (c : Config σ I ε α) :
    List (Move C V) → Option (Config σ I ε α)
  | [] => some c
  | m :: ms => if c.passes ok m then (c.next S m).bind fun c' => c'.nexts S ok ms else none

/-- The side condition `cond` on the instruction that a move runs. -/
def Meets (cond : I → ℕ → σ → Prop) (c : Config σ I ε α) : Move C V → Prop
  | .run t _ => ∀ i next, c.threads.get t = some (.act i next) → cond i t c.state
  | _ => True

/-- The configurations reached by runs from `s₀` with no threads, all of whose instructions meet
`cond`. -/
inductive Reach (S : System σ I ε α C V) (cond : I → ℕ → σ → Prop) (s₀ : σ) :
    Config σ I ε α → Prop
  | start : Reach S cond s₀ ⟨s₀, Table.empty⟩
  | step {c c'} (m : Move C V) : Reach S cond s₀ c → Meets cond c m → c.next S m = some c' →
      Reach S cond s₀ c'

/-- No condition on the instructions. -/
def anyStep : I → ℕ → σ → Prop := fun _ _ _ => True

theorem meets_anyStep (c : Config σ I ε α) (m : Move C V) : Meets anyStep c m := by
  cases m with
  | run t n => exact fun _ _ _ => trivial
  | _ => trivial

theorem meets_of_passes {ok : I → ℕ → Config σ I ε α → Bool} {cond : I → ℕ → σ → Prop}
    {c : Config σ I ε α} {m : Move C V} (h : c.passes ok m = true)
    (hok : ∀ i t, ok i t c = true → cond i t c.state) : Meets cond c m := by
  cases m with
  | run t n =>
    intro i next ht
    simp only [Config.passes, ht] at h
    exact hok i t h
  | _ => trivial

theorem Reach.nexts {S : System σ I ε α C V} {cond : I → ℕ → σ → Prop}
    {ok : I → ℕ → Config σ I ε α → Bool} {s₀ : σ}
    (hok : ∀ c, Reach S cond s₀ c → ∀ i t, ok i t c = true → cond i t c.state) :
    ∀ {ms : List (Move C V)} {c c' : Config σ I ε α}, Reach S cond s₀ c →
      c.nexts S ok ms = some c' → Reach S cond s₀ c'
  | [], c, c', hc, h => by
    cases h
    exact hc
  | m :: ms, c, c', hc, h => by
    simp only [Config.nexts] at h
    split_ifs at h with hm
    obtain ⟨c₁, h1, h2⟩ := Option.bind_eq_some_iff.mp h
    exact (Reach.step m hc (meets_of_passes hm (hok c hc)) h1).nexts hok h2

theorem Reach.mono {S : System σ I ε α C V} {cond cond' : I → ℕ → σ → Prop} {s₀ : σ}
    {c : Config σ I ε α} (h : ∀ i t s, cond i t s → cond' i t s) (hc : Reach S cond s₀ c) :
    Reach S cond' s₀ c := by
  induction hc with
  | start => exact .start
  | step m _ hm hn ih =>
    refine .step m ih ?_ hn
    cases m with
    | run t n => exact fun i next ht => h _ _ _ (hm i next ht)
    | _ => trivial

/-- A contract that aborts and the environment respect, and that every call's program fulfils. -/
structure Verified (S : System σ I ε α C V) (G : Contract σ I S.exec) : Prop where
  safe : ∀ a t s, S.accepts a s = true → G.inv s → Safe G t (S.prog a) s
  inv_abort : ∀ t s, G.inv s → G.inv (S.abort t s)
  rely_abort : ∀ {t t'} s, G.inv s → t' ≠ t → G.rely t' s (S.abort t s)
  inv_event : ∀ {v s s'}, G.inv s → S.event v s = some s' → G.inv s'
  rely_event : ∀ {v s s'} t, G.inv s → S.event v s = some s' → G.rely t s s'

/-- The system that only accepts the calls in `P`. -/
def System.only (S : System σ I ε α C V) (P : C → Bool) : System σ I ε α C V :=
  { S with accepts := fun a s => P a && S.accepts a s }

theorem Verified.only {S : System σ I ε α C V} {G : Contract σ I S.exec} (hV : Verified S G)
    (P : C → Bool) : Verified (S.only P) G where
  safe a t s ha hi := hV.safe a t s (Bool.and_eq_true_iff.mp ha).2 hi
  inv_abort := hV.inv_abort
  rely_abort := hV.rely_abort
  inv_event := hV.inv_event
  rely_event := hV.rely_event

/-- **All instructions of a run satisfy `K` when those of all programs do.** -/
theorem Reach.only {S : System σ I ε α C V} {cond : I → ℕ → σ → Prop} {K : I → Prop} {s₀ : σ}
    {c : Config σ I ε α} (hK : ∀ a s, S.accepts a s = true → (S.prog a).Only K)
    (hc : Reach S cond s₀ c) : ∀ t p, c.threads.get t = some p → p.Only K := by
  induction hc with
  | start =>
    intro t p hp
    rw [Table.get_empty] at hp
    cases hp
  | @step c c' m hc hm hn ih =>
    have hput : ∀ {t : ℕ} {q : Prog σ I ε α}, q.Only K → ∀ t' p,
        (c.threads.put t q).get t' = some p → p.Only K := by
      intro t q hq t' p hp
      rw [Table.get_put] at hp
      split_ifs at hp
      · cases hp
        exact hq
      · exact ih t' p hp
    cases m with
    | call a =>
      simp only [Config.next] at hn
      split_ifs at hn with ha
      cases hn
      exact hput (hK a _ ha)
    | run t n =>
      simp only [Config.next] at hn
      split at hn
      · rename_i next ht
        cases hn
        exact hput (ih t _ ht n)
      · rename_i i next ht
        obtain ⟨s, -, rfl⟩ := Option.map_eq_some_iff.mp hn
        exact hput ((ih t _ ht).2 t _)
      · cases hn
    | abort t =>
      simp only [Config.next] at hn
      split at hn
      · cases hn
        intro t' p hp
        rw [Table.get_erase] at hp
        split_ifs at hp
        exact ih t' p hp
      · cases hn
    | event v =>
      obtain ⟨s, -, rfl⟩ := Option.map_eq_some_iff.mp hn
      exact ih

/-- What the system does when it only accepts some calls it does also when it accepts all. -/
theorem Reach.of_only {S : System σ I ε α C V} {P : C → Bool} {cond : I → ℕ → σ → Prop} {s₀ : σ}
    {c : Config σ I ε α} (hc : Reach (S.only P) cond s₀ c) : Reach S cond s₀ c := by
  induction hc with
  | start => exact .start
  | step m _ hm hn ih =>
    refine .step m ih hm ?_
    cases m with
    | call a =>
      simp only [Config.next] at hn ⊢
      split_ifs at hn with ha
      rw [if_pos (Bool.and_eq_true_iff.mp ha).2]
      exact hn
    | _ => exact hn

theorem Meets.of_only {K : I → Prop} {c : Config σ I ε α}
    (h : ∀ t p, c.threads.get t = some p → p.Only K) (m : Move C V) :
    Meets (fun i _ _ => K i) c m := by
  cases m with
  | run t n => exact fun i next ht => (h t _ ht).1
  | _ => trivial

section Soundness

variable {S : System σ I ε α C V} {G : Contract σ I S.exec} {cond : I → ℕ → σ → Prop} {s₀ : σ}
  {c c' : Config σ I ε α}

/-- The invariant holds and every thread is safe. -/
def AllSafe (G : Contract σ I S.exec) (c : Config σ I ε α) : Prop :=
  G.inv c.state ∧ ∀ t p, c.threads.get t = some p → Safe G t p c.state

theorem AllSafe.next (hV : Verified S G) (h : AllSafe G c) {m : Move C V}
    (hm : c.next S m = some c') : AllSafe G c' := by
  obtain ⟨hinv, hsafe⟩ := h
  cases m with
  | call a =>
    simp only [Config.next] at hm
    split_ifs at hm with ha
    cases hm
    refine ⟨hinv, fun t p hp => ?_⟩
    rw [Table.get_insert] at hp
    split_ifs at hp with ht
    · cases hp
      exact hV.safe a t _ ha hinv
    · exact hsafe t p hp
  | run t n =>
    simp only [Config.next] at hm
    split at hm
    · rename_i next ht
      cases hm
      refine ⟨hinv, fun t' p hp => ?_⟩
      rw [Table.get_put] at hp
      split_ifs at hp with h
      · cases hp
        subst h
        exact hsafe t' _ ht n
      · exact hsafe t' p hp
    · rename_i i next ht
      obtain ⟨s, hs, rfl⟩ := Option.map_eq_some_iff.mp hm
      obtain ⟨hpre, hnext⟩ := hsafe t _ ht _ (G.rely_refl t _) hinv _ hs
      refine ⟨G.inv_step hinv hpre hs, fun t' p hp => ?_⟩
      rw [Table.get_put] at hp
      split_ifs at hp with h
      · cases hp
        subst h
        exact hnext
      · exact (hsafe t' p hp).rely (G.rely_step hinv hpre hs h)
    · cases hm
  | abort t =>
    simp only [Config.next] at hm
    split at hm
    · cases hm
      refine ⟨hV.inv_abort t _ hinv, fun t' p hp => ?_⟩
      rw [Table.get_erase] at hp
      split_ifs at hp with h
      exact (hsafe t' p hp).rely (hV.rely_abort _ hinv h)
    · cases hm
  | event v =>
    obtain ⟨s, hs, rfl⟩ := Option.map_eq_some_iff.mp hm
    exact ⟨hV.inv_event hinv hs, fun t p hp => (hsafe t p hp).rely (hV.rely_event t hinv hs)⟩

/-- **Every thread of a verified system is safe in every reachable configuration.** -/
theorem Reach.safe (hV : Verified S G) (h0 : G.inv s₀) (hc : Reach S cond s₀ c) : AllSafe G c := by
  induction hc with
  | start => exact ⟨h0, fun t p hp => by rw [Table.get_empty] at hp; cases hp⟩
  | step m _ _ hn ih => exact ih.next hV hn

/-- Whatever a reachable configuration runs next has its precondition. -/
theorem Reach.pre (hV : Verified S G) (h0 : G.inv s₀) (hc : Reach S cond s₀ c) {t : ℕ} {i : I}
    {next : ℕ → σ → Prog σ I ε α} (ht : c.threads.get t = some (.act i next)) {s : σ}
    (hs : S.exec i t c.state = some s) : G.pre i t c.state :=
  ((hc.safe hV h0).2 t _ ht _ (G.rely_refl t _) (hc.safe hV h0).1 _ hs).1

/-- How one move changes the state: not at all, by one instruction that meets its precondition and
the side condition, by an abort or by an event. -/
inductive Effect (S : System σ I ε α C V) (G : Contract σ I S.exec) (cond : I → ℕ → σ → Prop)
    (s : σ) : σ → Prop
  | none : Effect S G cond s s
  | instr {i t s'} : G.pre i t s → cond i t s → S.exec i t s = some s' → Effect S G cond s s'
  | abort (t) : Effect S G cond s (S.abort t s)
  | event {v s'} : S.event v s = some s' → Effect S G cond s s'

theorem Reach.effect {cond' : I → ℕ → σ → Prop} (hV : Verified S G) (h0 : G.inv s₀)
    (hc : Reach S cond s₀ c) {m : Move C V} (hm : Meets cond' c m) (hn : c.next S m = some c') :
    Effect S G cond' c.state c'.state := by
  cases m with
  | call a =>
    simp only [Config.next] at hn
    split_ifs at hn
    cases hn
    exact .none
  | run t n =>
    simp only [Config.next] at hn
    split at hn
    · cases hn
      exact .none
    · rename_i i next ht
      obtain ⟨s, hs, rfl⟩ := Option.map_eq_some_iff.mp hn
      exact .instr (hc.pre hV h0 ht hs) (hm i next ht) hs
    · cases hn
  | abort t =>
    simp only [Config.next] at hn
    split at hn
    · cases hn
      exact .abort t
    · cases hn
  | event v =>
    obtain ⟨s, hs, rfl⟩ := Option.map_eq_some_iff.mp hn
    exact .event hs

theorem Effect.of_only {P : C → Bool} {s s' : σ} (h : Effect (S.only P) G cond s s') :
    Effect S G cond s s' := by
  cases h with
  | none => exact .none
  | instr hp hc hx => exact .instr hp hc hx
  | abort t => exact .abort t
  | event hx => exact .event hx

/-- **An invariant of the instructions is an invariant of the runs.** -/
theorem Reach.invariant (hV : Verified S G) (h0 : G.inv s₀) {P : σ → Prop} (hP : P s₀)
    (hstep : ∀ s s', G.inv s → P s → Effect S G cond s s' → P s') (hc : Reach S cond s₀ c) :
    P c.state := by
  induction hc with
  | start => exact hP
  | step m hc hm hn ih => exact hstep _ _ (hc.safe hV h0).1 ih (hc.effect hV h0 hm hn)

/-- **What others leave as it is holds of every thread that has not been started.** -/
theorem Reach.unstarted (hV : Verified S G) (h0 : G.inv s₀) {P : ℕ → σ → Prop} (hP : ∀ t, P t s₀)
    (hinstr : ∀ {i t t' s s'}, G.inv s → G.pre i t' s → S.exec i t' s = some s' → t ≠ t' → P t s → P t s')
    (habort : ∀ {t s} t', P t s → P t (S.abort t' s))
    (hevent : ∀ {v t s s'}, S.event v s = some s' → P t s → P t s') (hc : Reach S cond s₀ c) :
    ∀ t, c.threads.bound ≤ t → P t c.state := by
  induction hc with
  | start => exact fun t _ => hP t
  | @step c c' m hc hm hn ih =>
    intro t ht
    cases m with
    | call a =>
      simp only [Config.next] at hn
      split_ifs at hn
      cases hn
      exact ih t (le_trans (le_max_left _ _) ht)
    | run t' n =>
      simp only [Config.next] at hn
      split at hn
      · cases hn
        exact ih t (le_trans (le_max_left _ _) ht)
      · rename_i i next hi
        obtain ⟨s', hs', rfl⟩ := Option.map_eq_some_iff.mp hn
        have hb : c.threads.bound ≤ t := le_trans (le_max_left _ _) ht
        have hne : t ≠ t' := fun he => absurd (Table.lt_bound hi) (he ▸ not_lt.mpr hb)
        exact hinstr (hc.safe hV h0).1 (hc.pre hV h0 hi hs') hs' hne (ih t hb)
      · cases hn
    | abort t' =>
      simp only [Config.next] at hn
      split at hn
      · cases hn
        exact habort t' (ih t ht)
      · cases hn
    | event v =>
      obtain ⟨s', hs', rfl⟩ := Option.map_eq_some_iff.mp hn
      exact hevent hs' (ih t ht)

end Soundness

end Concurrent
