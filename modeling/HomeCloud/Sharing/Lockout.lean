import HomeCloud.Sharing.Password

/-!
# Overlapping password attempts

The attempts on one share, statement by statement, by the clocks of the server and of the database.

* `Attempt`, `LockState`, `LockState.run`: the attempts and their statements.
* `Ran`, **`ran_of_run`**: what a statement of an attempt does.
* `Lockout`: what holds in every reachable state.
* **`lockout_law`**: admissions between resets, the lock, and attempts with the right password;
  `not_lockout`: what overlapping attempts do.
-/

namespace HomeCloud

open Sql

namespace Lockout

/-! ## Attempts -/

/-- How far an attempt has come: nothing is read, the share is read, the UPDATE has been started, it
has been counted and let through, its password has been found right, or it is done. -/
inductive Phase where
  | waiting
  | seen (share : ShareLink)
  | counting (share : ShareLink) (now : ℕ)
  | admitted (share : ShareLink)
  | matched (share : ShareLink)
  | done (result : Except Err Unit)

structure Attempt where
  password : ℕ
  phase : Phase

/-- What happens to the counter: an attempt is counted and let through to the comparison of its
password, which is right or wrong, succeeds, or starts a lock. -/
inductive Event where
  | admitted (i : ℕ)
  | compared (i : ℕ) (ok : Bool)
  | success (i : ℕ)
  | locked (i : ℕ)
  deriving DecidableEq

/-- The success of an attempt, or the start of a lock. -/
def Event.resets : Event → Bool
  | .success _ | .locked _ => true
  | _ => false

def Event.admits : Event → Bool
  | .admitted _ => true
  | _ => false

/-- A wrong password is compared. -/
def Event.fails : Event → Bool
  | .compared _ ok => !ok
  | _ => false

/-- The row of the share, the clocks, and the attempts made. No statement reads `trace`, the events so
far, the last one first. -/
structure LockState where
  share : ShareLink
  jsNow : ℕ
  dbNow : ℕ
  attempts : List Attempt
  trace : List Event

def tooMany : Err := .forbidden "Too many password attempts"

namespace LockState

variable (s : LockState) (i : ℕ)

/-- The attempt `i` with the password gets to the phase. -/
def move (password : ℕ) (phase : Phase) : LockState :=
  { s with attempts := s.attempts.set i ⟨password, phase⟩ }

/-- Something happens. -/
def record (e : Event) : LockState := { s with trace := e :: s.trace }

/-- The next statement of the attempt `i` on the share `id`, whose file and owner are live. The UPDATE
goes by the time at which it has been started, and may have waited for the row since. -/
def run (compare : ℕ → ℕ → Bool) (id : ℕ) : Option LockState := do
  let a ← s.attempts[i]?
  match a.phase with
  | .waiting =>
    if !s.share.isActive || !s.share.expiresAt.all (s.jsNow < ·) then
      some (s.move i a.password (.done (.error (.notFound "Share link not found or expired"))))
    else if s.share.password = none then
      some (s.move i a.password
        (.done (.error (.forbidden "Password not required for this share link"))))
    else if s.share.lockedUntil.any (s.jsNow < ·) then
      some (s.move i a.password (.done (.error tooMany)))
    else some (s.move i a.password (.seen s.share))
  | .seen share => some (s.move i a.password (.counting share s.dbNow))
  | .counting share now =>
    if (attemptCondition id now).holds (id, s.share) then
      let updatedShare := countAttempt now s.share
      if lockThreshold ≤ updatedShare.failedAttempts then
        some ({ s with share := updatedShare }.move i a.password (.done (.error tooMany))
          |>.record (.locked i))
      else some ({ s with share := updatedShare }.move i a.password (.admitted share)
          |>.record (.admitted i))
    else some (s.move i a.password (.done (.error tooMany)))
  | .admitted share =>
    if share.password.any (compare a.password) then
      some (s.move i a.password (.matched share) |>.record (.compared i true))
    else
      some (s.move i a.password (.done (.error (.forbidden "Invalid password")))
        |>.record (.compared i false))
  | .matched share =>
    let reset := if 0 < share.failedAttempts || share.lockedUntil.isSome then
        { s.share with failedAttempts := 0, lockedUntil := none }
      else s.share
    some ({ s with share := reset }.move i a.password (.done (.ok ())) |>.record (.success i))
  | .done _ => none

end LockState

/-- The clocks go on, someone makes an attempt, or an attempt runs a statement. -/
inductive Move where
  | tick (js db : ℕ)
  | call (password : ℕ)
  | run (i : ℕ)

def LockState.next (compare : ℕ → ℕ → Bool) (id : ℕ) (s : LockState) : Move → Option LockState
  | .tick js db => some { s with jsNow := s.jsNow + js, dbNow := s.dbNow + db }
  | .call password => some { s with attempts := s.attempts ++ [⟨password, .waiting⟩] }
  | .run i => s.run i compare id

/-- A new share, on which no attempts have been made. -/
structure Fresh (s : LockState) : Prop where
  failedAttempts : s.share.failedAttempts = 0
  lockedUntil : s.share.lockedUntil = none
  attempts : s.attempts = []
  trace : s.trace = []

/-- The states of runs, all of which satisfy `ok`. -/
inductive Reached (compare : ℕ → ℕ → Bool) (id : ℕ) (ok : LockState → Prop) : LockState → Prop
  | start {s} : Fresh s → Reached compare id ok s
  | step {s s'} (m : Move) : Reached compare id ok s → s.next compare id m = some s' → ok s' →
      Reached compare id ok s'

/-! ## What a statement does -/

section Runs

variable {compare : ℕ → ℕ → Bool} {id : ℕ} {s s' : LockState} {i : ℕ} {ok : LockState → Prop}

/-- What the statement of the attempt `i`, with the password, does: it reads, starts the UPDATE, is
refused, is counted and let through, starts a lock, compares its password, or succeeds. -/
inductive Ran (compare : ℕ → ℕ → Bool) (s : LockState) (i password : ℕ) : Phase → LockState → Prop
  | read : Ran compare s i password .waiting (s.move i password (.seen s.share))
  | started {share} : Ran compare s i password (.seen share)
      (s.move i password (.counting share s.dbNow))
  | refused {old e} : (old = .waiting ∨ ∃ share now, old = .counting share now) →
      (e = tooMany ∧ s.share.lockedUntil ≠ none ∨ s.share.password = none ∨ ∃ m, e = .notFound m) →
      Ran compare s i password old (s.move i password (.done (.error e)))
  | counted {share now} : (s.share.lockedUntil = none ∨ lockPassed now s.share = some true) →
      (countAttempt now s.share).failedAttempts < lockThreshold →
      Ran compare s i password (.counting share now)
        (({ s with share := countAttempt now s.share }.move i password (.admitted share)).record
          (.admitted i))
  | locked {share now} : (s.share.lockedUntil = none ∨ lockPassed now s.share = some true) →
      lockThreshold ≤ (countAttempt now s.share).failedAttempts →
      Ran compare s i password (.counting share now)
        (({ s with share := countAttempt now s.share }.move i password (.done (.error tooMany))).record
          (.locked i))
  | right {share} : share.password.any (compare password) = true →
      Ran compare s i password (.admitted share)
        ((s.move i password (.matched share)).record (.compared i true))
  | wrong {share} : share.password.any (compare password) = false →
      Ran compare s i password (.admitted share)
        ((s.move i password (.done (.error (.forbidden "Invalid password")))).record
          (.compared i false))
  | success {share reset} : reset = (if 0 < share.failedAttempts || share.lockedUntil.isSome then
        { s.share with failedAttempts := 0, lockedUntil := none } else s.share) →
      Ran compare s i password (.matched share)
        (({ s with share := reset }.move i password (.done (.ok ()))).record (.success i))

/-- **What a statement of an attempt does.** -/
theorem ran_of_run (h : s.run i compare id = some s') :
    ∃ a, s.attempts[i]? = some a ∧ Ran compare s i a.password a.phase s' := by
  unfold LockState.run at h
  cases ha : s.attempts[i]? with
  | none =>
    rw [ha] at h
    cases h
  | some a =>
    refine ⟨a, rfl, ?_⟩
    simp only [ha, Option.bind_eq_bind, Option.bind_some] at h
    cases hphase : a.phase with
    | waiting =>
      rw [hphase] at h
      dsimp only at h
      split_ifs at h with h₁ h₂ h₃
      · cases h
        exact .refused (.inl rfl) (.inr (.inr ⟨_, rfl⟩))
      · cases h
        exact .refused (.inl rfl) (.inr (.inl h₂))
      · cases h
        refine .refused (.inl rfl) (.inl ⟨rfl, fun hn => ?_⟩)
        rw [hn] at h₃
        cases h₃
      · cases h
        exact .read
    | seen share =>
      rw [hphase] at h
      dsimp only at h
      cases h
      exact .started
    | counting share now =>
      rw [hphase] at h
      dsimp only at h
      split_ifs at h with h₁ h₂
      · cases h
        exact .locked ((attemptCondition_holds.mp h₁).imp And.right fun hp => hp) h₂
      · cases h
        exact .counted ((attemptCondition_holds.mp h₁).imp And.right fun hp => hp) (not_le.mp h₂)
      · cases h
        refine .refused (.inr ⟨share, now, rfl⟩) (.inl ⟨rfl, fun hn => ?_⟩)
        exact h₁ (attemptCondition_holds.mpr (.inl ⟨rfl, hn⟩))
    | admitted share =>
      rw [hphase] at h
      dsimp only at h
      split_ifs at h with h₁
      · cases h
        exact .right h₁
      · cases h
        exact .wrong (eq_false_of_ne_true h₁)
    | matched share =>
      rw [hphase] at h
      dsimp only at h
      cases h
      exact .success rfl
    | done result =>
      rw [hphase] at h
      dsimp only at h
      cases h

/-! ## Admissions -/

/-- The attempts let through since the last event that resets the counter. -/
def since : List Event → ℕ
  | [] => 0
  | e :: trace => if e.resets then 0 else (if e.admits then 1 else 0) + since trace

/-- Every comparison is of an attempt that has been let through, and every attempt is let through once
and compared once. -/
def Orderly : List Event → Prop
  | [] => True
  | .admitted i :: trace => .admitted i ∉ trace ∧ Orderly trace
  | .compared i _ :: trace => .admitted i ∈ trace ∧ (∀ ok, .compared i ok ∉ trace) ∧ Orderly trace
  | _ :: trace => Orderly trace

/-- The phase of an attempt tells which of its events have happened. -/
def Phase.Fits (trace : List Event) (i : ℕ) : Phase → Prop
  | .waiting | .seen _ | .counting _ _ => .admitted i ∉ trace ∧ ∀ ok, .compared i ok ∉ trace
  | .admitted _ => .admitted i ∈ trace ∧ ∀ ok, .compared i ok ∉ trace
  | .matched _ => .admitted i ∈ trace
  | .done _ => True

/-- What holds in every reachable state. -/
structure Inv (s : LockState) : Prop where
  counted : s.share.lockedUntil = none →
    s.share.failedAttempts < lockThreshold ∧ since s.trace ≤ s.share.failedAttempts
  locked : s.share.lockedUntil ≠ none → since s.trace = 0 ∧ ∃ later i earlier,
    s.trace = later ++ .locked i :: earlier ∧ ∀ e ∈ later, e.admits = false ∧ ∀ j, e ≠ .locked j
  few : ∀ trace, trace <:+ s.trace → since trace < lockThreshold
  orderly : Orderly s.trace
  fits : ∀ (i : ℕ) (a : Attempt), s.attempts[i]? = some a → a.phase.Fits s.trace i
  bound : ∀ e ∈ s.trace, ∀ i, e = .admitted i ∨ (∃ ok, e = .compared i ok) → i < s.attempts.length
  started : ∀ (i : ℕ) (a : Attempt) share now, s.attempts[i]? = some a → a.phase = .counting share now → now ≤ s.dbNow

/-- An event of another attempt does not concern an attempt. -/
theorem Phase.Fits.record {trace : List Event} {phase : Phase} {j : ℕ} {e : Event}
    (h : phase.Fits trace j) (he : ∀ k, e = .admitted k ∨ (∃ ok, e = .compared k ok) → k ≠ j) :
    phase.Fits (e :: trace) j := by
  have hadmitted : .admitted j ∉ trace → .admitted j ∉ e :: trace := fun hn hm =>
    (List.mem_cons.mp hm).elim (fun heq => he j (.inl heq.symm) rfl) hn
  have hcompared : (∀ ok, .compared j ok ∉ trace) → ∀ ok, .compared j ok ∉ e :: trace :=
    fun hn ok hm => (List.mem_cons.mp hm).elim (fun heq => he j (.inr ⟨ok, heq.symm⟩) rfl) (hn ok)
  cases phase with
  | waiting => exact ⟨hadmitted h.1, hcompared h.2⟩
  | seen => exact ⟨hadmitted h.1, hcompared h.2⟩
  | counting => exact ⟨hadmitted h.1, hcompared h.2⟩
  | admitted => exact ⟨List.mem_cons_of_mem _ h.1, hcompared h.2⟩
  | matched => exact List.mem_cons_of_mem _ h
  | done => trivial

theorem Fresh.inv (h : Fresh s) : Inv s where
  counted _ := by
    rw [h.failedAttempts, h.trace]
    exact ⟨by decide, le_rfl⟩
  locked hl := absurd h.lockedUntil hl
  few trace ht := by
    rw [h.trace, List.suffix_nil] at ht
    subst ht
    decide
  orderly := by
    rw [h.trace]
    trivial
  fits i a ha := by
    rw [h.attempts] at ha
    cases ha
  bound e he := by
    rw [h.trace] at he
    cases he
  started i a share now ha := by
    rw [h.attempts] at ha
    cases ha

/-- A move of the attempt `i` without an event. -/
theorem Inv.move {password : ℕ} {phase : Phase} (h : Inv s)
    (hfits : phase.Fits s.trace i) (hnow : ∀ share now, phase = .counting share now → now ≤ s.dbNow) :
    Inv (s.move i password phase) where
  counted := h.counted
  locked := h.locked
  few := h.few
  orderly := h.orderly
  fits j b hb := by
    rw [LockState.move, List.getElem?_set] at hb
    split_ifs at hb with hij hlt
    · cases hb
      exact hij ▸ hfits
    · exact h.fits j b hb
  bound e he k hk := by
    rw [LockState.move, List.length_set]
    exact h.bound e he k hk
  started j b share now hb hphase := by
    rw [LockState.move, List.getElem?_set] at hb
    split_ifs at hb with hij hlt
    · cases hb
      exact hnow share now hphase
    · exact h.started j b share now hb hphase

/-- A move of the attempt `i` with an event, after which the row is as it should be. -/
theorem Inv.event {a : Attempt} {phase : Phase} {e : Event} (h : Inv s) (share : ShareLink)
    (ha : s.attempts[i]? = some a)
    (hcounted : share.lockedUntil = none →
      share.failedAttempts < lockThreshold ∧ since (e :: s.trace) ≤ share.failedAttempts)
    (hlocked : share.lockedUntil ≠ none → since (e :: s.trace) = 0 ∧ ∃ later i earlier,
      e :: s.trace = later ++ .locked i :: earlier ∧
        ∀ e ∈ later, e.admits = false ∧ ∀ j, e ≠ .locked j)
    (hfew : since (e :: s.trace) < lockThreshold) (horderly : Orderly (e :: s.trace))
    (hfits : phase.Fits (e :: s.trace) i)
    (he : ∀ k, e = .admitted k ∨ (∃ ok, e = .compared k ok) → k = i)
    (hnow : ∀ share now, phase ≠ .counting share now) :
    Inv (({ s with share := share }.move i a.password phase).record e) where
  counted := hcounted
  locked := hlocked
  few trace ht := by
    rcases List.suffix_cons_iff.mp ht with rfl | ht
    · exact hfew
    · exact h.few trace ht
  orderly := horderly
  fits j b hb := by
    rw [LockState.record, LockState.move, List.getElem?_set] at hb
    split_ifs at hb with hij hlt
    · cases hb
      exact hij ▸ hfits
    · exact (h.fits j b hb).record fun k hk hkj => hij ((he k hk).symm.trans hkj)
  bound e' he' k hk := by
    rw [LockState.record, LockState.move, List.length_set]
    rcases List.mem_cons.mp he' with rfl | he'
    · rw [he k hk]
      exact (List.getElem?_eq_some_iff.mp ha).1
    · exact h.bound e' he' k hk
  started j b share' now hb hphase := by
    rw [LockState.record, LockState.move, List.getElem?_set] at hb
    split_ifs at hb with hij hlt
    · cases hb
      exact absurd hphase (hnow share' now)
    · exact h.started j b share' now hb hphase

/-- What the UPDATE makes of a row that is not locked, or whose lock has passed. -/
theorem countAttempt_cases {now : ℕ} {r : ShareLink}
    (h : r.lockedUntil = none ∨ lockPassed now r = some true) :
    r.lockedUntil = none ∧ countAttempt now r = { r with
        failedAttempts := r.failedAttempts + 1
        lockedUntil := if lockThreshold ≤ r.failedAttempts + 1 then some (now + lockInterval) else none } ∨
      r.lockedUntil ≠ none ∧ countAttempt now r = { r with failedAttempts := 1, lockedUntil := none } := by
  rcases h with h | h
  · left
    have hno : ¬ lockPassed now r = some true := by simp [lockPassed, h]
    refine ⟨h, ?_⟩
    rw [countAttempt, if_neg hno, h]
  · right
    refine ⟨fun hn => by simp [lockPassed, hn] at h, ?_⟩
    rw [countAttempt, if_pos h]

/-- **Every statement keeps the invariant.** -/
theorem Inv.ran {a : Attempt} (h : Inv s) (ha : s.attempts[i]? = some a)
    (hran : Ran compare s i a.password a.phase s') : Inv s' := by
  have hfits := h.fits i a ha
  -- An event that neither lets an attempt through nor resets leaves the count of the row as it is.
  have hplain : ∀ e : Event, e.resets = false → e.admits = false → since (e :: s.trace) = since s.trace := by
    intro e hr hadm
    simp [since, hr, hadm]
  have hlater : ∀ e : Event, e.admits = false → (∀ j, e ≠ .locked j) → s.share.lockedUntil ≠ none →
      ∃ later i earlier, e :: s.trace = later ++ .locked i :: earlier ∧
        ∀ e ∈ later, e.admits = false ∧ ∀ j, e ≠ .locked j := by
    intro e hadm hno hl
    obtain ⟨-, later, j, earlier, htrace, hall⟩ := h.locked hl
    refine ⟨e :: later, j, earlier, by rw [htrace, List.cons_append], fun e' he' => ?_⟩
    rcases List.mem_cons.mp he' with rfl | he'
    · exact ⟨hadm, hno⟩
    · exact hall e' he'
  generalize hphase : a.phase = phase at hran
  rw [hphase] at hfits
  cases hran with
  | read => exact h.move hfits fun _ _ hp => nomatch hp
  | started => exact h.move hfits fun _ _ hp => by cases hp; exact le_rfl
  | refused => exact h.move trivial fun _ _ hp => nomatch hp
  | @counted share now hfree hlt =>
    have hsince : since (.admitted i :: s.trace) = 1 + since s.trace := rfl
    refine h.event _ ha (fun _ => ⟨hlt, ?_⟩) (fun hl => ?_) ?_ ⟨hfits.1, h.orderly⟩
      ⟨List.mem_cons_self, fun ok hm => ?_⟩ (fun k hk => ?_) fun _ _ hp => nomatch hp
    · rw [hsince]
      rcases countAttempt_cases hfree with ⟨hn, hcount⟩ | ⟨hl, hcount⟩
      · have hle := (h.counted hn).2
        rw [hcount]
        dsimp only
        omega
      · rw [hcount, (h.locked hl).1]
    · refine absurd ?_ hl
      rcases countAttempt_cases hfree with ⟨hn, hcount⟩ | ⟨-, hcount⟩
      · rw [hcount] at hlt ⊢
        exact if_neg (not_le.mpr hlt)
      · rw [hcount]
    · rw [hsince]
      rcases countAttempt_cases hfree with ⟨hn, hcount⟩ | ⟨hl, -⟩
      · have hle := (h.counted hn).2
        rw [hcount] at hlt
        dsimp only at hlt
        omega
      · rw [(h.locked hl).1]
        decide
    · rcases List.mem_cons.mp hm with hm | hm
      · cases hm
      · exact hfits.2 ok hm
    · rcases hk with hk | ⟨ok, hk⟩
      · cases hk
        rfl
      · cases hk
  | @locked share now hfree hle =>
    have hsince : since (.locked i :: s.trace) = 0 := rfl
    refine h.event _ ha (fun hn => ?_) (fun _ => ⟨hsince, [], i, s.trace, rfl, by simp⟩) ?_ h.orderly
      trivial (fun k hk => ?_) fun _ _ hp => nomatch hp
    · rcases countAttempt_cases hfree with ⟨-, hcount⟩ | ⟨-, hcount⟩
      · rw [hcount] at hn hle
        rw [if_pos hle] at hn
        cases hn
      · rw [hcount] at hle
        exact absurd hle (not_le.mpr (by simp [lockThreshold]))
    · rw [hsince]
      decide
    · rcases hk with hk | ⟨ok, hk⟩ <;> cases hk
  | @right share hok =>
    have hsince := hplain (.compared i true) rfl rfl
    refine h.event s.share ha (fun hn => hsince ▸ h.counted hn)
      (fun hl => ⟨hsince ▸ (h.locked hl).1, hlater _ rfl (fun _ => nofun) hl⟩)
      (hsince ▸ h.few _ List.suffix_rfl) ⟨hfits.1, hfits.2, h.orderly⟩
      (List.mem_cons_of_mem _ hfits.1) (fun k hk => ?_) fun _ _ hp => nomatch hp
    rcases hk with hk | ⟨ok, hk⟩ <;> cases hk
    rfl
  | @wrong share hok =>
    have hsince := hplain (.compared i false) rfl rfl
    refine h.event s.share ha (fun hn => hsince ▸ h.counted hn)
      (fun hl => ⟨hsince ▸ (h.locked hl).1, hlater _ rfl (fun _ => nofun) hl⟩)
      (hsince ▸ h.few _ List.suffix_rfl) ⟨hfits.1, hfits.2, h.orderly⟩
      trivial (fun k hk => ?_) fun _ _ hp => nomatch hp
    rcases hk with hk | ⟨ok, hk⟩ <;> cases hk
    rfl
  | @success share reset hreset =>
    have hsince : since (.success i :: s.trace) = 0 := rfl
    refine h.event _ ha (fun hn => ⟨?_, hsince ▸ Nat.zero_le _⟩) (fun hl => ⟨hsince, hlater _ rfl
      (fun _ => nofun) fun hn => hl ?_⟩) (by rw [hsince]; decide) h.orderly trivial (fun k hk => ?_)
      fun _ _ hp => nomatch hp
    · rw [hreset] at hn ⊢
      split_ifs at hn ⊢
      · exact Nat.zero_lt_succ _
      · exact (h.counted hn).1
    · rw [hreset]
      split_ifs
      · rfl
      · exact hn
    · rcases hk with hk | ⟨ok, hk⟩ <;> cases hk

theorem Reached.inv (h : Reached compare id ok s) : Inv s := by
  induction h with
  | start hfresh => exact hfresh.inv
  | @step s s' m hs hnext _ ih =>
    cases m with
    | tick js db =>
      cases hnext
      exact ⟨ih.counted, ih.locked, ih.few, ih.orderly, ih.fits, ih.bound,
        fun i a share now ha hp => (ih.started i a share now ha hp).trans (Nat.le_add_right ..)⟩
    | call password =>
      cases hnext
      have hnew : ∀ (i : ℕ) a, (s.attempts ++ [⟨password, .waiting⟩])[i]? = some a →
          s.attempts[i]? = some a ∨ i = s.attempts.length ∧ a = ⟨password, .waiting⟩ := by
        intro i a ha
        rw [List.getElem?_append] at ha
        split_ifs at ha with hlt
        · exact .inl ha
        · obtain ⟨hi, hget⟩ := List.getElem?_eq_some_iff.mp ha
          rw [List.length_singleton] at hi
          exact .inr ⟨by omega, by simpa using hget.symm⟩
      refine ⟨ih.counted, ih.locked, ih.few, ih.orderly, fun i a ha => ?_, fun e he i hi => ?_,
        fun i a share now ha hp => ?_⟩
      · rcases hnew i a ha with ha | ⟨rfl, rfl⟩
        · exact ih.fits i a ha
        · exact ⟨fun hm => (ih.bound _ hm _ (.inl rfl)).false,
            fun ok hm => (ih.bound _ hm _ (.inr ⟨ok, rfl⟩)).false⟩
      · rw [List.length_append]
        exact Nat.lt_add_right _ (ih.bound e he i hi)
      · rcases hnew i a ha with ha | ⟨-, rfl⟩
        · exact ih.started i a share now ha hp
        · cases hp
    | run i =>
      obtain ⟨a, ha, hran⟩ := ran_of_run hnext
      exact ih.ran ha hran

/-! ## Between resets -/

theorem countP_le_since {between earlier : List Event} (h : ∀ e ∈ between, e.resets = false) :
    between.countP Event.admits ≤ since (between ++ earlier) := by
  induction between with
  | nil => exact Nat.zero_le _
  | cons e between ih =>
    have hle := ih fun e he => h e (List.mem_cons_of_mem _ he)
    have hsince : since (e :: between ++ earlier) =
        (if e.admits then 1 else 0) + since (between ++ earlier) :=
      if_neg (by simp [h e List.mem_cons_self])
    rw [List.countP_cons, hsince]
    omega

/-- Fewer attempts than the threshold are let through between two resets. -/
theorem Inv.between (h : Inv s) {later between earlier : List Event}
    (htrace : s.trace = later ++ between ++ earlier) (hno : ∀ e ∈ between, e.resets = false) :
    between.countP Event.admits < lockThreshold := by
  have hsuffix : between ++ earlier <:+ s.trace := ⟨later, by rw [htrace, List.append_assoc]⟩
  exact (countP_le_since hno).trans_lt (h.few _ hsuffix)

/-! ## While a lock is in force -/

/-- The attempt has been let through before the present lock began. -/
def AdmittedBefore (s : LockState) (i : ℕ) : Prop :=
  ∃ later j earlier, s.trace = later ++ .locked j :: earlier ∧ (∀ e ∈ later, e.admits = false) ∧
    .admitted i ∈ earlier

theorem Inv.admittedBefore (h : Inv s) (hl : s.share.lockedUntil ≠ none)
    (hi : .admitted i ∈ s.trace) : AdmittedBefore s i := by
  obtain ⟨-, later, j, earlier, htrace, hlater⟩ := h.locked hl
  refine ⟨later, j, earlier, htrace, fun e he => (hlater e he).1, ?_⟩
  rw [htrace, List.mem_append, List.mem_cons] at hi
  rcases hi with hi | hi | hi
  · exact absurd (hlater _ hi).1 (by simp [Event.admits])
  · cases hi
  · exact hi

/-- **While a lock is in force, no move changes the row, except the success of an attempt that was let
through before the lock began.** -/
theorem Inv.lock_kept (h : Inv s) {time : ℕ} (hl : s.share.lockedUntil = some time)
    (hforce : s.dbNow < time) {m : Move} (hnext : s.next compare id m = some s') :
    s'.share = s.share ∨ ∃ i, s'.trace = .success i :: s.trace ∧ AdmittedBefore s i := by
  have hne : s.share.lockedUntil ≠ none := fun hn => nomatch hl.symm.trans hn
  cases m with
  | tick js db =>
    cases hnext
    exact .inl rfl
  | call password =>
    cases hnext
    exact .inl rfl
  | run i =>
    obtain ⟨a, ha, hran⟩ := ran_of_run hnext
    -- A statement that has been started before the lock ends does not see the lock passed.
    have hnot : ∀ share now, a.phase = .counting share now →
        ¬ (s.share.lockedUntil = none ∨ lockPassed now s.share = some true) := by
      intro share now hp hfree
      have hle := h.started i a share now ha hp
      rcases hfree with hn | hpassed
      · exact hne hn
      · rw [lockPassed, hl, Option.map_some, Option.some.injEq, decide_eq_true_eq] at hpassed
        omega
    have hfits := h.fits i a ha
    generalize a.phase = phase at hran hnot hfits
    cases hran with
    | read => exact .inl rfl
    | started => exact .inl rfl
    | refused => exact .inl rfl
    | counted hfree => exact absurd hfree (hnot _ _ rfl)
    | locked hfree => exact absurd hfree (hnot _ _ rfl)
    | right => exact .inl rfl
    | wrong => exact .inl rfl
    | success => exact .inr ⟨i, rfl, h.admittedBefore hne hfits⟩

/-! ## The right password -/

/-- The attempt has not been answered yet. -/
def Attempt.inFlight (a : Attempt) : Bool :=
  match a.phase with
  | .done _ => false
  | _ => true

/-- All attempts present the right password, and at most two are in flight. -/
def Apart (compare : ℕ → ℕ → Bool) (s : LockState) : Prop :=
  (∀ a ∈ s.attempts, s.share.password.any (compare a.password) = true) ∧
  s.attempts.countP Attempt.inFlight ≤ 2

/-- The attempt has read a zero and is not counted yet. -/
def Attempt.readsZero (a : Attempt) : Bool :=
  match a.phase with
  | .seen share | .counting share _ => share.failedAttempts == 0
  | _ => false

/-- The attempt has been counted and will reset the counter when it succeeds. -/
def Attempt.willReset (a : Attempt) : Bool :=
  match a.phase with
  | .admitted share | .matched share => 0 < share.failedAttempts
  | _ => false

/-- The phase of an attempt with the right password, on a share that has never been locked. -/
def Phase.Right (password : Option ℕ) : Phase → Prop
  | .waiting => True
  | .seen share | .counting share _ | .admitted share | .matched share =>
    share.password = password ∧ share.lockedUntil = none
  | .done result => ∀ e, result = .error e → ∃ m, e = .notFound m

/-- What holds while `Apart` does. -/
structure Unlocked (s : LockState) : Prop where
  unlocked : s.share.lockedUntil = none
  phases : ∀ a ∈ s.attempts, a.phase.Right s.share.password
  few : s.share.failedAttempts + s.attempts.countP Attempt.readsZero ≤
    s.attempts.countP Attempt.willReset + 2

/-- Two kinds of attempts in flight of which no attempt is both. -/
theorem countP_inFlight (l : List Attempt) :
    l.countP Attempt.readsZero + l.countP Attempt.willReset ≤ l.countP Attempt.inFlight := by
  induction l with
  | nil => exact le_rfl
  | cons a l ih =>
    have hone : (if a.readsZero then 1 else 0) + (if a.willReset then 1 else 0) ≤
        if a.inFlight then 1 else 0 := by
      unfold Attempt.readsZero Attempt.willReset Attempt.inFlight
      cases a.phase <;> dsimp only <;> split_ifs <;> simp_all
    simp only [List.countP_cons]
    omega

/-- How a count of the attempts changes when one gets to a phase. -/
theorem countP_set (p : Attempt → Bool) {l : List Attempt} {a b : Attempt} (ha : l[i]? = some a) :
    (l.set i b).countP p + (if p a then 1 else 0) = l.countP p + if p b then 1 else 0 := by
  obtain ⟨hi, hget⟩ := List.getElem?_eq_some_iff.mp ha
  have hpos : p a = true → 0 < l.countP p := fun hp =>
    List.countP_pos_iff.mpr ⟨a, List.mem_of_getElem? ha, hp⟩
  rw [List.countP_set hi, hget]
  split_ifs at hpos ⊢ with h₁ h₂
  all_goals try have := hpos h₁
  all_goals omega

theorem countP_set_eq (p : Attempt → Bool) {l : List Attempt} {a b : Attempt} (ha : l[i]? = some a)
    (hp : p b = p a) : (l.set i b).countP p = l.countP p := by
  have hset := countP_set p (b := b) ha
  rw [hp] at hset
  exact Nat.add_right_cancel hset

/-- A move of an attempt keeps the invariant when the counter and the row are as they should be. -/
theorem Unlocked.set {password : ℕ} {phase : Phase} {share : ShareLink} (h : Unlocked s)
    (hpassword : share.password = s.share.password) (hl : share.lockedUntil = none)
    (hphase : phase.Right s.share.password)
    (hfew : share.failedAttempts + (s.attempts.set i ⟨password, phase⟩).countP Attempt.readsZero ≤
      (s.attempts.set i ⟨password, phase⟩).countP Attempt.willReset + 2) :
    Unlocked ({ s with share := share }.move i password phase) where
  unlocked := hl
  phases b hb := by
    change b.phase.Right share.password
    rw [hpassword]
    rcases List.mem_or_eq_of_mem_set hb with hb | rfl
    · exact h.phases b hb
    · exact hphase
  few := hfew

theorem Unlocked.record {e : Event} (h : Unlocked s) : Unlocked (s.record e) :=
  ⟨h.unlocked, h.phases, h.few⟩

/-- **While all attempts present the right password and at most two are in flight, no statement locks
the share.** -/
theorem Unlocked.ran {a : Attempt} (h : Unlocked s) (hs : Apart compare s) (hs' : Apart compare s')
    (ha : s.attempts[i]? = some a) (hran : Ran compare s i a.password a.phase s') : Unlocked s' := by
  obtain ⟨password, phase⟩ := a
  have hmem : ⟨password, phase⟩ ∈ s.attempts := List.mem_of_getElem? ha
  have hright := hs.1 _ hmem
  have hphase := h.phases _ hmem
  have hzero := fun b => countP_set (b := b) Attempt.readsZero ha
  have hreset := fun b => countP_set (b := b) Attempt.willReset ha
  have hflight := (countP_inFlight s'.attempts).trans hs'.2
  have hfew := h.few
  dsimp only at hran hright hphase
  cases hran with
  | read =>
    refine h.set rfl h.unlocked ⟨rfl, h.unlocked⟩ ?_
    have hz := hzero ⟨password, .seen s.share⟩
    have hr := hreset ⟨password, .seen s.share⟩
    simp only [LockState.move, Attempt.readsZero, Attempt.willReset, beq_iff_eq, Bool.false_eq_true,
      if_false, add_zero] at hz hr hflight
    split_ifs at hz <;> omega
  | @started share =>
    refine h.set rfl h.unlocked hphase ?_
    rw [countP_set_eq _ ha, countP_set_eq _ ha]
    · exact hfew
    all_goals rfl
  | @refused _ e hold he =>
    have hnot : ∃ m, e = .notFound m := by
      rcases he with ⟨-, hl⟩ | hp | hm
      · exact absurd h.unlocked hl
      · rw [hp] at hright
        cases hright
      · exact hm
    refine h.set rfl h.unlocked (fun e' he' => by cases he'; exact hnot) ?_
    rcases hold with rfl | ⟨share, now, rfl⟩
    · rw [countP_set_eq _ ha, countP_set_eq _ ha]
      · exact hfew
      all_goals rfl
    · have hz := hzero ⟨password, .done (.error e)⟩
      simp only [Attempt.readsZero, Bool.false_eq_true, if_false, add_zero] at hz
      rw [countP_set_eq Attempt.willReset ha (by rfl)]
      omega
  | @counted share now hfree hlt =>
    obtain ⟨-, hcount⟩ := (countAttempt_cases hfree).resolve_right fun hc => hc.1 h.unlocked
    rw [hcount] at hlt ⊢
    refine Unlocked.record (h.set rfl (if_neg (not_le.mpr hlt)) hphase ?_)
    have hz := hzero ⟨password, .admitted share⟩
    have hr := hreset ⟨password, .admitted share⟩
    simp only [Attempt.readsZero, Attempt.willReset, beq_iff_eq, decide_eq_true_eq,
      Bool.false_eq_true, if_false, add_zero] at hz hr ⊢
    split_ifs at hz hr <;> omega
  | @locked share now hfree hle =>
    -- At most one attempt in flight besides this one, so the counter has not got so far.
    obtain ⟨-, hcount⟩ := (countAttempt_cases hfree).resolve_right fun hc => hc.1 h.unlocked
    rw [hcount] at hle
    have hz := hzero ⟨password, .done (.error tooMany)⟩
    have hr := hreset ⟨password, .done (.error tooMany)⟩
    have hin := countP_set (b := ⟨password, .done (.error tooMany)⟩) Attempt.inFlight ha
    have hboth := countP_inFlight (s.attempts.set i ⟨password, .done (.error tooMany)⟩)
    have htwo := hs.2
    simp only [Attempt.readsZero, Attempt.willReset, Attempt.inFlight, Bool.false_eq_true, if_false,
      if_true, add_zero, lockThreshold] at hz hr hin hle
    omega
  | @right share hok =>
    refine Unlocked.record (h.set rfl h.unlocked hphase ?_)
    rw [countP_set_eq _ ha, countP_set_eq _ ha]
    · exact hfew
    all_goals rfl
  | @wrong share hno =>
    rw [hphase.1, hright] at hno
    cases hno
  | @success share reset hreset' =>
    have hz := hzero ⟨password, .done (.ok ())⟩
    have hr := hreset ⟨password, .done (.ok ())⟩
    rw [hphase.2, Option.isSome_none, Bool.or_false] at hreset'
    simp only [LockState.move, LockState.record, Attempt.readsZero, Attempt.willReset, decide_eq_true_eq,
      Bool.false_eq_true, if_false, add_zero] at hz hr hflight hreset'
    split_ifs at hreset' hr with hpos
    · subst hreset'
      exact Unlocked.record (h.set rfl rfl (fun _ he => nomatch he) (by dsimp only; omega))
    · subst hreset'
      exact Unlocked.record (h.set rfl h.unlocked (fun _ he => nomatch he) (by omega))

theorem Reached.apart (h : Reached compare id (Apart compare) s) : Apart compare s := by
  cases h with
  | start hfresh =>
    unfold Apart
    rw [hfresh.attempts]
    exact ⟨fun _ ha => (nomatch ha), Nat.zero_le _⟩
  | step _ _ _ hs => exact hs

theorem Reached.unlocked (h : Reached compare id (Apart compare) s) : Unlocked s := by
  induction h with
  | @start s hfresh =>
    have hattempts := hfresh.attempts
    refine ⟨hfresh.lockedUntil, fun a ha => ?_, ?_⟩
    · rw [hattempts] at ha
      cases ha
    · rw [hattempts, hfresh.failedAttempts]
      exact Nat.zero_le _
  | @step s s' m hs hnext hs' ih =>
    cases m with
    | tick js db =>
      cases hnext
      exact ⟨ih.unlocked, ih.phases, ih.few⟩
    | call password =>
      cases hnext
      refine ⟨ih.unlocked, fun a ha => ?_, ?_⟩
      · rcases List.mem_append.mp ha with ha | ha
        · exact ih.phases a ha
        · rw [List.mem_singleton.mp ha]
          trivial
      · rw [List.countP_append, List.countP_append]
        exact ih.few
    | run i =>
      obtain ⟨a, ha, hran⟩ := ran_of_run hnext
      exact ih.ran hs.apart hs' ha hran

end Runs

/-- **Between two events that reset the counter fewer attempts than the threshold are let through, each
is compared once and after it has been let through; while a lock is in force the row is changed only by
the success of an attempt that was let through before; and when all attempts present the right password
and at most two are in flight, the share is never locked and none is refused.** -/
theorem lockout_law (compare : ℕ → ℕ → Bool) (id : ℕ) :
    (∀ ok s, Reached compare id ok s →
      (∀ later between earlier, s.trace = later ++ between ++ earlier →
        (∀ e ∈ between, e.resets = false) → between.countP Event.admits < lockThreshold) ∧
      Orderly s.trace ∧
      ∀ time m s', s.share.lockedUntil = some time → s.dbNow < time →
        s.next compare id m = some s' →
        s'.share = s.share ∨ ∃ i, s'.trace = .success i :: s.trace ∧ AdmittedBefore s i) ∧
    ∀ s, Reached compare id (Apart compare) s → s.share.lockedUntil = none ∧
      ∀ a ∈ s.attempts, ∀ e, a.phase = .done (.error e) → ∃ m, e = .notFound m := by
  refine ⟨fun ok s hs => ?_, fun s hs => ⟨hs.unlocked.unlocked, fun a ha e he => ?_⟩⟩
  · have hinv := hs.inv
    exact ⟨fun _ _ _ => hinv.between, hinv.orderly, fun _ _ _ hl hforce => hinv.lock_kept hl hforce⟩
  · have hphase := hs.unlocked.phases a ha
    rw [he] at hphase
    exact hphase e rfl

/-! ## Runs -/

/-- The state after the moves, when `ok` is true of each on the way. -/
def LockState.after (compare : ℕ → ℕ → Bool) (id : ℕ) (ok : LockState → Bool) :
    LockState → List Move → Option LockState
  | s, [] => some s
  | s, m :: moves =>
    match s.next compare id m with
    | some s' => if ok s' then s'.after compare id ok moves else none
    | none => none

theorem Reached.after {compare : ℕ → ℕ → Bool} {id : ℕ} {P : LockState → Prop}
    {ok : LockState → Bool} (hok : ∀ s, ok s = true → P s) {moves : List Move} {s s' : LockState}
    (h : Reached compare id P s) (hmoves : s.after compare id ok moves = some s') :
    Reached compare id P s' := by
  induction moves generalizing s with
  | nil =>
    cases hmoves
    exact h
  | cons m moves ih =>
    rw [LockState.after] at hmoves
    cases hnext : s.next compare id m with
    | none =>
      rw [hnext] at hmoves
      cases hmoves
    | some s₁ =>
      rw [hnext] at hmoves
      dsimp only at hmoves
      split_ifs at hmoves with h₁
      exact ih (h.step m hnext (hok s₁ h₁)) hmoves

/-- A share with the password 7, before any attempt. -/
def newShare : LockState :=
  ⟨⟨11, some 7, none, none, true, 0, false, false, 1, 1⟩, 0, 0, [], []⟩

theorem newShare_fresh : Fresh newShare := ⟨rfl, rfl, rfl, rfl⟩

/-- An attempt with the password, with the number `i`, and the statements that it runs. -/
def newAttempt (password i statements : ℕ) : List Move :=
  .call password :: List.replicate statements (.run i)

/-- Four wrong passwords are compared after the lock, which a fifth attempt has begun, and one more
when it has passed, before a success. -/
def lateComparisons : List Move :=
  newAttempt 0 0 3 ++ newAttempt 0 1 3 ++ newAttempt 0 2 3 ++ newAttempt 0 3 3 ++ newAttempt 0 4 3 ++
    [.run 0, .run 1, .run 2, .run 3, .tick lockInterval lockInterval] ++ newAttempt 0 5 4 ++
    newAttempt 7 6 5

/-- An attempt with the right password is counted, and three more failures begin a lock. -/
def lockOvertaken : List Move :=
  newAttempt 0 0 4 ++ newAttempt 7 1 3 ++ newAttempt 0 2 4 ++ newAttempt 0 3 4 ++ newAttempt 0 4 3 ++
    [.run 1]

/-- Three attempts with the right password read the same row, and so do two more when those have
succeeded. -/
def rightTogether : List Move :=
  newAttempt 7 0 1 ++ newAttempt 7 1 1 ++ newAttempt 7 2 1 ++
    [.run 0, .run 0, .run 0, .run 0, .run 1, .run 1, .run 1, .run 1, .run 2, .run 2, .run 2, .run 2] ++
    newAttempt 7 3 1 ++ newAttempt 7 4 1 ++ [.run 3, .run 3, .run 4, .run 4]

/-- All attempts present the right password. -/
def AllRight (compare : ℕ → ℕ → Bool) (s : LockState) : Prop :=
  ∀ a ∈ s.attempts, s.share.password.any (compare a.password) = true

instance (compare : ℕ → ℕ → Bool) (s : LockState) : Decidable (AllRight compare s) :=
  inferInstanceAs (Decidable (∀ a ∈ s.attempts, _))

instance (compare : ℕ → ℕ → Bool) (s : LockState) : Decidable (Apart compare s) :=
  inferInstanceAs (Decidable (_ ∧ _))

theorem exists_reached (P : LockState → Prop) [DecidablePred P] (moves : List Move)
    (p : LockState → Bool)
    (h : (newShare.after (· == ·) 1 (fun s => decide (P s)) moves).any p = true) :
    ∃ s, Reached (· == ·) 1 P s ∧ p s = true := by
  obtain ⟨s, hs, hp⟩ := (Option.any_eq_true ..).mp h
  exact ⟨s, (Reached.start newShare_fresh).after (fun _ => of_decide_eq_true) hs, hp⟩

/-- Two attempts with the right password overlap, the second reading what the first has counted; and
three failures begin a lock when an attempt with the right password has been let through. -/
theorem lockout_law_of_runs :
    (∃ s, Reached (· == ·) 1 (Apart (· == ·)) s ∧
      s.trace = [.success 1, .success 0, .compared 1 true, .compared 0 true, .admitted 1, .admitted 0] ∧
      s.share.lockedUntil = none ∧
      ∀ a ∈ s.attempts, ∀ e, a.phase = .done (.error e) → ∃ m, e = .notFound m) ∧
    ∃ s, Reached (· == ·) 1 (fun _ => True) s ∧ s.share.lockedUntil = some lockInterval ∧
      Orderly s.trace ∧ ∀ m s', s.next (· == ·) 1 m = some s' →
        s'.share = s.share ∨ ∃ i, s'.trace = .success i :: s.trace ∧ AdmittedBefore s i := by
  constructor
  · obtain ⟨s, hs, hp⟩ := exists_reached (Apart (· == ·))
      (newAttempt 7 0 3 ++ newAttempt 7 1 3 ++ [.run 0, .run 1, .run 0, .run 1])
      (fun s => decide (s.trace = [.success 1, .success 0, .compared 1 true, .compared 0 true,
        .admitted 1, .admitted 0])) (by decide +kernel)
    exact ⟨s, hs, of_decide_eq_true hp, (lockout_law _ _).2 s hs⟩
  · obtain ⟨s, hs, hp⟩ := exists_reached (fun _ => True) lockOvertaken
      (fun s => decide (s.share.lockedUntil = some lockInterval ∧ s.dbNow < lockInterval))
      (by decide +kernel)
    obtain ⟨hl, hforce⟩ := of_decide_eq_true hp
    obtain ⟨-, horderly, hkept⟩ := (lockout_law _ _).1 _ s hs
    exact ⟨s, hs, hl, horderly, fun m s' => hkept _ m s' hl hforce⟩

/-- Five wrong passwords are compared between a lock and a success; an attempt lifts a lock in force;
and a share is locked by attempts with the right password. -/
theorem not_lockout :
    (¬ ∀ compare id s, Reached compare id (fun _ => True) s → ∀ later between earlier reset reset',
      s.trace = later ++ reset :: (between ++ reset' :: earlier) → reset.resets = true →
      reset'.resets = true → (∀ e ∈ between, e.resets = false) →
      between.countP Event.fails < lockThreshold) ∧
    (¬ ∀ compare id s, Reached compare id (fun _ => True) s → ∀ time m s',
      s.share.lockedUntil = some time → s.dbNow < time → s.next compare id m = some s' →
      s'.share.lockedUntil = some time ∧ s'.share.failedAttempts = s.share.failedAttempts) ∧
    ¬ ∀ compare id s, Reached compare id (AllRight compare) s → s.share.lockedUntil = none ∧
      ∀ a ∈ s.attempts, a.phase ≠ .done (.error tooMany) := by
  refine ⟨fun h => ?_, fun h => ?_, fun h => ?_⟩
  · obtain ⟨s, hs, hp⟩ := exists_reached (fun _ => True) lateComparisons
      (fun s => decide (s.trace = [.success 6, .compared 6 true, .admitted 6, .compared 5 false,
        .admitted 5, .compared 3 false, .compared 2 false, .compared 1 false, .compared 0 false,
        .locked 4, .admitted 3, .admitted 2, .admitted 1, .admitted 0])) (by decide +kernel)
    have hfew := h _ _ s hs [] [.compared 6 true, .admitted 6, .compared 5 false, .admitted 5,
      .compared 3 false, .compared 2 false, .compared 1 false, .compared 0 false] _ _ _
      (of_decide_eq_true hp) rfl rfl (by decide)
    exact absurd hfew (by decide)
  · obtain ⟨s, hs, hp⟩ := exists_reached (fun _ => True) lockOvertaken
      (fun s => decide (s.share.lockedUntil = some lockInterval ∧ s.dbNow < lockInterval) &&
        (s.next (· == ·) 1 (.run 1)).any fun s' : LockState => decide (s'.share.lockedUntil = none))
      (by decide +kernel)
    obtain ⟨hlock, hlifted⟩ := Bool.and_eq_true_iff.mp hp
    obtain ⟨hl, hforce⟩ := of_decide_eq_true hlock
    obtain ⟨s', hnext, hnone⟩ := (Option.any_eq_true ..).mp hlifted
    have hkept := (h _ _ s hs _ _ s' hl hforce hnext).1
    rw [of_decide_eq_true hnone] at hkept
    cases hkept
  · obtain ⟨s, hs, hp⟩ := exists_reached (AllRight (· == ·)) rightTogether
      (fun s => s.share.lockedUntil.isSome) (by decide +kernel)
    rw [(h _ _ s hs).1] at hp
    cases hp

end Lockout

end HomeCloud
