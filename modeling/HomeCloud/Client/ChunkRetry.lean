import HomeCloud.Client.Retry
import HomeCloud.Javascript.Digits
import HomeCloud.Storage.DiskNames
import Mathlib.Data.Rat.Defs
import Mathlib.Tactic.Linarith

/-!
# The budget of the retries of a chunk

Calls of `withChunkRetry` that share one budget, with the times at which they send and wait.

* `retryAfterDelay`, `delayMs`: how long to wait after a failure.
* `Client.next`: what a call does at each event; `Effect` is what can be seen of it.
* `Run`: the sequences of calls, over any responses, clock and jitter.
* `Client.Inv`, `inv_next`: the invariant, with a lemma for each kind of event.
* **`retry_budget`**: what the budget bounds, and the waits that it does not.
-/

namespace HomeCloud

namespace ChunkRetry

open Queue (ApiErrorKind MAX_CHUNK_ATTEMPTS DEFAULT_RETRY_DELAY_MS MAX_RETRY_WAIT_MS)

/-! ## Failures -/

/-- An error of a request; whether its message speaks of too little capacity. -/
structure ApiError where
  kind : ApiErrorKind
  status : Option ℕ
  capacity : Bool
  retryAfter : Option JsString

def isUploadCapacityError (e : ApiError) : Bool :=
  e.kind = .storageCapacity || (e.status = some 503 && e.capacity)

def isRetryable (e : ApiError) : Bool :=
  !isUploadCapacityError e &&
    (e.kind = .network || e.kind = .server || e.kind = .busy || e.kind = .rateLimit)

/-- A rate limit gets a message of its own. -/
def retryFailure (e : ApiError) : ApiError :=
  if e.kind = .rateLimit then ⟨.rateLimit, e.status, false, e.retryAfter⟩ else e

def weekdays : List JsString := ["mon", "tue", "wed", "thu", "fri", "sat", "sun"].map Storage.ascii

/-- The header starts as a date does, in any case. -/
def startsWithDay (header : JsString) : Bool :=
  weekdays.any fun day => [",", "day,", " "].any fun rest =>
    (day ++ Storage.ascii rest).isPrefixOf (header.map Storage.lowerUnit)

def retryAfterDelay (parseDate : JsString → Option ℚ) (now : ℚ) (value : Option JsString) : Option ℚ :=
  match value with
  | none => none
  | some value =>
    let header := trim value
    if value.isEmpty then none
    else if !header.isEmpty && header.all Javascript.isDigit then some (Javascript.digitsValue header * 1000)
    else if !startsWithDay header then none
    else (parseDate header).map fun timestamp => max 0 (timestamp - now)

/-! ## Calls -/

-- `Date.parse` of a date, none for what it cannot read.
variable (parseDate : JsString → Option ℚ)

structure RetryBudget where
  remainingWaitMs : ℚ
  deadline : Option ℚ
  notBefore : Option ℚ

/-- Where a call is: none is made, its attempt is sent, or it waits before an attempt until a time. -/
inductive Phase where
  | idle
  | sending (attempt : ℕ)
  | waiting (attempt : ℕ) (time : ℚ)

inductive Response where
  | success
  | failure (e : ApiError)
  | thrown

/-- What a call returns or throws. -/
inductive Outcome where
  | returned
  | aborted
  | rateLimited
  | deadlinePassed
  | failed (e : ApiError)
  | thrown

/-- What can be seen of the calls: an attempt at a time, a wait, a time before which the server wants no attempt. -/
inductive Effect where
  | begins
  | sends (time : ℚ)
  | waits (atFirst : Bool) (ms : ℚ)
  | asked (retried : Bool) (time : ℚ)
  | ends (o : Outcome)
  | resets (ms : ℚ)

/-- The client that makes the calls, one after the other; `retryDelayMs` is that of the call, none if it is not
finite. -/
structure Client where
  budget : RetryBudget
  phase : Phase
  retryDelayMs : Option ℚ
  aborted : Bool
  now : ℚ

inductive Event where
  | begin (retryDelayMs : Option ℚ) (aborted : Bool)
  | elapsed
  | abort
  | responded (r : Response) (random : ℚ)
  | reset (ms : ℚ)

/-- How long an attempt that has failed makes the call wait. -/
def delayMs (retryDelayMs : Option ℚ) (now : ℚ) (attempt : ℕ) (e : ApiError) (random : ℚ) : ℚ :=
  let fallbackMs := max (if e.kind = .rateLimit then (DEFAULT_RETRY_DELAY_MS : ℚ) else 0)
    (retryDelayMs.getD DEFAULT_RETRY_DELAY_MS) * 2 ^ (attempt - 1)
  let jitteredMs := if e.status = some 503 then max (DEFAULT_RETRY_DELAY_MS : ℚ) fallbackMs * (1 + random * (1 / 4))
    else fallbackMs
  max jitteredMs ((retryAfterDelay parseDate now e.retryAfter).getD 0)

def RetryBudget.remainingBackoff (budget : RetryBudget) (now : ℚ) : ℚ := max 0 (budget.notBefore.getD 0 - now)

namespace Client

variable (c : Client)

def finish (o : Outcome) : Client × List Effect := ({ c with phase := .idle }, [.ends o])

/-- The head of the loop. -/
def attempt (n : ℕ) : Client × List Effect :=
  if c.aborted then c.finish .aborted
  else if c.budget.deadline.any (· ≤ c.now) then c.finish .deadlinePassed
  else ({ c with phase := .sending n }, [.sends c.now])

/-- `abortableDelay` before the attempt `n`. -/
def delay (atFirst : Bool) (n : ℕ) (ms : ℚ) : Client × List Effect :=
  if c.aborted then c.finish .aborted
  else ({ c with phase := .waiting n (c.now + ms) }, [.waits atFirst ms])

def begin : Client × List Effect :=
  let remainingBackoff := c.budget.remainingBackoff c.now
  if remainingBackoff > MAX_RETRY_WAIT_MS then c.finish .rateLimited
  else if remainingBackoff > 0 then c.delay true 1 remainingBackoff
  else c.attempt 1

/-- The attempt `n` has failed with an error that may be retried. -/
def failed (n : ℕ) (e : ApiError) (random : ℚ) : Client × List Effect :=
  let delayMs := delayMs parseDate c.retryDelayMs c.now n e random
  let c := { c with budget.notBefore := some (max (c.budget.notBefore.getD 0) (c.now + delayMs)) }
  -- The wait that the server asks for is kept, also when the call is aborted already.
  if c.aborted then c.finish (.failed e)
  else if n = MAX_CHUNK_ATTEMPTS then c.finish (.failed (retryFailure e))
  else if delayMs > MAX_RETRY_WAIT_MS || delayMs > c.budget.remainingWaitMs ||
      c.budget.deadline.any (· - c.now < delayMs) then c.finish (.failed (retryFailure e))
  else delay { c with budget.remainingWaitMs := c.budget.remainingWaitMs - delayMs } false (n + 1) delayMs

/-- What the server asks for with the failure of an attempt. -/
def asks (e : ApiError) : List Effect :=
  ((retryAfterDelay parseDate c.now e.retryAfter).map fun ms => Effect.asked (isRetryable e) (c.now + ms)).toList

/-- The attempt `n` is answered. -/
def responded (n : ℕ) (random : ℚ) : Response → Client × List Effect
  | .success => finish { c with budget.notBefore := none } .returned
  | .thrown => c.finish .thrown
  | .failure e =>
    let x := if isRetryable e then failed parseDate c n e random else c.finish (.failed e)
    (x.1, x.2 ++ asks parseDate c e)

/-- What happens at a time, with the effects, the latest first: a call begins when none is made, a wait is over, the call
is aborted, an attempt is answered, or a new window of retries is opened. -/
def next (now : ℚ) (event : Event) : Option (Client × List Effect) :=
  if now < c.now then none
  else
    let c := { c with now }
    match event, c.phase with
    | .begin retryDelayMs aborted, .idle =>
      let x := begin { c with retryDelayMs, aborted }
      some (x.1, x.2 ++ [.begins])
    | .elapsed, .waiting n time => if now < time then none else some (c.attempt n)
    | .abort, .idle => some (c, [])
    | .abort, .sending _ => some ({ c with aborted := true }, [])
    | .abort, .waiting _ _ => some (c.finish .aborted)
    | .responded r random, .sending n =>
      if 0 ≤ random ∧ random < 1 then some (responded parseDate c n random r) else none
    | .reset ms, _ => if 0 ≤ ms then some ({ c with budget.remainingWaitMs := ms }, [.resets ms]) else none
    | _, _ => none

end Client

/-- The runs over a budget, with their effects, the latest first; `allowed` restricts the steps. -/
inductive Run (allowed : Client → ℚ → Event → Prop) (b : RetryBudget) : Client → List Effect → Prop where
  | start (now : ℚ) : Run allowed b ⟨b, .idle, none, false, now⟩ []
  | step {c c' : Client} {log effects : List Effect} (now : ℚ) (event : Event) : Run allowed b c log →
      allowed c now event → c.next parseDate now event = some (c', effects) → Run allowed b c' (effects ++ log)

/-! ## What can be seen of a run -/

/-- The attempts of the last call. -/
def sends : List Effect → ℕ
  | [] => 0
  | .begins :: _ => 0
  | .sends _ :: log => sends log + 1
  | _ :: log => sends log

/-- The times the server has asked for; that of a failure which is not retried concerns its call only. -/
def asked : List Effect → List (Bool × ℚ)
  | [] => []
  | .begins :: log => (asked log).filter (·.1)
  | .asked retried time :: log => (retried, time) :: asked log
  | _ :: log => asked log

/-- No attempt is sent before a time that the server has asked for. -/
def Respects : List Effect → Prop
  | [] => True
  | .sends time :: log => (∀ x ∈ asked log, x.2 ≤ time) ∧ Respects log
  | _ :: log => Respects log

/-- The waits of the last window. -/
def waited : List Effect → ℚ
  | [] => 0
  | .resets _ :: _ => 0
  | .waits _ ms :: log => ms + waited log
  | _ :: log => waited log

/-- The waits of the last window with which a call began. -/
def firstWaited : List Effect → ℚ
  | [] => 0
  | .resets _ :: _ => 0
  | .waits true ms :: log => ms + firstWaited log
  | _ :: log => firstWaited log

/-- What the last window began with. -/
def window (initial : ℚ) : List Effect → ℚ
  | [] => initial
  | .resets ms :: _ => ms
  | _ :: log => window initial log

/-- **What the budget is to bound**, at every time of a run. -/
structure Keeps (b : RetryBudget) (c : Client) (log : List Effect) : Prop where
  attempts : ∀ l, l <:+ log → sends l ≤ MAX_CHUNK_ATTEMPTS
  asked : Respects log
  deadline : ∀ time, .sends time ∈ log → ∀ d, b.deadline = some d → time < d
  waits : ∀ l, l <:+ log → waited l ≤ window b.remainingWaitMs l
  kept : ∀ n time, c.phase = .waiting n time → ∀ now c' effects, c.next parseDate now .abort = some (c', effects) →
    c'.phase = .idle ∧ time ≤ c'.budget.notBefore.getD 0

/-- No call begins with a wait. -/
def Prompt (c : Client) (now : ℚ) (event : Event) : Prop :=
  ∀ retryDelayMs aborted, event = .begin retryDelayMs aborted →
    c.budget.remainingBackoff now = 0 ∨ (MAX_RETRY_WAIT_MS : ℚ) < c.budget.remainingBackoff now

/-! ## The invariant -/

section

variable {parseDate : JsString → Option ℚ} {b : RetryBudget} {c : Client} {log : List Effect} {e : Effect} {now t ms : ℚ} {n : ℕ}
  {o : Outcome}

/-- No time that the server has asked for is after `t`. -/
def Due (t : ℚ) (log : List Effect) : Prop := ∀ x ∈ asked log, x.2 ≤ t

/-- The times of the failures that are retried are not forgotten. -/
def Held (c : Client) (log : List Effect) : Prop :=
  ∀ x ∈ asked log, x.1 = true → x.2 ≤ c.now ∨ x.2 ≤ c.budget.notBefore.getD 0

/-- What holds of the effects at every time. -/
structure Sound (b : RetryBudget) (c : Client) (log : List Effect) : Prop where
  attempts : ∀ l, l <:+ log → sends l ≤ MAX_CHUNK_ATTEMPTS
  asked : Respects log
  budget : c.budget.deadline = b.deadline
  deadline : ∀ time, .sends time ∈ log → ∀ d, b.deadline = some d → time < d
  waits : ∀ l, l <:+ log → waited l ≤ window b.remainingWaitMs l + firstWaited l

/-- The waits of a window, less those with which a call began, are what is gone of the budget. -/
structure Accounts (b : RetryBudget) (c : Client) (log : List Effect) : Prop where
  total : waited log + c.budget.remainingWaitMs = window b.remainingWaitMs log + firstWaited log
  nonneg : 0 ≤ c.budget.remainingWaitMs

/-- What holds while a call is at some place. -/
def Placed (c : Client) (log : List Effect) : Prop :=
  match c.phase with
  | .idle => Held c log
  | .sending n => sends log = n ∧ n ≤ MAX_CHUNK_ATTEMPTS ∧ Due c.now log
  | .waiting n time => sends log + 1 = n ∧ n ≤ MAX_CHUNK_ATTEMPTS ∧ Due time log ∧ time ≤ c.budget.notBefore.getD 0

/-- **The invariant of a run.** -/
structure Client.Inv (b : RetryBudget) (c : Client) (log : List Effect) : Prop where
  sound : Sound b c log
  accounts : Accounts b c log
  placed : Placed c log

theorem suffix_cons {P : List Effect → Prop} (h : ∀ l, l <:+ log → P l) (hnew : P (e :: log)) :
    ∀ l, l <:+ e :: log → P l := by
  intro l hl
  rcases List.suffix_cons_iff.mp hl with rfl | hold
  · exact hnew
  · exact h l hold

/-- An effect that neither sends nor waits nor opens anything. -/
def Effect.quiet : Effect → Bool
  | .ends _ => true
  | .asked _ _ => true
  | _ => false

theorem sends_quiet (he : e.quiet = true) : sends (e :: log) = sends log := by
  cases e <;> first | rfl | cases he

theorem waited_quiet (he : e.quiet = true) : waited (e :: log) = waited log := by
  cases e <;> first | rfl | cases he

theorem firstWaited_quiet (he : e.quiet = true) : firstWaited (e :: log) = firstWaited log := by
  cases e <;> first | rfl | cases he

theorem window_quiet (he : e.quiet = true) : window t (e :: log) = window t log := by
  cases e <;> first | rfl | cases he

theorem respects_quiet (he : e.quiet = true) : Respects (e :: log) ↔ Respects log := by
  cases e <;> first | exact Iff.rfl | cases he

/-- Nothing is bounded differently after a quiet effect. -/
theorem Sound.quiet (h : Sound b c log) (he : e.quiet = true) : Sound b c (e :: log) where
  attempts := suffix_cons h.attempts (by
    rw [sends_quiet he]
    exact h.attempts log List.suffix_rfl)
  asked := (respects_quiet he).mpr h.asked
  budget := h.budget
  deadline time hmem d hd := by
    rcases List.mem_cons.mp hmem with heq | hold
    · rw [← heq] at he
      cases he
    · exact h.deadline time hold d hd
  waits := suffix_cons h.waits (by
    rw [waited_quiet he, window_quiet he, firstWaited_quiet he]
    exact h.waits log List.suffix_rfl)

theorem Accounts.quiet (h : Accounts b c log) (he : e.quiet = true) : Accounts b c (e :: log) where
  total := by
    rw [waited_quiet he, window_quiet he, firstWaited_quiet he]
    exact h.total
  nonneg := h.nonneg

/-! ## The pieces of a step -/

theorem Held.ends (h : Held c log) : Held c (.ends o :: log) := h

theorem Due.held (h : Due c.now log) : Held c log := fun x hx _ => .inl (h x hx)

theorem inv_finish (hs : Sound b c log) (ha : Accounts b c log) (hh : Held c log) :
    Client.Inv b (c.finish o).1 ((c.finish o).2 ++ log) := by
  have hsound : Sound b { c with phase := .idle } log := ⟨hs.attempts, hs.asked, hs.budget, hs.deadline, hs.waits⟩
  have haccounts : Accounts b { c with phase := .idle } log := ⟨ha.total, ha.nonneg⟩
  exact ⟨hsound.quiet rfl, haccounts.quiet rfl, hh⟩

/-- **The head of the loop** sends when it may. -/
theorem inv_attempt (hs : Sound b c log) (ha : Accounts b c log) (hdue : Due c.now log) (hn : sends log + 1 = n)
    (hle : n ≤ MAX_CHUNK_ATTEMPTS) : Client.Inv b (c.attempt n).1 ((c.attempt n).2 ++ log) := by
  unfold Client.attempt
  split_ifs with haborted hdeadline
  · exact inv_finish hs ha hdue.held
  · exact inv_finish hs ha hdue.held
  have hbefore : ∀ d, b.deadline = some d → c.now < d := by
    intro d hd
    rw [hs.budget, hd, Option.any_some, decide_eq_true_eq] at hdeadline
    exact not_le.mp hdeadline
  have hsent : sends (.sends c.now :: log) = n := hn
  refine ⟨⟨suffix_cons hs.attempts (hsent ▸ hle), ⟨hdue, hs.asked⟩, hs.budget, fun time hmem d hd => ?_,
    suffix_cons hs.waits (hs.waits log List.suffix_rfl)⟩, ⟨ha.total, ha.nonneg⟩, hn, hle, hdue⟩
  rcases List.mem_cons.mp hmem with heq | hold
  · rw [Effect.sends.inj heq]
    exact hbefore d hd
  · exact hs.deadline time hold d hd

/-- **A wait** before an attempt, which is deducted unless the call begins with it. -/
theorem inv_delay {atFirst : Bool} (hs : Sound b c log) (haborted : c.aborted = true → Accounts b c log ∧ Held c log)
    (htotal : waited log + ms + c.budget.remainingWaitMs =
      window b.remainingWaitMs log + (firstWaited log + if atFirst then ms else 0))
    (hnonneg : 0 ≤ c.budget.remainingWaitMs) (hdue : Due (c.now + ms) log) (hn : sends log + 1 = n)
    (hle : n ≤ MAX_CHUNK_ATTEMPTS) (hkept : c.now + ms ≤ c.budget.notBefore.getD 0) :
    Client.Inv b (c.delay atFirst n ms).1 ((c.delay atFirst n ms).2 ++ log) := by
  unfold Client.delay
  split_ifs with hab
  · exact inv_finish hs (haborted hab).1 (haborted hab).2
  have hfirst : firstWaited (.waits atFirst ms :: log) = firstWaited log + if atFirst then ms else 0 := by
    cases atFirst with
    | true => exact add_comm _ _
    | false => exact (add_zero _).symm
  have hwaited : waited (.waits atFirst ms :: log) = waited log + ms := add_comm _ _
  have hwindow : window b.remainingWaitMs (.waits atFirst ms :: log) = window b.remainingWaitMs log := rfl
  dsimp only [List.cons_append, List.nil_append]
  refine ⟨⟨suffix_cons hs.attempts (hs.attempts log List.suffix_rfl), hs.asked, hs.budget, fun time hmem d hd => ?_,
    suffix_cons hs.waits ?_⟩, ⟨?_, hnonneg⟩, hn, hle, hdue, hkept⟩
  · rcases List.mem_cons.mp hmem with heq | hold
    · cases heq
    · exact hs.deadline time hold d hd
  · rw [hwaited, hwindow, hfirst]
    linarith
  · rw [hwaited, hwindow, hfirst]
    exact htotal

/-! ## The steps -/

/-- A call begins. -/
theorem inv_begin (h : Client.Inv b c log) (hidle : c.phase = .idle) :
    Client.Inv b c.begin.1 (c.begin.2 ++ .begins :: log) := by
  have hplaced := h.placed
  unfold Placed at hplaced
  rw [hidle] at hplaced
  have hs : Sound b c (.begins :: log) :=
    ⟨suffix_cons h.sound.attempts (Nat.zero_le _), h.sound.asked, h.sound.budget,
      fun time hmem d hd => h.sound.deadline time ((List.mem_cons.mp hmem).resolve_left nofun) d hd,
      suffix_cons h.sound.waits (h.sound.waits log List.suffix_rfl)⟩
  have ha : Accounts b c (.begins :: log) := ⟨h.accounts.total, h.accounts.nonneg⟩
  have hh : Held c (.begins :: log) := fun x hx => hplaced x (List.mem_of_mem_filter hx)
  have hdue : ∀ t, c.now ≤ t → c.budget.notBefore.getD 0 ≤ t → Due t (.begins :: log) := by
    intro t hnow hnot x hx
    rcases hh x hx (by simpa using (List.mem_filter.mp hx).2) with hle | hle
    · exact hle.trans hnow
    · exact hle.trans hnot
  unfold Client.begin
  dsimp only
  split_ifs with hmax hpos
  · exact inv_finish hs ha hh
  · have hbackoff : c.budget.remainingBackoff c.now = c.budget.notBefore.getD 0 - c.now := by
      unfold RetryBudget.remainingBackoff at hpos ⊢
      exact max_eq_right (by_contra fun hneg => absurd hpos (by rw [max_eq_left (not_le.mp hneg).le]; exact lt_irrefl 0))
    have htime : c.now + c.budget.remainingBackoff c.now = c.budget.notBefore.getD 0 := by
      rw [hbackoff]
      exact add_sub_cancel c.now _
    refine inv_delay hs (fun _ => ⟨ha, hh⟩) ?_ ha.nonneg (hdue _ ?_ htime.ge) rfl (by decide) htime.le
    · have htotal := ha.total
      rw [if_pos rfl]
      linarith
    · exact le_add_of_nonneg_right hpos.le
  · refine inv_attempt hs ha (hdue c.now le_rfl ?_) rfl (by decide)
    have hle : c.budget.notBefore.getD 0 - c.now ≤ c.budget.remainingBackoff c.now := le_max_right _ _
    linarith [not_lt.mp hpos]

theorem retryAfterDelay_nonneg (value : Option JsString) : 0 ≤ (retryAfterDelay parseDate now value).getD 0 := by
  unfold retryAfterDelay
  cases value with
  | none => exact le_rfl
  | some value =>
    dsimp only
    split_ifs
    · exact le_rfl
    · exact mul_nonneg (Nat.cast_nonneg _) (by norm_num)
    · exact le_rfl
    · cases parseDate (trim value) with
      | none => exact le_rfl
      | some timestamp => exact le_max_left _ _

/-- A wait is at least as long as the server wants. -/
theorem retryAfterDelay_le {retryDelayMs : Option ℚ} {err : ApiError} {random : ℚ} :
    (retryAfterDelay parseDate now err.retryAfter).getD 0 ≤ delayMs parseDate retryDelayMs now n err random :=
  le_max_right _ _

theorem delayMs_nonneg {retryDelayMs : Option ℚ} {err : ApiError} {random : ℚ} :
    0 ≤ delayMs parseDate retryDelayMs now n err random :=
  (retryAfterDelay_nonneg _).trans retryAfterDelay_le

/-- What the server asks for is no bound, and it is known when it is. -/
theorem asks_spec (parseDate : JsString → Option ℚ) (err : ApiError) (hs : Sound b c log) (ha : Accounts b c log) :
    Sound b c (c.asks parseDate err ++ log) ∧ Accounts b c (c.asks parseDate err ++ log) ∧
      sends (c.asks parseDate err ++ log) = sends log ∧ ∀ x ∈ asked (c.asks parseDate err ++ log),
        x ∈ asked log ∨ x = (isRetryable err, c.now + (retryAfterDelay parseDate c.now err.retryAfter).getD 0) := by
  unfold Client.asks
  cases retryAfterDelay parseDate c.now err.retryAfter with
  | none => exact ⟨hs, ha, rfl, fun x hx => .inl hx⟩
  | some ms => exact ⟨hs.quiet rfl, ha.quiet rfl, rfl, fun x hx => (List.mem_cons.mp hx).symm⟩

/-- **An attempt has failed** with an error that may be retried. -/
theorem inv_failed {err : ApiError} {random : ℚ} (hs : Sound b c log) (ha : Accounts b c log) (hn : sends log = n)
    (hle : n ≤ MAX_CHUNK_ATTEMPTS) (hdue : Due (c.now + delayMs parseDate c.retryDelayMs c.now n err random) log) :
    Client.Inv b (c.failed parseDate n err random).1 ((c.failed parseDate n err random).2 ++ log) := by
  let ms := delayMs parseDate c.retryDelayMs c.now n err random
  let kept : Client := { c with budget.notBefore := some (max (c.budget.notBefore.getD 0) (c.now + ms)) }
  have hkept : c.now + ms ≤ kept.budget.notBefore.getD 0 := le_max_right _ _
  have hs' : Sound b kept log := ⟨hs.attempts, hs.asked, hs.budget, hs.deadline, hs.waits⟩
  have ha' : Accounts b kept log := ⟨ha.total, ha.nonneg⟩
  have hh' : Held kept log := fun x hx _ => .inr ((hdue x hx).trans hkept)
  unfold Client.failed
  dsimp only
  split_ifs with haborted hlast hlong
  · exact inv_finish hs' ha' hh'
  · exact inv_finish hs' ha' hh'
  · exact inv_finish hs' ha' hh'
  · simp only [Bool.or_eq_true, decide_eq_true_eq, not_or, not_lt, gt_iff_lt] at hlong
    refine inv_delay ⟨hs.attempts, hs.asked, hs.budget, hs.deadline, hs.waits⟩ (fun h => absurd h haborted) ?_
      (sub_nonneg.mpr hlong.1.2) hdue (congrArg (· + 1) hn) (by omega) hkept
    have htotal := ha.total
    simp only [Bool.false_eq_true, if_false]
    linarith

/-- **An attempt is answered.** -/
theorem inv_responded {r : Response} {random : ℚ} (hs : Sound b c log) (ha : Accounts b c log) (hn : sends log = n)
    (hle : n ≤ MAX_CHUNK_ATTEMPTS) (hdue : Due c.now log) :
    Client.Inv b (c.responded parseDate n random r).1 ((c.responded parseDate n random r).2 ++ log) := by
  cases r with
  | success =>
    exact inv_finish ⟨hs.attempts, hs.asked, hs.budget, hs.deadline, hs.waits⟩ ⟨ha.total, ha.nonneg⟩
      fun x hx _ => .inl (hdue x hx)
  | thrown => exact inv_finish hs ha hdue.held
  | failure err =>
    obtain ⟨hs', ha', hn', hasked⟩ := asks_spec parseDate err hs ha
    unfold Client.responded
    dsimp only
    rw [List.append_assoc]
    split_ifs with hretry
    · refine inv_failed hs' ha' (hn'.trans hn) hle fun x hx => ?_
      rcases hasked x hx with hold | rfl
      · exact (hdue x hold).trans (le_add_of_nonneg_right delayMs_nonneg)
      · exact add_le_add_right retryAfterDelay_le c.now
    · refine inv_finish hs' ha' fun x hx htrue => ?_
      rcases hasked x hx with hold | rfl
      · exact .inl (hdue x hold)
      · exact absurd htrue hretry

/-- The next event finds the client as it was, later. -/
theorem inv_later (retryDelayMs : Option ℚ) (aborted : Bool) (h : Client.Inv b c log) (hle : c.now ≤ now) :
    Client.Inv b { c with now, retryDelayMs, aborted } log := by
  refine ⟨⟨h.sound.attempts, h.sound.asked, h.sound.budget, h.sound.deadline, h.sound.waits⟩,
    ⟨h.accounts.total, h.accounts.nonneg⟩, ?_⟩
  have hplaced := h.placed
  unfold Placed at hplaced ⊢
  dsimp only
  cases hphase : c.phase with
  | idle =>
    rw [hphase] at hplaced
    exact fun x hx htrue => (hplaced x hx htrue).imp_left fun hx => hx.trans hle
  | sending n =>
    rw [hphase] at hplaced
    exact ⟨hplaced.1, hplaced.2.1, fun x hx => (hplaced.2.2 x hx).trans hle⟩
  | waiting n time =>
    rw [hphase] at hplaced
    exact hplaced

/-- **The invariant is kept by every event.** -/
theorem inv_next {event : Event} {c' : Client} {effects : List Effect} (h : Client.Inv b c log)
    (hnext : c.next parseDate now event = some (c', effects)) : Client.Inv b c' (effects ++ log) := by
  obtain ⟨budget, phase, delay, ab, before⟩ := c
  unfold Client.next at hnext
  split_ifs at hnext with hnow
  have hle : before ≤ now := not_lt.mp hnow
  have hlater := inv_later delay ab h hle
  have hplaced := hlater.placed
  cases event with
  | reset ms =>
    have hreset : (if 0 ≤ ms then some ((⟨{ budget with remainingWaitMs := ms }, phase, delay, ab, now⟩ : Client),
        [Effect.resets ms]) else none) = some (c', effects) := by
      cases phase <;> exact hnext
    split_ifs at hreset with hms
    obtain ⟨rfl, rfl⟩ := Prod.mk.inj (Option.some.inj hreset)
    refine ⟨⟨suffix_cons h.sound.attempts (h.sound.attempts log List.suffix_rfl), h.sound.asked, h.sound.budget,
      fun time hmem d hd => h.sound.deadline time ((List.mem_cons.mp hmem).resolve_left nofun) d hd,
      suffix_cons h.sound.waits (hms.trans (add_zero ms).ge)⟩, ⟨?_, hms⟩, hlater.placed⟩
    exact (zero_add ms).trans (add_zero ms).symm
  | begin retryDelayMs aborted =>
    cases phase with
    | idle =>
      obtain ⟨rfl, rfl⟩ := Prod.mk.inj (Option.some.inj hnext)
      have hbegin := inv_later retryDelayMs aborted h hle
      rw [List.append_assoc]
      exact inv_begin hbegin rfl
    | sending n => cases hnext
    | waiting n time => cases hnext
  | elapsed =>
    cases phase with
    | idle => cases hnext
    | sending n => cases hnext
    | waiting n time =>
      dsimp only at hnext
      split_ifs at hnext with htime
      obtain ⟨rfl, rfl⟩ := Prod.mk.inj (Option.some.inj hnext)
      exact inv_attempt hlater.sound hlater.accounts (fun x hx => (hplaced.2.2.1 x hx).trans (not_lt.mp htime)) hplaced.1
        hplaced.2.1
  | abort =>
    cases phase with
    | idle =>
      obtain ⟨rfl, rfl⟩ := Prod.mk.inj (Option.some.inj hnext)
      exact hlater
    | sending n =>
      obtain ⟨rfl, rfl⟩ := Prod.mk.inj (Option.some.inj hnext)
      have hkept := inv_later delay true h hle
      exact hkept
    | waiting n time =>
      obtain ⟨rfl, rfl⟩ := Prod.mk.inj (Option.some.inj hnext)
      exact inv_finish hlater.sound hlater.accounts fun x hx _ => .inr ((hplaced.2.2.1 x hx).trans hplaced.2.2.2)
  | responded r random =>
    cases phase with
    | idle => cases hnext
    | waiting n time => cases hnext
    | sending n =>
      dsimp only at hnext
      split_ifs at hnext
      obtain ⟨rfl, rfl⟩ := Prod.mk.inj (Option.some.inj hnext)
      exact inv_responded hlater.sound hlater.accounts hplaced.1 hplaced.2.1 hplaced.2.2

theorem inv_start (hb : 0 ≤ b.remainingWaitMs) : Client.Inv b ⟨b, .idle, none, false, now⟩ [] where
  sound :=
    { attempts := fun l hl => by
        rw [List.suffix_nil.mp hl]
        exact Nat.zero_le _
      asked := trivial
      budget := rfl
      deadline := fun _ hmem => absurd hmem List.not_mem_nil
      waits := fun l hl => by
        rw [List.suffix_nil.mp hl]
        exact hb.trans (add_zero _).ge }
  accounts := ⟨add_comm _ _, hb⟩
  placed := fun _ hx => absurd hx List.not_mem_nil

theorem inv_run {allowed : Client → ℚ → Event → Prop} (hb : 0 ≤ b.remainingWaitMs) (h : Run parseDate allowed b c log) :
    Client.Inv b c log := by
  induction h with
  | start => exact inv_start hb
  | step now event _ _ hnext ih => exact inv_next ih hnext

/-! ## Waits with which a call begins -/

theorem firstWaited_eq_zero (h : ∀ ms, .waits true ms ∉ log) : firstWaited log = 0 := by
  induction log with
  | nil => rfl
  | cons e log ih =>
    have hrest := ih fun ms hmem => h ms (List.mem_cons_of_mem e hmem)
    cases e with
    | waits atFirst ms =>
      cases atFirst with
      | true => exact absurd List.mem_cons_self (h ms)
      | false => exact hrest
    | resets ms => rfl
    | begins => exact hrest
    | sends time => exact hrest
    | asked retried time => exact hrest
    | ends o => exact hrest

theorem attempt_effects : .waits true ms ∉ (c.attempt n).2 := by
  unfold Client.attempt Client.finish
  split_ifs <;> simp

theorem responded_effects {r : Response} {random : ℚ} : .waits true ms ∉ (c.responded parseDate n random r).2 := by
  cases r with
  | success => simp [Client.responded, Client.finish]
  | thrown => simp [Client.responded, Client.finish]
  | failure err =>
    unfold Client.responded Client.asks Client.failed Client.delay Client.finish
    cases retryAfterDelay parseDate c.now err.retryAfter <;> dsimp only <;> split_ifs <;> simp

theorem begin_effects (h : c.budget.remainingBackoff c.now = 0 ∨ (MAX_RETRY_WAIT_MS : ℚ) < c.budget.remainingBackoff c.now) :
    .waits true ms ∉ c.begin.2 := by
  unfold Client.begin
  dsimp only
  split_ifs with hmax hpos
  · simp [Client.finish]
  · rcases h with hzero | hlong
    · rw [hzero] at hpos
      exact absurd hpos (lt_irrefl 0)
    · exact absurd hlong hmax
  · exact attempt_effects

/-- **No call of a prompt run begins with a wait.** -/
theorem next_effects {event : Event} {c' : Client} {effects : List Effect} (hprompt : Prompt c now event)
    (hnext : c.next parseDate now event = some (c', effects)) : .waits true ms ∉ effects := by
  obtain ⟨budget, phase, delay, ab, before⟩ := c
  unfold Client.next at hnext
  split_ifs at hnext
  cases event with
  | reset ms =>
    have hreset : (if 0 ≤ ms then some ((⟨{ budget with remainingWaitMs := ms }, phase, delay, ab, now⟩ : Client),
        [Effect.resets ms]) else none) = some (c', effects) := by
      cases phase <;> exact hnext
    split_ifs at hreset
    rw [← (Prod.mk.inj (Option.some.inj hreset)).2]
    simp
  | begin retryDelayMs aborted =>
    cases phase with
    | idle =>
      rw [← (Prod.mk.inj (Option.some.inj hnext)).2, List.mem_append, not_or]
      exact ⟨begin_effects (hprompt _ _ rfl), by simp⟩
    | sending n => cases hnext
    | waiting n time => cases hnext
  | elapsed =>
    cases phase with
    | idle => cases hnext
    | sending n => cases hnext
    | waiting n time =>
      dsimp only at hnext
      split_ifs at hnext
      obtain ⟨rfl, rfl⟩ := Prod.mk.inj (Option.some.inj hnext)
      exact attempt_effects
  | abort =>
    cases phase <;> obtain ⟨rfl, rfl⟩ := Prod.mk.inj (Option.some.inj hnext) <;> simp
  | responded r random =>
    cases phase with
    | idle => cases hnext
    | waiting n time => cases hnext
    | sending n =>
      dsimp only at hnext
      split_ifs at hnext
      obtain ⟨rfl, rfl⟩ := Prod.mk.inj (Option.some.inj hnext)
      exact responded_effects

theorem not_mem_run (h : Run parseDate Prompt b c log) : .waits true ms ∉ log := by
  induction h with
  | start => exact List.not_mem_nil
  | step now event _ hprompt hnext ih =>
    rw [List.mem_append, not_or]
    exact ⟨next_effects hprompt hnext, ih⟩

/-! ## The budget -/

/-- A call that is aborted while it waits leaves the time before which nothing may be sent. -/
theorem kept_of_inv (h : Client.Inv b c log) (n : ℕ) (time : ℚ) (hphase : c.phase = .waiting n time) (now : ℚ) (c' : Client)
    (effects : List Effect) (hnext : c.next parseDate now .abort = some (c', effects)) :
    c'.phase = .idle ∧ time ≤ c'.budget.notBefore.getD 0 := by
  have hplaced := h.placed
  obtain ⟨budget, phase, delay, ab, before⟩ := c
  subst hphase
  unfold Client.next at hnext
  split_ifs at hnext
  obtain ⟨rfl, rfl⟩ := Prod.mk.inj (Option.some.inj hnext)
  exact ⟨rfl, hplaced.2.2.2⟩

/-- **The retry budget**: in every run of calls that share it, each call sends three times at most, never before a time
the server has asked for and never after the deadline, an aborted wait is not forgotten, and the waits of a window stay
within the budget exactly when those with which its calls began fit in what is left; so they do where no call begins
with a wait. -/
theorem retry_budget (parseDate : JsString → Option ℚ) (b : RetryBudget) (hb : 0 ≤ b.remainingWaitMs) :
    (∀ c log, Run parseDate (fun _ _ _ => True) b c log →
      (∀ l, l <:+ log → sends l ≤ MAX_CHUNK_ATTEMPTS) ∧ Respects log ∧
      (∀ time, .sends time ∈ log → ∀ d, b.deadline = some d → time < d) ∧
      (∀ n time, c.phase = .waiting n time → ∀ now c' effects, c.next parseDate now .abort = some (c', effects) →
        c'.phase = .idle ∧ time ≤ c'.budget.notBefore.getD 0) ∧
      (waited log ≤ window b.remainingWaitMs log ↔ firstWaited log ≤ c.budget.remainingWaitMs)) ∧
    ∀ c log, Run parseDate Prompt b c log → Keeps parseDate b c log := by
  refine ⟨fun c log hrun => ?_, fun c log hrun => ?_⟩
  · have hinv := inv_run hb hrun
    refine ⟨hinv.sound.attempts, hinv.sound.asked, hinv.sound.deadline, kept_of_inv hinv, ?_⟩
    have htotal := hinv.accounts.total
    constructor <;> intro hle <;> linarith
  · have hinv := inv_run hb hrun
    refine ⟨hinv.sound.attempts, hinv.sound.asked, hinv.sound.deadline, fun l hl => ?_, kept_of_inv hinv⟩
    have hzero : firstWaited l = 0 := firstWaited_eq_zero fun ms hmem => not_mem_run hrun (hl.subset hmem)
    have hwaits := hinv.sound.waits l hl
    rwa [hzero, add_zero] at hwaits

/-- The client and the effects after some events. -/
def play (parseDate : JsString → Option ℚ) (c : Client) (log : List Effect) :
    List (ℚ × Event) → Option (Client × List Effect)
  | [] => some (c, log)
  | (now, event) :: events => (c.next parseDate now event).bind fun x => play parseDate x.1 (x.2 ++ log) events

theorem run_play {events : List (ℚ × Event)} {x : Client × List Effect} (h : Run parseDate (fun _ _ _ => True) b c log)
    (hplay : play parseDate c log events = some x) : Run parseDate (fun _ _ _ => True) b x.1 x.2 := by
  induction events generalizing c log with
  | nil => exact Option.some.inj hplay ▸ h
  | cons event events ih =>
    obtain ⟨y, hy, hrest⟩ := Option.bind_eq_some_iff.mp hplay
    exact ih (.step event.1 event.2 h trivial hy) hrest

/-- A server that asks for a minute. -/
def tooMany : Response := .failure ⟨.rateLimit, some 429, false, some (Storage.ascii "60")⟩

/-- A call over a budget of five minutes, told to wait for a minute after its first attempt. -/
theorem retry_budget_of_five_minutes : ∃ c log, sends log = 1 ∧ waited log = 60000 ∧
    Keeps (fun _ => none) ⟨300000, none, none⟩ c log := by
  have hplay : ((Client.next (fun _ => none) ⟨⟨300000, none, none⟩, .idle, none, false, 0⟩ 0 (.begin (some 250) false)).bind
      fun x => (x.1.next (fun _ => none) 0 (.responded tooMany 0)).map fun y => (y.1, y.2 ++ (x.2 ++ []))).any
        (fun x => sends x.2 = 1 && waited x.2 = 60000) = true := by decide +kernel
  obtain ⟨z, hz, hp⟩ := (Option.any_eq_true _ _).mp hplay
  obtain ⟨x, hx, hz⟩ := Option.bind_eq_some_iff.mp hz
  obtain ⟨y, hy, rfl⟩ := Option.map_eq_some_iff.mp hz
  have hbegun : Run (fun _ => none) Prompt ⟨300000, none, none⟩ x.1 (x.2 ++ []) :=
    .step 0 _ (.start 0) (fun _ _ _ => .inl (by decide +kernel)) hx
  have hrun : Run (fun _ => none) Prompt ⟨300000, none, none⟩ y.1 (y.2 ++ (x.2 ++ [])) :=
    .step 0 (.responded tooMany 0) hbegun (fun _ _ h => nomatch h) hy
  rw [Bool.and_eq_true, decide_eq_true_eq, decide_eq_true_eq] at hp
  exact ⟨y.1, _, hp.1, hp.2, (retry_budget (fun _ => none) ⟨300000, none, none⟩ (by norm_num)).2 _ _ hrun⟩

/-- Three calls after a pause, each of which is told to wait for a minute before its attempts. -/
def minutes : List (ℚ × Event) :=
  [(0, .begin (some 250) false), (60000, .elapsed), (60000, .responded tooMany 0), (120000, .elapsed),
    (120000, .responded tooMany 0), (180000, .elapsed), (180000, .responded .success 0),
    (180000, .begin (some 250) false), (180000, .responded tooMany 0), (240000, .elapsed), (240000, .responded tooMany 0),
    (300000, .elapsed), (300000, .responded .success 0),
    (300000, .begin (some 250) false), (300000, .responded tooMany 0), (360000, .elapsed)]

/-- **A window of five minutes in which the client waits six.** -/
theorem waits_of_six_minutes : ¬∀ (parseDate : JsString → Option ℚ) (b : RetryBudget), 0 ≤ b.remainingWaitMs →
    ∀ c log, Run parseDate (fun _ _ _ => True) b c log → Keeps parseDate b c log := by
  intro hall
  have hplay : (play (fun _ => none) ⟨⟨300000, none, some 60000⟩, .idle, none, false, 0⟩ [] minutes).any
      (fun x => window 300000 x.2 < waited x.2) = true := by decide +kernel
  obtain ⟨x, hx, hlong⟩ := (Option.any_eq_true _ _).mp hplay
  have hkeeps := hall (fun _ => none) ⟨300000, none, some 60000⟩ (by norm_num) x.1 x.2 (run_play (.start 0) hx)
  exact absurd (hkeeps.waits x.2 List.suffix_rfl) (not_le.mpr (of_decide_eq_true hlong))

end

end ChunkRetry

end HomeCloud
