import Mathlib.Algebra.Group.Nat.Defs
import Mathlib.Data.Nat.Notation

/-!
# Requests that the client sends again

* `normalizeApiError`: the errors of the client.
* `RetryBudget.first`, `RetryBudget.failed`: how long `withChunkRetry` waits, or when it gives up.
-/

namespace HomeCloud

namespace Queue

/-! ## Errors -/

inductive ApiErrorKind where
  | network
  | validation
  | authentication
  | authorization
  | rateLimit
  | server
  | busy
  | storageCapacity
  | unknown
  deriving DecidableEq

/-- A `Retry-After` header: a number of seconds, or a date. -/
inductive RetryAfter where
  | seconds (n : ℕ)
  | date (time : ℕ)
  deriving DecidableEq

/-- An answer with an error status; whether its message speaks of a busy server, and of too little
capacity. -/
structure Refusal where
  status : ℕ
  busy : Bool
  capacity : Bool
  retryAfter : Option RetryAfter
  deriving DecidableEq

structure ApiError where
  kind : ApiErrorKind
  status : Option ℕ
  busy : Bool
  capacity : Bool
  retryAfter : Option RetryAfter

/-- The error of a request without an answer, or with an error status. -/
def normalizeApiError : Option Refusal → ApiError
  | none => ⟨.network, none, false, false, none⟩
  | some r =>
    let error (kind : ApiErrorKind) (retryAfter : Option RetryAfter) : ApiError :=
      ⟨kind, some r.status, r.busy, r.capacity, retryAfter⟩
    if r.status = 400 || r.status = 422 then error .validation none
    else if r.status = 401 then error .authentication none
    else if r.status = 403 then error .authorization none
    else if r.status = 429 then error .rateLimit r.retryAfter
    else if r.status = 503 && r.capacity then error .storageCapacity r.retryAfter
    else if r.status = 503 && r.busy then error .busy r.retryAfter
    else if r.status ≥ 500 then error .server r.retryAfter
    else error .unknown none

def isUploadCapacityError (e : ApiError) : Bool :=
  e.kind = .storageCapacity || (e.status = some 503 && e.capacity)

def isUploadBusyError (e : ApiError) : Bool := e.status = some 503 && e.busy

/-- What is thrown: an error of a request, an abort, or anything else. -/
inductive Err where
  | api (e : ApiError)
  | abort
  | other

def isRetryable (e : ApiError) : Bool :=
  !isUploadCapacityError e &&
    (e.kind = .network || e.kind = .server || e.kind = .busy || e.kind = .rateLimit)

/-- A rate limit gets a message of its own. -/
def retryFailure (e : ApiError) : ApiError :=
  if e.kind = .rateLimit then ⟨.rateLimit, e.status, false, false, e.retryAfter⟩ else e

def retryAfterDelay (now : ℕ) : Option RetryAfter → Option ℕ
  | none => none
  | some (.seconds n) => some (n * 1000)
  | some (.date time) => some (time - now)

/-! ## Waiting -/

def MAX_CHUNK_ATTEMPTS : ℕ := 3

def DEFAULT_RETRY_DELAY_MS : ℕ := 250

def MAX_RETRY_WAIT_MS : ℕ := 60000

structure RetryBudget where
  remainingWaitMs : ℕ
  deadline : Option ℕ
  notBefore : Option ℕ

namespace RetryBudget

variable (budget : RetryBudget) (now attempt : ℕ)

/-- When the first attempt of `withChunkRetry` may be made, if not at once. -/
def first : Except Err (Option ℕ) :=
  let remainingBackoff := budget.notBefore.getD 0 - now
  if remainingBackoff > MAX_RETRY_WAIT_MS then .error (.api ⟨.rateLimit, none, false, false, none⟩)
  else if remainingBackoff > 0 then .ok (some (now + remainingBackoff))
  else .ok none

/-- The budget is spent before an attempt. -/
def spent : Bool := budget.deadline.any (· ≤ now)

/-- The wait after an attempt has failed; `jitter` is what is added at random. -/
def delayMs (now attempt : ℕ) (e : ApiError) (jitter : ℕ) : ℕ :=
  let fallbackMs := DEFAULT_RETRY_DELAY_MS * 2 ^ (attempt - 1)
  let jitteredMs := if e.status = some 503 then fallbackMs + min jitter (fallbackMs / 4) else fallbackMs
  max jitteredMs ((retryAfterDelay now e.retryAfter).getD 0)

/-- What `withChunkRetry` does when an attempt has failed with an error it may retry: it throws, or waits
until a time. -/
def failed (aborted : Bool) (e : ApiError) (jitter : ℕ) : RetryBudget × Except Err ℕ :=
  let delay := delayMs now attempt e jitter
  let budget := { budget with notBefore := some (max (budget.notBefore.getD 0) (now + delay)) }
  let availableMs := (budget.deadline.map (· - now)).elim budget.remainingWaitMs
    (min budget.remainingWaitMs)
  -- The wait that the server asks for is kept, also when the client is interrupted already.
  if aborted then (budget, .error (.api e))
  else if attempt = MAX_CHUNK_ATTEMPTS then (budget, .error (.api (retryFailure e)))
  else if delay > MAX_RETRY_WAIT_MS || delay > availableMs then
    (budget, .error (.api (retryFailure e)))
  else ({ budget with remainingWaitMs := budget.remainingWaitMs - delay }, .ok (now + delay))

end RetryBudget

end Queue

end HomeCloud
