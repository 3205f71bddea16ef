import Mathlib.Data.List.Count
import Mathlib.Data.Nat.Basic
import Mathlib.Order.Basic
import Mathlib.Tactic.Common

/-!
# The session of the client

The client keeps one pair of tokens. A request is stamped with the generation of its owner when it starts, gets the
access token in the request interceptor, and is sent once more when it was answered by 401 and there is a new
token. One refresh at a time gets new tokens; logins and logouts may come in between.

* `TokenStorage`, `requestInterceptor`, `refreshSession`, `responseInterceptor`: the code.
* `step`: what may happen next, each continuation of a promise at any later time.
* `Grows`: how the storage changes.
* `Inv`, `Inv.step`: the invariant.
* **`session_boundary`**: one refresh at a time; requests carry tokens of their owner, and are sent twice at most; late
  refreshes change nothing.
-/

namespace HomeCloud

namespace Session

/-! ## Tokens -/

structure Tokens where
  accessToken : ℕ
  refreshToken : ℕ
  deriving DecidableEq

/-- The tokens of the client. No code reads the last column, the access tokens that were stored, with the
generations. -/
structure TokenStorage where
  accessToken : Option ℕ
  refreshToken : Option ℕ
  epoch : ℕ
  ownerGeneration : ℕ
  stored : List (ℕ × ℕ)
  deriving DecidableEq

namespace TokenStorage

def set (s : TokenStorage) (tokens : Tokens) : TokenStorage where
  ownerGeneration := s.ownerGeneration + 1
  epoch := s.epoch + 1
  accessToken := some tokens.accessToken
  refreshToken := some tokens.refreshToken
  stored := (s.ownerGeneration + 1, tokens.accessToken) :: s.stored

/-- The tokens of a rotation, unless something was stored since the given epoch. -/
def setIfCurrent (s : TokenStorage) (tokens : Tokens) (expectedEpoch : ℕ) : Option TokenStorage :=
  if s.epoch ≠ expectedEpoch then none
  else some {
    ownerGeneration := s.ownerGeneration
    epoch := s.epoch + 1
    accessToken := some tokens.accessToken
    refreshToken := some tokens.refreshToken
    stored := (s.ownerGeneration, tokens.accessToken) :: s.stored }

def clear (s : TokenStorage) : TokenStorage where
  ownerGeneration := s.ownerGeneration + 1
  epoch := s.epoch + 1
  accessToken := none
  refreshToken := none
  stored := s.stored

end TokenStorage

/-! ## Requests -/

structure RequestConfig where
  skipAuth : Bool
  skipRefresh : Bool
  /-- The url is one of login, registration and refresh. -/
  publicUrl : Bool
  authRetry : Bool
  accessTokenUsed : Option ℕ
  ownerGenerationUsed : Option ℕ
  authorization : Option ℕ
  deriving DecidableEq

/-- How far a request is: its interceptor is queued, it has passed it, it is on its way, its answer is there, it
awaits a refresh, or it is over. -/
inductive Stage where
  | intercepting
  | dispatching
  | sent
  | answered (status : Option ℕ)
  | awaiting (refresh : ℕ)
  | done
  deriving DecidableEq

/-- A request, with the generation it was started under and the tokens it was sent with, the last one first. -/
structure Request where
  config : RequestConfig
  stage : Stage
  started : ℕ
  sends : List (Option ℕ)
  deriving DecidableEq

/-! ## Refreshes -/

/-- How far a refresh is: on its way, answered, stored or failed, with the handlers before and after it, and settled. An
error has the status of its response, if there is one. -/
inductive RefreshStage where
  | inFlight
  | fulfilled (tokens : Tokens)
  | errored (status : Option ℕ)
  | stored (tokens : Tokens)
  | rejected
  | settled (tokens : Option Tokens)
  deriving DecidableEq

/-- A refresh, with the epoch it goes by. No code reads the generation it was started under. -/
structure Refresh where
  refreshToken : ℕ
  epoch : ℕ
  generation : ℕ
  stage : RefreshStage
  deriving DecidableEq

/-- The client: promises are numbered, and `published` counts the notices of an expired session. -/
structure State where
  storage : TokenStorage
  refreshes : List Refresh
  refreshPromise : Option ℕ
  requests : List Request
  published : ℕ
  deriving DecidableEq

/-- A page that has been loaded. -/
def State.initial (refreshToken : Option ℕ) : State where
  storage := ⟨none, refreshToken, 0, 0, []⟩
  refreshes := []
  refreshPromise := none
  requests := []
  published := 0

/-! ## The client -/

/-- The request interceptor; `none` when it throws. -/
def requestInterceptor (storage : TokenStorage) (config : RequestConfig) : Option RequestConfig :=
  if config.skipAuth then some config
  else if config.ownerGenerationUsed.any (· ≠ storage.ownerGeneration) then none
  else
    let config := { config with
      ownerGenerationUsed := some (config.ownerGenerationUsed.getD storage.ownerGeneration) }
    match storage.accessToken with
    | some accessToken =>
      some { config with authorization := some accessToken, accessTokenUsed := some accessToken }
    | none => some config

def isRefreshEligible (config : RequestConfig) : Bool :=
  !(config.skipAuth || config.skipRefresh) && !config.publicUrl

def retryWithCurrentToken (config : RequestConfig) (accessToken : ℕ) : RequestConfig :=
  { config with authRetry := true, accessTokenUsed := some accessToken, authorization := some accessToken }

namespace State

variable (s : State)

def expireSession : State := { s with storage := s.storage.clear, published := s.published + 1 }

/-- The refresh that is awaited: the one under way, or a new one if there is a refresh token. -/
def refreshSession : State × Option ℕ :=
  match s.refreshPromise with
  | some k => (s, some k)
  | none =>
    match s.storage.refreshToken with
    | none => (s.expireSession, none)
    | some refreshToken =>
      let refresh : Refresh := {
        refreshToken
        epoch := s.storage.epoch
        generation := s.storage.ownerGeneration
        stage := .inFlight }
      ({ s with refreshes := s.refreshes ++ [refresh], refreshPromise := some s.refreshes.length },
        some s.refreshes.length)

/-- The request `i` goes on as `r`. -/
def put (i : ℕ) (r : Request) : State := { s with requests := s.requests.set i r }

def putRefresh (k : ℕ) (refresh : Refresh) : State := { s with refreshes := s.refreshes.set k refresh }

/-- A request without a newer token awaits the refresh; without a refresh token the session is over. -/
def awaitRefresh (i : ℕ) (r : Request) : State :=
  if s.storage.refreshToken = none then s.expireSession.put i { r with stage := .done }
  else
    match s.refreshSession with
    | (s, some k) => s.put i { r with stage := .awaiting k }
    | (s, none) => s.put i { r with stage := .done }

/-- The request goes through the client again, with the token. -/
def retry (i : ℕ) (r : Request) (accessToken : ℕ) : State :=
  s.put i { r with config := retryWithCurrentToken r.config accessToken, stage := .intercepting }

/-- The response interceptor, for the request `i` that has been answered. -/
def responseInterceptor (i : ℕ) (r : Request) (status : Option ℕ) : State :=
  if status ≠ some 401 || !isRefreshEligible r.config then s.put i { r with stage := .done }
  else if r.config.ownerGenerationUsed ≠ some s.storage.ownerGeneration then s.put i { r with stage := .done }
  else if r.config.authRetry then s.expireSession.put i { r with stage := .done }
  else
    match r.config.accessTokenUsed, s.storage.accessToken with
    | some used, some current => if used ≠ current then s.retry i r current else s.awaitRefresh i r
    | _, _ => s.awaitRefresh i r

end State

/-! ## What happens -/

/-- A request is started; its interceptor runs, it is sent, answered, its answer handled, and it resumes after a
refresh. A refresh is asked for, answered, and its three handlers run. The user logs in or out. -/
inductive Event where
  | request (skipAuth skipRefresh publicUrl : Bool)
  | intercept (i : ℕ)
  | dispatch (i : ℕ)
  | answer (i : ℕ) (status : Option ℕ)
  | handle (i : ℕ)
  | resume (i : ℕ)
  | refresh
  | refreshAnswer (k : ℕ) (result : Except (Option ℕ) Tokens)
  | refreshThen (k : ℕ)
  | refreshCatch (k : ℕ)
  | refreshFinally (k : ℕ)
  | login (tokens : Tokens)
  | logout

namespace State

variable (s : State)

/-- `apiRequest`: the request is stamped at once, its interceptor runs later. -/
def apiRequest (skipAuth skipRefresh publicUrl : Bool) : State :=
  { s with requests := s.requests ++ [{
      config := {
        skipAuth
        skipRefresh
        publicUrl
        authRetry := false
        accessTokenUsed := none
        ownerGenerationUsed := if skipAuth then none else some s.storage.ownerGeneration
        authorization := none }
      stage := .intercepting
      started := s.storage.ownerGeneration
      sends := [] }] }

/-- A step of the request `i`. -/
def stepRequest (i : ℕ) (r : Request) : Event → Option State
  | .intercept _ =>
    match r.stage with
    | .intercepting =>
      match requestInterceptor s.storage r.config with
      | some config => some (s.put i { r with config, stage := .dispatching })
      | none => some (s.put i { r with stage := .done })
    | _ => none
  | .dispatch _ =>
    match r.stage with
    | .dispatching => some (s.put i { r with stage := .sent, sends := r.config.authorization :: r.sends })
    | _ => none
  | .answer _ status =>
    match r.stage with
    | .sent => some (s.put i { r with stage := .answered status })
    | _ => none
  | .handle _ =>
    match r.stage with
    | .answered status => some (s.responseInterceptor i r status)
    | _ => none
  | .resume _ =>
    match r.stage with
    | .awaiting k =>
      match s.refreshes[k]? with
      | some ⟨_, _, _, .settled (some tokens)⟩ => some (s.retry i r tokens.accessToken)
      | some ⟨_, _, _, .settled none⟩ => some (s.put i { r with stage := .done })
      | _ => none
    | _ => none
  | _ => none

/-- A step of the refresh `k`. -/
def stepRefresh (k : ℕ) (f : Refresh) : Event → Option State
  | .refreshAnswer _ result =>
    match f.stage with
    | .inFlight =>
      match result with
      | .ok tokens => some (s.putRefresh k { f with stage := .fulfilled tokens })
      | .error status => some (s.putRefresh k { f with stage := .errored status })
    | _ => none
  | .refreshThen _ =>
    match f.stage with
    | .fulfilled tokens =>
      match s.storage.setIfCurrent tokens f.epoch with
      | some storage => some ({ s with storage }.putRefresh k { f with stage := .stored tokens })
      | none => some (s.putRefresh k { f with stage := .errored none })
    | _ => none
  | .refreshCatch _ =>
    match f.stage with
    | .errored status =>
      if s.storage.epoch = f.epoch ∧ (status = some 400 ∨ status = some 401) then
        some (s.expireSession.putRefresh k { f with stage := .rejected })
      else some (s.putRefresh k { f with stage := .rejected })
    | _ => none
  | .refreshFinally _ =>
    match f.stage with
    | .stored tokens =>
      some ({ s with refreshPromise := none }.putRefresh k { f with stage := .settled (some tokens) })
    | .rejected => some ({ s with refreshPromise := none }.putRefresh k { f with stage := .settled none })
    | _ => none
  | _ => none

/-- One step, if it may happen. -/
def step (e : Event) : Option State :=
  match e with
  | .request skipAuth skipRefresh publicUrl => some (s.apiRequest skipAuth skipRefresh publicUrl)
  | .intercept i | .dispatch i | .answer i _ | .handle i | .resume i => (s.requests[i]?).bind fun r => s.stepRequest i r e
  | .refresh => some s.refreshSession.1
  | .refreshAnswer k _ | .refreshThen k | .refreshCatch k | .refreshFinally k =>
    (s.refreshes[k]?).bind fun f => s.stepRefresh k f e
  | .login tokens => some { s with storage := s.storage.set tokens }
  | .logout => some { s with storage := s.storage.clear }

end State

/-- The client after any events, from a page that was loaded with the given refresh token. -/
inductive Reached (refreshToken : Option ℕ) : State → Prop
  | start : Reached refreshToken (.initial refreshToken)
  | step {s s'} (e : Event) : Reached refreshToken s → s.step e = some s' → Reached refreshToken s'

/-! ## How the storage changes -/

/-- Access tokens are those stored under the present generation; after the first generation there is one where there is
a refresh token. -/
structure Sound (s : TokenStorage) : Prop where
  access : ∀ token, s.accessToken = some token → (s.ownerGeneration, token) ∈ s.stored
  both : 0 < s.ownerGeneration → s.refreshToken.isSome = true → s.accessToken.isSome = true

/-- A change of the storage: the counters grow, and the generation only with the epoch; within a generation there are
tokens where there were. -/
structure Grows (s s' : TokenStorage) : Prop where
  epoch : s.epoch ≤ s'.epoch
  generation : s.ownerGeneration ≤ s'.ownerGeneration
  same : s'.epoch = s.epoch → s'.ownerGeneration = s.ownerGeneration
  stored : ∀ x ∈ s.stored, x ∈ s'.stored
  access : s'.ownerGeneration = s.ownerGeneration → s.accessToken.isSome = true → s'.accessToken.isSome = true
  refresh : s'.ownerGeneration = s.ownerGeneration → s.refreshToken.isSome = true → s'.refreshToken.isSome = true

section Storage

variable {s s' : TokenStorage} {tokens : Tokens}

theorem Grows.refl (s : TokenStorage) : Grows s s :=
  ⟨le_rfl, le_rfl, fun _ => rfl, fun _ h => h, fun _ h => h, fun _ h => h⟩

theorem grows_set : Grows s (s.set tokens) where
  epoch := Nat.le_succ _
  generation := Nat.le_succ _
  same h := absurd h (Nat.succ_ne_self _)
  stored _ h := List.mem_cons_of_mem _ h
  access h := absurd h (Nat.succ_ne_self _)
  refresh h := absurd h (Nat.succ_ne_self _)

theorem grows_clear : Grows s s.clear where
  epoch := Nat.le_succ _
  generation := Nat.le_succ _
  same h := absurd h (Nat.succ_ne_self _)
  stored _ h := h
  access h := absurd h (Nat.succ_ne_self _)
  refresh h := absurd h (Nat.succ_ne_self _)

theorem sound_set : Sound (s.set tokens) where
  access token h := by
    cases h
    exact List.mem_cons_self
  both _ _ := rfl

theorem sound_clear : Sound s.clear where
  access token h := by cases h
  both _ h := by cases h

/-- **What a rotation that comes in time does.** -/
theorem setIfCurrent_eq_some {epoch : ℕ} (h : s.setIfCurrent tokens epoch = some s') :
    s.epoch = epoch ∧ s'.epoch = epoch + 1 ∧ Grows s s' ∧ Sound s' ∧
      (s.ownerGeneration, tokens.accessToken) ∈ s'.stored := by
  unfold TokenStorage.setIfCurrent at h
  split at h
  · cases h
  · next hepoch =>
    rw [not_not] at hepoch
    cases h
    refine ⟨hepoch, by rw [hepoch], ⟨Nat.le_succ _, le_rfl, fun _ => rfl, fun _ h => List.mem_cons_of_mem _ h,
      fun _ _ => rfl, fun _ _ => rfl⟩, ⟨fun token h => ?_, fun _ _ => rfl⟩, List.mem_cons_self⟩
    cases h
    exact List.mem_cons_self

end Storage

/-! ## The invariant -/

/-- A send is still to come. -/
def Stage.pending : Stage → ℕ
  | .intercepting | .dispatching => 1
  | _ => 0

/-- How often a request may have been sent. -/
def RequestConfig.limit (config : RequestConfig) : ℕ := if config.authRetry then 2 else 1

/-- What holds of a request. -/
structure RequestOk (storage : TokenStorage) (refreshes : List Refresh) (r : Request) : Prop where
  started : r.started ≤ storage.ownerGeneration
  owner : r.config.skipAuth = false → r.config.ownerGenerationUsed = some r.started
  skip : r.config.skipAuth = true → r.config.authorization = none
  sends : r.sends.length + r.stage.pending ≤ r.config.limit
  carried : ∀ token, some token ∈ r.sends → (r.started, token) ∈ storage.stored
  ready : r.stage = .dispatching → ∀ token, r.config.authorization = some token → (r.started, token) ∈ storage.stored
  queued : r.stage = .intercepting → ∀ token, r.config.authorization = some token →
    (r.started, token) ∈ storage.stored ∨ (storage.ownerGeneration = r.started → storage.accessToken.isSome = true)
  awaiting : ∀ k, r.stage = .awaiting k → r.config.authRetry = false ∧ r.config.skipAuth = false ∧
    (storage.ownerGeneration = r.started → storage.refreshToken.isSome = true) ∧
    ∃ f, refreshes[k]? = some f ∧ f.generation ≤ r.started

/-- A refresh is not settled. -/
def Refresh.Open (f : Refresh) : Prop := ∀ result, f.stage ≠ .settled result

/-- What holds of the refresh `k`. -/
structure RefreshOk (storage : TokenStorage) (promise : Option ℕ) (k : ℕ) (f : Refresh) : Prop where
  epoch : f.epoch ≤ storage.epoch
  generation : f.generation ≤ storage.ownerGeneration
  same : f.epoch = storage.epoch → f.generation = storage.ownerGeneration
  stored : ∀ tokens, f.stage = .stored tokens ∨ f.stage = .settled (some tokens) →
    (f.generation, tokens.accessToken) ∈ storage.stored
  current : f.Open → promise = some k

structure Inv (s : State) : Prop where
  sound : Sound s.storage
  requests : ∀ r ∈ s.requests, RequestOk s.storage s.refreshes r
  refreshes : ∀ (k : ℕ) f, s.refreshes[k]? = some f → RefreshOk s.storage s.refreshPromise k f
  promise : ∀ k, s.refreshPromise = some k → (s.refreshes[k]?).isSome = true

/-- The refreshes stay, under the generations they were started. -/
def Stay (refreshes refreshes' : List Refresh) : Prop :=
  ∀ (k : ℕ) f, refreshes[k]? = some f → ∃ f', refreshes'[k]? = some f' ∧ f'.generation = f.generation

section Invariant

variable {s s' : State} {storage storage' : TokenStorage} {refreshes refreshes' : List Refresh} {r : Request}
  {promise : Option ℕ} {k i : ℕ} {f f' : Refresh}

theorem Stay.refl (refreshes : List Refresh) : Stay refreshes refreshes := fun _ f hf => ⟨f, hf, rfl⟩

theorem stay_set (hf : refreshes[k]? = some f) (hgen : f'.generation = f.generation) :
    Stay refreshes (refreshes.set k f') := by
  intro j g hg
  by_cases hjk : k = j
  · subst hjk
    cases hf.symm.trans hg
    exact ⟨f', List.getElem?_set_self (List.getElem?_eq_some_iff.mp hf).1, hgen⟩
  · exact ⟨g, (List.getElem?_set_ne hjk).trans hg, rfl⟩

theorem stay_append (more : List Refresh) : Stay refreshes (refreshes ++ more) := fun _ g hg =>
  ⟨g, (List.getElem?_append_left (List.getElem?_eq_some_iff.mp hg).1).trans hg, rfl⟩

/-- What holds of a request holds on when the storage grows. -/
theorem RequestOk.mono (h : RequestOk storage refreshes r) (hg : Grows storage storage')
    (hs : Stay refreshes refreshes') : RequestOk storage' refreshes' r where
  started := h.started.trans hg.generation
  owner := h.owner
  skip := h.skip
  sends := h.sends
  carried token ht := hg.stored _ (h.carried token ht)
  ready hstage token ht := hg.stored _ (h.ready hstage token ht)
  queued hstage token ht := by
    refine (h.queued hstage token ht).imp (hg.stored _) fun haccess hsame => ?_
    have hgen := le_antisymm hg.generation (hsame ▸ h.started)
    exact hg.access hgen.symm (haccess (hgen.trans hsame))
  awaiting k hstage := by
    obtain ⟨hretry, hskip, hrefresh, f, hf, hle⟩ := h.awaiting k hstage
    refine ⟨hretry, hskip, fun hsame => ?_, ?_⟩
    · have hgen := le_antisymm hg.generation (hsame ▸ h.started)
      exact hg.refresh hgen.symm (hrefresh (hgen.trans hsame))
    · obtain ⟨f', hf', hgen⟩ := hs k f hf
      exact ⟨f', hf', hgen ▸ hle⟩

theorem RefreshOk.mono (h : RefreshOk storage promise k f) (hg : Grows storage storage') :
    RefreshOk storage' promise k f where
  epoch := h.epoch.trans hg.epoch
  generation := h.generation.trans hg.generation
  same heq := by
    have hepoch := le_antisymm hg.epoch (heq ▸ h.epoch)
    rw [hg.same hepoch.symm]
    exact h.same (heq.trans hepoch.symm)
  stored tokens ht := hg.stored _ (h.stored tokens ht)
  current := h.current

/-- A request that is over. -/
theorem RequestOk.over (h : RequestOk storage refreshes r) : RequestOk storage refreshes { r with stage := .done } where
  started := h.started
  owner := h.owner
  skip := h.skip
  sends := by
    have := h.sends
    show r.sends.length + 0 ≤ r.config.limit
    omega
  carried := h.carried
  ready hstage := by cases hstage
  queued hstage := by cases hstage
  awaiting k hstage := by cases hstage

/-- The storage changes, and nothing else. -/
theorem Inv.store (h : Inv s) (hsound : Sound storage') (hg : Grows s.storage storage') :
    Inv { s with storage := storage' } where
  sound := hsound
  requests r hr := (h.requests r hr).mono hg (Stay.refl _)
  refreshes k f hf := (h.refreshes k f hf).mono hg
  promise := h.promise

theorem Inv.expireSession (h : Inv s) : Inv s.expireSession := by
  have hstored := h.store sound_clear grows_clear
  exact ⟨hstored.sound, hstored.requests, hstored.refreshes, hstored.promise⟩

/-- A request goes on. -/
theorem Inv.put (h : Inv s) (hr : RequestOk s.storage s.refreshes r) : Inv (s.put i r) where
  sound := h.sound
  requests q hq := by
    rcases List.mem_or_eq_of_mem_set hq with hq | rfl
    · exact h.requests q hq
    · exact hr
  refreshes := h.refreshes
  promise := h.promise

/-- A refresh goes on, and may cease to be the one awaited when it is settled. -/
theorem Inv.putRefresh (h : Inv s) (hf : s.refreshes[k]? = some f) (hgen : f'.generation = f.generation)
    (hpromise : promise = s.refreshPromise ∨ promise = none ∧ f.Open)
    (hf' : RefreshOk s.storage promise k f') : Inv ({ s with refreshPromise := promise }.putRefresh k f') where
  sound := h.sound
  requests r hr := (h.requests r hr).mono (Grows.refl _) (stay_set hf hgen)
  refreshes j g hg := by
    have hlt := (List.getElem?_eq_some_iff.mp hf).1
    by_cases hjk : k = j
    · subst hjk
      cases (List.getElem?_set_self hlt).symm.trans hg
      exact hf'
    · have hold : s.refreshes[j]? = some g := (List.getElem?_set_ne hjk).symm.trans hg
      have hok := h.refreshes j g hold
      refine ⟨hok.epoch, hok.generation, hok.same, hok.stored, fun hopen => ?_⟩
      rcases hpromise with rfl | ⟨-, hfopen⟩
      · exact hok.current hopen
      · exact absurd (Option.some.inj (((h.refreshes k f hf).current hfopen).symm.trans (hok.current hopen))) hjk
  promise j hj := by
    show ((s.refreshes.set k f')[j]?).isSome = true
    rw [Option.isSome_iff_exists]
    have hold : (s.refreshes[j]?).isSome = true := by
      rcases hpromise with rfl | ⟨rfl, -⟩
      · exact h.promise j hj
      · cases hj
    obtain ⟨g, hg⟩ := Option.isSome_iff_exists.mp hold
    obtain ⟨g', hg', -⟩ := stay_set hf hgen j g hg
    exact ⟨g', hg'⟩

/-- **Asking for a refresh.** -/
theorem Inv.refreshSession (h : Inv s) :
    Inv s.refreshSession.1 ∧ s.refreshSession.1.requests = s.requests ∧
      ∀ k, s.refreshSession.2 = some k → s.refreshSession.1.storage = s.storage ∧
        ∃ f, s.refreshSession.1.refreshes[k]? = some f ∧ f.generation ≤ s.storage.ownerGeneration := by
  unfold State.refreshSession
  split
  · next k hk =>
    refine ⟨h, rfl, fun j hj => ⟨rfl, ?_⟩⟩
    cases hj
    obtain ⟨f, hf⟩ := Option.isSome_iff_exists.mp (h.promise k hk)
    exact ⟨f, hf, (h.refreshes k f hf).generation⟩
  · next hnone =>
    split
    · exact ⟨h.expireSession, rfl, fun k hk => by cases hk⟩
    · next refreshToken _ =>
      have hnew : (s.refreshes ++ [⟨refreshToken, s.storage.epoch, s.storage.ownerGeneration, .inFlight⟩])[s.refreshes.length]? =
          some ⟨refreshToken, s.storage.epoch, s.storage.ownerGeneration, .inFlight⟩ := List.getElem?_concat_length
      refine ⟨⟨h.sound, fun r hr => (h.requests r hr).mono (Grows.refl _) (stay_append _), fun j g hg => ?_, fun k hk => ?_⟩,
        rfl, fun k hk => ?_⟩
      · rcases lt_or_ge j s.refreshes.length with hlt | hge
        · rw [List.getElem?_append_left hlt] at hg
          have hok := h.refreshes j g hg
          refine ⟨hok.epoch, hok.generation, hok.same, hok.stored, fun hopen => ?_⟩
          exact absurd (hok.current hopen) (by rw [hnone]; exact nofun)
        · have hjl : j = s.refreshes.length := by
            have := (List.getElem?_eq_some_iff.mp hg).1
            rw [List.length_append, List.length_singleton] at this
            omega
          subst hjl
          cases hnew.symm.trans hg
          refine ⟨le_rfl, le_rfl, fun _ => rfl, fun tokens ht => ?_, fun _ => rfl⟩
          rcases ht with ht | ht <;> cases ht
      · cases hk
        rw [hnew]
        rfl
      · cases hk
        exact ⟨rfl, _, hnew, le_rfl⟩

/-! ## Steps -/

/-- **A request starts.** -/
theorem Inv.apiRequest (h : Inv s) (skipAuth skipRefresh publicUrl : Bool) :
    Inv (s.apiRequest skipAuth skipRefresh publicUrl) where
  sound := h.sound
  requests r hr := by
    rcases List.mem_append.mp hr with hr | hr
    · exact h.requests r hr
    · cases List.mem_singleton.mp hr
      refine ⟨le_rfl, fun hskip => ?_, fun _ => rfl, le_rfl, fun token ht => absurd ht List.not_mem_nil,
        fun hstage => (by cases hstage), fun _ token ht => (by cases ht), fun k hstage => by cases hstage⟩
      cases hskip
      rfl
  refreshes := h.refreshes
  promise := h.promise

/-- **The request interceptor**: the token comes from the generation of the request. -/
theorem RequestOk.intercept (h : RequestOk s.storage s.refreshes r) (hs : Sound s.storage) (hstage : r.stage = .intercepting)
    {config : RequestConfig} (hconfig : requestInterceptor s.storage r.config = some config) :
    RequestOk s.storage s.refreshes { r with config, stage := .dispatching } := by
  have hsends : r.sends.length + 1 ≤ r.config.limit := by
    have hsends := h.sends
    rw [hstage] at hsends
    exact hsends
  unfold requestInterceptor at hconfig
  split at hconfig
  · next hskip =>
    cases hconfig
    refine ⟨h.started, h.owner, h.skip, hsends, h.carried, fun _ token ht => ?_, fun hst => (by cases hst),
      fun k hst => by cases hst⟩
    rw [h.skip hskip] at ht
    cases ht
  · next hskip =>
    have hauth : r.config.skipAuth = false := Bool.not_eq_true _ ▸ hskip
    have howner := h.owner hauth
    split at hconfig
    · cases hconfig
    · next hgen =>
      have hsame : s.storage.ownerGeneration = r.started := by
        rw [howner, Option.any_some, decide_eq_true_iff, not_not] at hgen
        exact hgen.symm
      have howner' : some (r.config.ownerGenerationUsed.getD s.storage.ownerGeneration) = some r.started := by
        rw [howner]
        rfl
      cases haccess : s.storage.accessToken with
      | some accessToken =>
        simp only [haccess] at hconfig
        cases hconfig
        refine ⟨h.started, fun _ => howner', fun hs' => absurd hs' hskip, hsends, h.carried, fun _ token ht => ?_,
          fun hst => (by cases hst), fun k hst => by cases hst⟩
        cases ht
        exact hsame ▸ hs.access accessToken haccess
      | none =>
        simp only [haccess] at hconfig
        cases hconfig
        refine ⟨h.started, fun _ => howner', fun hs' => absurd hs' hskip, hsends, h.carried, fun _ token ht => ?_,
          fun hst => (by cases hst), fun k hst => by cases hst⟩
        refine (h.queued hstage token ht).resolve_right fun hsome => ?_
        have := hsome hsame
        rw [haccess] at this
        cases this

/-- **A request goes through the client again**: with a token of its generation, or there is one. -/
theorem RequestOk.retry (h : RequestOk s.storage s.refreshes r) (hretry : r.config.authRetry = false)
    (hskip : r.config.skipAuth = false) (hsends : r.stage.pending = 0) {accessToken : ℕ}
    (htoken : (r.started, accessToken) ∈ s.storage.stored ∨
      (s.storage.ownerGeneration = r.started → s.storage.accessToken.isSome = true)) :
    RequestOk s.storage s.refreshes
      { r with config := retryWithCurrentToken r.config accessToken, stage := .intercepting } where
  started := h.started
  owner := h.owner
  skip hs := by
    have hs : r.config.skipAuth = true := hs
    rw [hskip] at hs
    cases hs
  sends := by
    have hold := h.sends
    unfold RequestConfig.limit at hold
    rw [hretry, hsends, if_neg Bool.false_ne_true] at hold
    show r.sends.length + 1 ≤ 2
    omega
  carried := h.carried
  ready hstage := by cases hstage
  queued _ token ht := by
    cases ht
    exact htoken
  awaiting k hstage := by cases hstage

theorem Inv.awaitRefresh (h : Inv s) (hr : RequestOk s.storage s.refreshes r) (hretry : r.config.authRetry = false)
    (hskip : r.config.skipAuth = false) (howner : s.storage.ownerGeneration = r.started) (hpending : r.stage.pending = 0) :
    Inv (s.awaitRefresh i r) := by
  unfold State.awaitRefresh
  split
  · exact h.expireSession.put (hr.mono grows_clear (Stay.refl _)).over
  · next hsome =>
    obtain ⟨hinv, -, hawait⟩ := h.refreshSession
    have hstay : Stay s.refreshes s.refreshSession.1.refreshes ∧ Grows s.storage s.refreshSession.1.storage := by
      unfold State.refreshSession
      split
      · exact ⟨Stay.refl _, Grows.refl _⟩
      · split
        · exact ⟨Stay.refl _, grows_clear⟩
        · exact ⟨stay_append _, Grows.refl _⟩
    split
    · next s' k heq =>
      rw [heq] at hinv hawait hstay
      obtain ⟨hstorage, f, hf, hle⟩ := hawait k rfl
      have hok := hr.mono hstay.2 hstay.1
      refine hinv.put ⟨hok.started, hok.owner, hok.skip, ?_, hok.carried, fun hst => (by cases hst),
        fun hst => (by cases hst), fun j hst => ?_⟩
      · have := hok.sends
        rw [hpending] at this
        exact this
      · cases hst
        refine ⟨hretry, hskip, fun _ => ?_, f, hf, howner ▸ hle⟩
        rw [hstorage]
        exact Option.isSome_iff_ne_none.mpr hsome
    · next s' heq =>
      rw [heq] at hinv hstay
      exact hinv.put (hr.mono hstay.2 hstay.1).over

/-- **The response interceptor.** -/
theorem Inv.responseInterceptor (h : Inv s) (hr : RequestOk s.storage s.refreshes r) {status : Option ℕ}
    (hstage : r.stage = .answered status) : Inv (s.responseInterceptor i r status) := by
  have hpending : r.stage.pending = 0 := by
    rw [hstage]
    rfl
  unfold State.responseInterceptor
  split
  · exact h.put hr.over
  · next heligible =>
    split
    · exact h.put hr.over
    · next howner =>
      rw [not_not] at howner
      split
      · exact h.expireSession.put (hr.mono grows_clear (Stay.refl _)).over
      · next hretry =>
        have hretry : r.config.authRetry = false := Bool.not_eq_true _ ▸ hretry
        have hskip : r.config.skipAuth = false := by
          cases hskip : r.config.skipAuth with
          | false => rfl
          | true => simp [isRefreshEligible, hskip] at heligible
        have hsame : s.storage.ownerGeneration = r.started :=
          Option.some.inj (howner.symm.trans (hr.owner hskip))
        have hawait := h.awaitRefresh (i := i) hr hretry hskip hsame hpending
        split
        · next used current _ hcurrent =>
          split
          · exact h.put (hr.retry hretry hskip hpending (.inl (hsame ▸ h.sound.access current hcurrent)))
          · exact hawait
        · exact hawait

theorem Inv.stepRequest (h : Inv s) (hr : RequestOk s.storage s.refreshes r) {e : Event}
    (hstep : s.stepRequest i r e = some s') : Inv s' := by
  unfold State.stepRequest at hstep
  split at hstep
  · split at hstep
    · next hstage =>
      split at hstep
      · next config hconfig =>
        cases hstep
        exact h.put (hr.intercept h.sound hstage hconfig)
      · cases hstep
        exact h.put hr.over
    · cases hstep
  · split at hstep
    · next hstage =>
      cases hstep
      refine h.put ⟨hr.started, hr.owner, hr.skip, ?_, fun token ht => ?_, fun hst => (by cases hst),
        fun hst => (by cases hst), fun k hst => by cases hst⟩
      · have hsends := hr.sends
        rw [hstage] at hsends
        exact hsends
      · rcases List.mem_cons.mp ht with ht | ht
        · exact hr.ready hstage token ht.symm
        · exact hr.carried token ht
    · cases hstep
  · split at hstep
    · next hstage =>
      cases hstep
      have hsends := hr.sends
      rw [hstage] at hsends
      exact h.put ⟨hr.started, hr.owner, hr.skip, hsends, hr.carried, fun hst => (by cases hst),
        fun hst => (by cases hst), fun k hst => by cases hst⟩
    · cases hstep
  · split at hstep
    · next status hstage =>
      cases hstep
      exact h.responseInterceptor hr hstage
    · cases hstep
  · split at hstep
    · next k hstage =>
      obtain ⟨hretry, hskip, hrefresh, f, hf, hle⟩ := hr.awaiting k hstage
      have hpending : r.stage.pending = 0 := by
        rw [hstage]
        rfl
      split at hstep
      · next token epoch generation tokens hget =>
        cases hstep
        cases hf.symm.trans hget
        refine h.put (hr.retry hretry hskip hpending ?_)
        have hstored := (h.refreshes k _ hget).stored tokens (.inr rfl)
        rcases Nat.lt_or_eq_of_le hle with hlt | heq
        · -- A refresh of an earlier owner: there is a newer token, which the interceptor takes.
          exact .inr fun hsame => h.sound.both (hsame ▸ Nat.lt_of_le_of_lt (Nat.zero_le _) hlt) (hrefresh hsame)
        · exact .inl (heq ▸ hstored)
      · cases hstep
        exact h.put hr.over
      · cases hstep
    · cases hstep
  · cases hstep

/-- A refresh changes its stage only. -/
theorem RefreshOk.stage (h : RefreshOk storage promise k f) {stage : RefreshStage}
    (hstored : ∀ tokens, stage = .stored tokens ∨ stage = .settled (some tokens) →
      (f.generation, tokens.accessToken) ∈ storage.stored) (hopen : f.Open) :
    RefreshOk storage promise k { f with stage } where
  epoch := h.epoch
  generation := h.generation
  same := h.same
  stored := hstored
  current _ := h.current hopen

theorem Inv.stepRefresh (h : Inv s) (hf : s.refreshes[k]? = some f) {e : Event}
    (hstep : s.stepRefresh k f e = some s') : Inv s' := by
  have hok := h.refreshes k f hf
  have hput {stage : RefreshStage} (hopen : f.Open)
      (hstored : ∀ tokens, stage = .stored tokens ∨ stage = .settled (some tokens) →
        (f.generation, tokens.accessToken) ∈ s.storage.stored) : Inv (s.putRefresh k { f with stage }) :=
    h.putRefresh hf rfl (.inl rfl) (hok.stage hstored hopen)
  unfold State.stepRefresh at hstep
  split at hstep
  · split at hstep
    · next hstage =>
      have hopen : f.Open := fun result heq => by rw [hstage] at heq; cases heq
      split at hstep
      · cases hstep
        exact hput hopen fun tokens ht => by rcases ht with ht | ht <;> cases ht
      · cases hstep
        exact hput hopen fun tokens ht => by rcases ht with ht | ht <;> cases ht
    · cases hstep
  · split at hstep
    · next tokens hstage =>
      have hopen : f.Open := fun result heq => by rw [hstage] at heq; cases heq
      split at hstep
      · next storage hset =>
        cases hstep
        obtain ⟨hepoch, -, hgrows, hsound, hmem⟩ := setIfCurrent_eq_some hset
        refine (h.store hsound hgrows).putRefresh hf rfl (.inl rfl) ((hok.mono hgrows).stage (fun t ht => ?_) hopen)
        rcases ht with ht | ht
        · cases ht
          exact (hok.same hepoch.symm) ▸ hmem
        · cases ht
      · cases hstep
        exact hput hopen fun tokens ht => by rcases ht with ht | ht <;> cases ht
    · cases hstep
  · split at hstep
    · next status hstage =>
      have hopen : f.Open := fun result heq => by rw [hstage] at heq; cases heq
      split at hstep
      · cases hstep
        exact h.expireSession.putRefresh hf rfl (.inl rfl) ((hok.mono grows_clear).stage
          (fun tokens ht => by rcases ht with ht | ht <;> cases ht) hopen)
      · cases hstep
        exact hput hopen fun tokens ht => by rcases ht with ht | ht <;> cases ht
    · cases hstep
  · split at hstep
    · next tokens hstage =>
      cases hstep
      have hopen : f.Open := fun result heq => by rw [hstage] at heq; cases heq
      refine h.putRefresh hf rfl (.inr ⟨rfl, hopen⟩) ⟨hok.epoch, hok.generation, hok.same, fun t ht => ?_, fun hclosed => ?_⟩
      · rcases ht with ht | ht
        · cases ht
        · cases ht
          exact hok.stored tokens (.inl hstage)
      · exact absurd rfl (hclosed _)
    · next hstage =>
      cases hstep
      have hopen : f.Open := fun result heq => by rw [hstage] at heq; cases heq
      refine h.putRefresh hf rfl (.inr ⟨rfl, hopen⟩) ⟨hok.epoch, hok.generation, hok.same, fun t ht => ?_, fun hclosed => ?_⟩
      · rcases ht with ht | ht <;> cases ht
      · exact absurd rfl (hclosed _)
    · cases hstep
  · cases hstep

/-- **Every step keeps the invariant.** -/
theorem Inv.step (h : Inv s) {e : Event} (hstep : s.step e = some s') : Inv s' := by
  cases e with
  | request skipAuth skipRefresh publicUrl =>
    cases hstep
    exact h.apiRequest skipAuth skipRefresh publicUrl
  | intercept i | dispatch i | answer i _ | handle i | resume i =>
    obtain ⟨r, hr, hstep⟩ := Option.bind_eq_some_iff.mp hstep
    exact h.stepRequest (h.requests r (List.mem_of_getElem? hr)) hstep
  | refresh =>
    cases hstep
    exact h.refreshSession.1
  | refreshAnswer k _ | refreshThen k | refreshCatch k | refreshFinally k =>
    obtain ⟨f, hf, hstep⟩ := Option.bind_eq_some_iff.mp hstep
    exact h.stepRefresh hf hstep
  | login tokens =>
    cases hstep
    exact h.store sound_set grows_set
  | logout =>
    cases hstep
    exact h.store sound_clear grows_clear

theorem inv_initial (refreshToken : Option ℕ) : Inv (.initial refreshToken) where
  sound := ⟨fun _ h => (by cases h), fun h => absurd h (Nat.lt_irrefl 0)⟩
  requests r hr := absurd hr List.not_mem_nil
  refreshes k f hf := by cases hf
  promise k hk := by cases hk

theorem Reached.inv {refreshToken : Option ℕ} (h : Reached refreshToken s) : Inv s := by
  induction h with
  | start => exact inv_initial refreshToken
  | step e _ hstep ih => exact ih.step hstep

/-! ## The boundary -/

/-- A refresh under way is the one that is awaited, so there is one at most. -/
theorem Inv.open_unique (h : Inv s) {j : ℕ} (hf : s.refreshes[k]? = some f) (hf' : s.refreshes[j]? = some f')
    (hopen : f.Open) (hopen' : f'.Open) : k = j :=
  Option.some.inj (((h.refreshes k f hf).current hopen).symm.trans ((h.refreshes j f' hf').current hopen'))

/-- **A refresh that was started under another generation changes no tokens and ends no session.** -/
theorem Inv.late_refresh (h : Inv s) (hf : s.refreshes[k]? = some f) (hlate : f.generation ≠ s.storage.ownerGeneration)
    {e : Event} (hstep : s.stepRefresh k f e = some s') : s'.storage = s.storage ∧ s'.published = s.published := by
  have hepoch : s.storage.epoch ≠ f.epoch := fun heq => hlate ((h.refreshes k f hf).same heq.symm)
  unfold State.stepRefresh at hstep
  split at hstep
  · split at hstep
    · split at hstep <;>
      · cases hstep
        exact ⟨rfl, rfl⟩
    · cases hstep
  · split at hstep
    · split at hstep
      · next hset => exact absurd (setIfCurrent_eq_some hset).1 hepoch
      · cases hstep
        exact ⟨rfl, rfl⟩
    · cases hstep
  · split at hstep
    · split at hstep
      · next hcurrent => exact absurd hcurrent.1 hepoch
      · cases hstep
        exact ⟨rfl, rfl⟩
    · cases hstep
  · split at hstep
    · cases hstep
      exact ⟨rfl, rfl⟩
    · cases hstep
      exact ⟨rfl, rfl⟩
    · cases hstep
  · cases hstep

/-! ## Runs -/

/-- The storage grows and the refreshes stay. -/
def Moves (s s' : State) : Prop := Grows s.storage s'.storage ∧ Stay s.refreshes s'.refreshes

theorem moves_put : Moves s (s.put i r) := ⟨Grows.refl _, Stay.refl _⟩

theorem moves_expire_put : Moves s (s.expireSession.put i r) := ⟨grows_clear, Stay.refl _⟩

theorem moves_refreshSession : Moves s s.refreshSession.1 := by
  unfold State.refreshSession
  split
  · exact ⟨Grows.refl _, Stay.refl _⟩
  · split
    · exact ⟨grows_clear, Stay.refl _⟩
    · exact ⟨Grows.refl _, stay_append _⟩

theorem moves_awaitRefresh : Moves s (s.awaitRefresh i r) := by
  have hmoves := moves_refreshSession (s := s)
  unfold State.awaitRefresh
  split
  · exact moves_expire_put
  · split
    · next heq =>
      rw [heq] at hmoves
      exact hmoves
    · next heq =>
      rw [heq] at hmoves
      exact hmoves

theorem moves_responseInterceptor {status : Option ℕ} : Moves s (s.responseInterceptor i r status) := by
  unfold State.responseInterceptor
  split
  · exact moves_put
  · split
    · exact moves_put
    · split
      · exact moves_expire_put
      · split
        · split
          · exact moves_put
          · exact moves_awaitRefresh
        · exact moves_awaitRefresh

theorem moves_stepRequest {e : Event} (hstep : s.stepRequest i r e = some s') : Moves s s' := by
  unfold State.stepRequest at hstep
  split at hstep
  · split at hstep
    · split at hstep <;>
      · cases hstep
        exact moves_put
    · cases hstep
  · split at hstep
    · cases hstep
      exact moves_put
    · cases hstep
  · split at hstep
    · cases hstep
      exact moves_put
    · cases hstep
  · split at hstep
    · cases hstep
      exact moves_responseInterceptor
    · cases hstep
  · split at hstep
    · split at hstep
      · cases hstep
        exact moves_put
      · cases hstep
        exact moves_put
      · cases hstep
    · cases hstep
  · cases hstep

theorem moves_stepRefresh (hf : s.refreshes[k]? = some f) {e : Event} (hstep : s.stepRefresh k f e = some s') :
    Moves s s' := by
  have hput {stage : RefreshStage} : Stay s.refreshes (s.refreshes.set k { f with stage }) := stay_set hf rfl
  unfold State.stepRefresh at hstep
  split at hstep
  · split at hstep
    · split at hstep <;>
      · cases hstep
        exact ⟨Grows.refl _, hput⟩
    · cases hstep
  · split at hstep
    · split at hstep
      · next hset =>
        cases hstep
        exact ⟨(setIfCurrent_eq_some hset).2.2.1, hput⟩
      · cases hstep
        exact ⟨Grows.refl _, hput⟩
    · cases hstep
  · split at hstep
    · split at hstep
      · cases hstep
        exact ⟨grows_clear, hput⟩
      · cases hstep
        exact ⟨Grows.refl _, hput⟩
    · cases hstep
  · split at hstep
    · cases hstep
      exact ⟨Grows.refl _, hput⟩
    · cases hstep
      exact ⟨Grows.refl _, hput⟩
    · cases hstep
  · cases hstep

/-- **In every step the storage grows and the refreshes stay.** -/
theorem moves_step {e : Event} (hstep : s.step e = some s') : Moves s s' := by
  cases e with
  | request skipAuth skipRefresh publicUrl =>
    cases hstep
    exact ⟨Grows.refl _, Stay.refl _⟩
  | intercept i | dispatch i | answer i _ | handle i | resume i =>
    obtain ⟨r, -, hstep⟩ := Option.bind_eq_some_iff.mp hstep
    exact moves_stepRequest hstep
  | refresh =>
    cases hstep
    exact moves_refreshSession
  | refreshAnswer k _ | refreshThen k | refreshCatch k | refreshFinally k =>
    obtain ⟨f, hf, hstep⟩ := Option.bind_eq_some_iff.mp hstep
    exact moves_stepRefresh hf hstep
  | login tokens =>
    cases hstep
    exact ⟨grows_set, Stay.refl _⟩
  | logout =>
    cases hstep
    exact ⟨grows_clear, Stay.refl _⟩

/-- The events of a login and of a logout. -/
def Event.IsBoundary : Event → Prop
  | .login _ | .logout => True
  | _ => False

/-- A login or a logout begins a generation. -/
theorem generation_lt_of_boundary {e : Event} (he : e.IsBoundary) (hstep : s.step e = some s') :
    s.storage.ownerGeneration < s'.storage.ownerGeneration := by
  cases e with
  | login tokens =>
    cases hstep
    exact Nat.lt_succ_self _
  | logout =>
    cases hstep
    exact Nat.lt_succ_self _
  | _ => exact he.elim

/-- The client some events later. -/
inductive Later : State → State → Prop
  | refl (s : State) : Later s s
  | step {s s' s'' : State} (e : Event) : Later s s' → s'.step e = some s'' → Later s s''

theorem Later.moves (h : Later s s') : s.storage.ownerGeneration ≤ s'.storage.ownerGeneration ∧
    Stay s.refreshes s'.refreshes := by
  induction h with
  | refl => exact ⟨le_rfl, Stay.refl _⟩
  | step e _ hstep ih =>
    obtain ⟨hgrows, hstay⟩ := moves_step hstep
    refine ⟨ih.1.trans hgrows.generation, fun j g hg => ?_⟩
    obtain ⟨g', hg', hgen⟩ := ih.2 j g hg
    obtain ⟨g'', hg'', hgen'⟩ := hstay j g' hg'
    exact ⟨g'', hg'', hgen'.trans hgen⟩

theorem Reached.later {refreshToken : Option ℕ} (h : Reached refreshToken s) (hl : Later s s') :
    Reached refreshToken s' := by
  induction hl with
  | refl => exact h
  | step e _ hstep ih => exact .step e ih hstep

end Invariant

/-- **The boundary of a session**: whatever happens in whatever order, at most one refresh is under way; every request
was sent with access tokens only that were stored under the generation it was started under, and at most twice; and of
a refresh that there was before a login or a logout, answered as it may be and at whatever time later, no handler
changes tokens or ends a session. -/
theorem session_boundary (refreshToken : Option ℕ) (s : State) (h : Reached refreshToken s) :
    (∀ (j k : ℕ) f f', s.refreshes[j]? = some f → s.refreshes[k]? = some f' → f.stage = .inFlight →
      f'.stage = .inFlight → j = k) ∧
    (∀ r ∈ s.requests, (∀ token, some token ∈ r.sends → (r.started, token) ∈ s.storage.stored) ∧ r.sends.length ≤ 2) ∧
    ∀ (k : ℕ) f e s₁ s₂ e' s₃, s.refreshes[k]? = some f → e.IsBoundary → s.step e = some s₁ → Later s₁ s₂ →
      (∀ f', s₂.refreshes[k]? = some f' → s₂.stepRefresh k f' e' = some s₃ →
        s₃.storage = s₂.storage ∧ s₃.published = s₂.published) := by
  have hinv := h.inv
  refine ⟨fun j k f f' hf hf' hflight hflight' => ?_, fun r hr => ⟨(hinv.requests r hr).carried, ?_⟩, ?_⟩
  · have hopen {f : Refresh} (hstage : f.stage = .inFlight) : f.Open := fun result heq => by
      rw [hstage] at heq
      cases heq
    exact hinv.open_unique hf hf' (hopen hflight) (hopen hflight')
  · have hsends := (hinv.requests r hr).sends
    unfold RequestConfig.limit at hsends
    split at hsends <;> omega
  · intro k f e s₁ s₂ e' s₃ hf he hstep hlater f' hf' hstep'
    refine ((h.step e hstep).later hlater).inv.late_refresh hf' ?_ hstep'
    obtain ⟨g, hg, hgen⟩ := (moves_step hstep).2 k f hf
    obtain ⟨g', hg', hgen'⟩ := hlater.moves.2 k g hg
    cases hg'.symm.trans hf'
    have hold := (hinv.refreshes k f hf).generation
    have hnew := generation_lt_of_boundary he hstep
    have hle := hlater.moves.1
    rw [hgen', hgen]
    omega

/-- A refresh under way when the user logs out, and answered by new tokens then. -/
theorem session_boundary_of_late_answer :
    ∃ s s₁ s₂ s₃ : State, Reached (some 7) s ∧ s.step .logout = some s₁ ∧
      s₁.step (.refreshAnswer 0 (.ok ⟨1, 2⟩)) = some s₂ ∧ s₂.step (.refreshThen 0) = some s₃ ∧
      s₃.storage = s₂.storage ∧ s₃.published = s₂.published :=
  ⟨_, _, _, _, .step .refresh .start rfl, rfl, rfl, rfl,
    (session_boundary (some 7) _ (.step .refresh .start rfl)).2.2 0 _ .logout _ _ (.refreshThen 0) _ rfl trivial rfl
      (.step (.refreshAnswer 0 (.ok ⟨1, 2⟩)) (.refl _) rfl) _ rfl rfl⟩

end Session

end HomeCloud
