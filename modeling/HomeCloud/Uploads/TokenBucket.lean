import HomeCloud.Tokens
import HomeCloud.Uploads.RateLimit
import Mathlib.Tactic.NormNum

/-!
# The tokens of the transfer of chunks

The buckets with exact arithmetic, next to a ledger in which every key has had a bucket all along.

* `Upkeep`, `take`, `call`: the operations of the service, with or without the dropping of idle entries.
* `Ledger`: the abstract machine, which drops nothing and has no capacity.
* `Represents`, `represents_call`: the ledger of a service, and that it is kept by every call.
* `Ledger.admissions_eq`: the tokens of one key in the ledger are those of one bucket.
* **`token_bucket`**: the rate, the eviction and the time to retry.
-/

namespace HomeCloud

namespace TokenBucket

open RateLimit

/-! ## The service -/

/-- Whether idle entries are dropped, and how many entries a map may have. -/
structure Upkeep where
  sweeps : Bool
  capacity : Option ℕ

def service : Upkeep := ⟨true, some maxKeys⟩

/-- Nothing is dropped, and there is room for every key. -/
def hoarding : Upkeep := ⟨false, none⟩

def refill (now : ℕ) (policy : Policy) (b : Bucket) : Bucket :=
  let elapsed := now - b.refillAt
  { b with
    tokens := min policy.burst (b.tokens + elapsed * policy.rate / 1000)
    refillAt := max now b.refillAt
    seenAt := max now b.seenAt }

/-- The seconds after which a refused caller is to come back. -/
def retryAfter (policy : Policy) (tokens : ℚ) : ℕ := max 1 ⌈(1 - tokens) / policy.rate⌉₊

/-- Takes a token from the bucket `n`. -/
def spend (s : UploadRateLimitService) (now : ℕ) (store : Store) (n : ℕ) : UploadRateLimitService × Except Refusal ℕ :=
  let b := refill now store.policy (s.buckets n)
  if b.tokens < 1 then (s.set n b, .error (.throttled (retryAfter store.policy b.tokens)))
  else (s.set n { b with tokens := b.tokens - 1 }, .ok n)

variable (u : Upkeep)

def swept (s : UploadRateLimitService) (now : ℕ) : UploadRateLimitService := if u.sweeps then s.sweep now else s

def Upkeep.full (entries : ℕ) : Bool := u.capacity.any (· ≤ entries)

def take (s : UploadRateLimitService) (now : ℕ) (store : Store) (key : Key) :
    UploadRateLimitService × Except Refusal ℕ :=
  let s := swept u s now
  match s.lookup store key with
  | some n => spend s now store n
  | none =>
    if u.full (s.entries store).length then (s, .error (.throttled 60))
    else spend (s.create now store key) now store s.made

/-- A call of the service: `admitIp` and `admitShare` with their key, `enter`, or a release. -/
inductive Call where
  | admitIp (key : Key) (kind : UploadRequestKind)
  | enter (userId : ℤ) (kind : UploadRequestKind)
  | release (k : ℕ)

def validUser (userId : ℤ) : Bool := WholeSha256.isSafeInteger userId.toNat && 0 < userId

/-- The bucket a call takes a token of. -/
def Call.bucket : Call → Option (Store × Key)
  | .admitIp key kind => some (kind.admission, key)
  | .enter userId kind => if validUser userId then some (kind.store, .user userId.toNat) else none
  | .release _ => none

/-- Whether the bucket had a token, and what the caller gets: a lease perhaps, or a refusal. -/
structure Reply where
  admitted : Bool
  result : Except Refusal (Option ℕ)
  deriving DecidableEq

def call (l : Limiter) (now : ℕ) : Call → Limiter × Reply
  | .admitIp key kind =>
    let x := take u l.service now kind.admission key
    match x.2 with
    | .error e => ({ l with service := x.1 }, ⟨false, .error e⟩)
    | .ok _ => ({ l with service := x.1 }, ⟨true, .ok none⟩)
  | .enter userId kind =>
    if validUser userId then
      let x := take u l.service now kind.store (.user userId.toNat)
      match x.2 with
      | .error e => ({ l with service := x.1 }, ⟨false, .error e⟩)
      | .ok n =>
        let y := Limiter.entered { l with service := x.1 } userId.toNat kind n
        (y.1, ⟨true, y.2⟩)
    else (l, ⟨false, .error .unauthorized⟩)
  | .release k => (l.release now k, ⟨false, .ok none⟩)

/-- The service when it starts. -/
def start : Limiter := ⟨.initial, []⟩

/-- The limiter after a sequence of calls. -/
def after (l : Limiter) (calls : List (ℕ × Call)) : Limiter :=
  calls.foldl (fun l c => (call u l c.1 c.2).1) l

/-- The calls with their replies. -/
def trace (l : Limiter) : List (ℕ × Call) → List (ℕ × Call × Reply)
  | [] => []
  | (now, c) :: calls => (now, c, (call u l now c).2) :: trace (call u l now c).1 calls

/-- There is an entry for the key of a call, or room for one. -/
def Roomy (s : UploadRateLimitService) (now : ℕ) (c : Call) : Prop :=
  ∀ store key, c.bucket = some (store, key) → (swept u s now).lookup store key ≠ none ∨
    u.full ((swept u s now).entries store).length = false

/-- No call exceeds the capacity. -/
def Fits (l : Limiter) : List (ℕ × Call) → Prop
  | [] => True
  | (now, c) :: calls => Roomy u l.service now c ∧ Fits (call u l now c).1 calls

/-- A call that a bucket admits in a window. -/
def admittedIn (store : Store) (key : Key) (t₁ t₂ : ℕ) (x : ℕ × Call × Reply) : Bool :=
  x.2.1.bucket = some (store, key) && (x.2.2.admitted && t₁ ≤ x.1 && x.1 ≤ t₂)

/-- The calls of one bucket that are admitted in a window. -/
def admissions (store : Store) (key : Key) (t₁ t₂ : ℕ) (calls : List (ℕ × Call × Reply)) : ℕ :=
  calls.countP (admittedIn store key t₁ t₂)

/-! ## The ledger -/

def rule (store : Store) : Tokens.Rule ℚ := ⟨store.policy.rate / 1000, store.policy.burst⟩

/-- A bucket for every key, the leases of every user, and the leases in the order in which they were granted. -/
structure Ledger where
  buckets : Store → Key → Tokens.Bucket ℚ
  active : ℕ → ℤ
  total : ℤ
  leases : List (ℕ × Bool)

namespace Ledger

def initial : Ledger := ⟨fun store _ => ⟨store.policy.burst, 0⟩, fun _ => 0, 0, []⟩

variable (a : Ledger)

def set (store : Store) (key : Key) (b : Tokens.Bucket ℚ) : Ledger :=
  { a with buckets := Function.update a.buckets store (Function.update (a.buckets store) key b) }

def take (now : ℕ) (store : Store) (key : Key) : Ledger × Except Refusal Unit :=
  let b := a.buckets store key
  let x := (rule store).take b now
  (a.set store key x.1, if x.2 then .ok () else .error (.throttled (retryAfter store.policy ((rule store).level b now))))

def grant (userId : ℕ) : Ledger :=
  { a with
    active := Function.update a.active userId (a.active userId + 1)
    total := a.total + 1
    leases := a.leases ++ [(userId, false)] }

def entered (userId : ℕ) (kind : UploadRequestKind) : Ledger × Except Refusal (Option ℕ) :=
  if kind = .abort then (a, .ok none)
  else if a.active userId ≥ maxPerUserConcurrent || a.total ≥ maxConcurrent then (a, .error (.throttled 1))
  else (a.grant userId, .ok (some a.leases.length))

def release (k : ℕ) : Ledger :=
  match a.leases[k]? with
  | none => a
  | some (userId, released) =>
    if released then a
    else
      { a with
        active := Function.update a.active userId (a.active userId - 1)
        total := a.total - 1
        leases := a.leases.set k (userId, true) }

def call (now : ℕ) : Call → Ledger × Reply
  | .admitIp key kind =>
    let x := a.take now kind.admission key
    match x.2 with
    | .error e => (x.1, ⟨false, .error e⟩)
    | .ok () => (x.1, ⟨true, .ok none⟩)
  | .enter userId kind =>
    if validUser userId then
      let x := a.take now kind.store (.user userId.toNat)
      match x.2 with
      | .error e => (x.1, ⟨false, .error e⟩)
      | .ok () =>
        let y := x.1.entered userId.toNat kind
        (y.1, ⟨true, y.2⟩)
    else (a, ⟨false, .error .unauthorized⟩)
  | .release k => (a.release k, ⟨false, .ok none⟩)

def after (calls : List (ℕ × Call)) : Ledger := calls.foldl (fun a c => (a.call c.1 c.2).1) a

def trace (a : Ledger) : List (ℕ × Call) → List (ℕ × Call × Reply)
  | [] => []
  | (now, c) :: calls => (now, c, (a.call now c).2) :: trace (a.call now c).1 calls

end Ledger

/-! ## The rules -/

theorem rule_rate (store : Store) : 0 < (rule store).rate := by
  cases store <;> norm_num [rule, Store.policy]

theorem one_le_burst (store : Store) : 1 ≤ (rule store).burst := by
  cases store <;> norm_num [rule, Store.policy]

/-- A bucket is full after the time in which it is idle. -/
theorem burst_le_idle (store : Store) : (rule store).burst ≤ (idleMs : ℚ) * (rule store).rate := by
  cases store <;> norm_num [rule, Store.policy, idleMs]

/-! ## What a service stands for -/

/-- The tokens of a bucket of the service. -/
def tokensOf (b : Bucket) : Tokens.Bucket ℚ := ⟨b.tokens, b.refillAt⟩

/-- The tokens of a key at a time; a key without an entry has all of them. -/
def levelOf (s : UploadRateLimitService) (store : Store) (key : Key) (t : ℚ) : ℚ :=
  (s.lookup store key).elim (rule store).burst fun n => (rule store).level (tokensOf (s.buckets n)) t

/-- The leases of a user. -/
def activeOf (s : UploadRateLimitService) (userId : ℕ) : ℤ :=
  (s.lookup .chunk (.user userId)).elim 0 fun n => (s.buckets n).active

/-- No two entries share a bucket, and no bucket is ahead of the time. -/
structure Sound (now : ℕ) (s : UploadRateLimitService) : Prop where
  apart : ∀ store store' key key' n, (key, n) ∈ s.entries store → (key', n) ∈ s.entries store' → store = store' ∧ key = key'
  tokens : ∀ store, ∀ e ∈ s.entries store, 0 ≤ (s.buckets e.2).tokens
  refilled : ∀ store, ∀ e ∈ s.entries store, (s.buckets e.2).refillAt ≤ (s.buckets e.2).seenAt
  seen : ∀ store, ∀ e ∈ s.entries store, (s.buckets e.2).seenAt ≤ now

/-- The ledger of a service at a time. -/
structure Represents (now : ℕ) (l : Limiter) (a : Ledger) : Prop where
  inv : l.Inv
  sound : Sound now l.service
  levels : ∀ store key (t : ℚ), now ≤ t → levelOf l.service store key t = (rule store).level (a.buckets store key) t
  active : ∀ userId, activeOf l.service userId = a.active userId
  total : l.service.active = a.total
  leases : l.closures.map (fun c => (c.userId, c.released)) = a.leases

section

variable {u : Upkeep} {l : Limiter} {a : Ledger} {s : UploadRateLimitService} {now now' : ℕ} {store : Store} {key : Key}
  {n : ℕ}

theorem represents_initial : Represents 0 start .initial where
  inv := Limiter.inv_initial
  sound := ⟨fun _ _ _ _ _ he => absurd he List.not_mem_nil, fun _ _ he => absurd he List.not_mem_nil,
    fun _ _ he => absurd he List.not_mem_nil, fun _ _ he => absurd he List.not_mem_nil⟩
  levels store key t ht := by
    have hearned : 0 ≤ (t - 0) * (rule store).rate := mul_nonneg (by simpa using ht) (rule_rate store).le
    exact (min_eq_left (le_add_of_nonneg_right (by simpa [Ledger.initial] using hearned))).symm
  active _ := rfl
  total := rfl
  leases := rfl

theorem lookup_eq_some_iff (h : s.Tables) : s.lookup store key = some n ↔ (key, n) ∈ s.entries store := by
  refine ⟨UploadRateLimitService.lookup_mem, fun hmem => ?_⟩
  cases hlookup : s.lookup store key with
  | none => exact absurd (List.mem_map_of_mem (f := Prod.fst) hmem) (UploadRateLimitService.lookup_none hlookup)
  | some m =>
    have hfound := UploadRateLimitService.lookup_mem hlookup
    have hpair := List.inj_on_of_nodup_map (h.keys store) hfound hmem rfl
    rw [(Prod.mk.inj hpair).2]

theorem lookup_eq_none_iff (h : s.Tables) : s.lookup store key = none ↔ ∀ n, (key, n) ∉ s.entries store := by
  rw [Option.eq_none_iff_forall_ne_some]
  exact forall_congr' fun n => not_congr (lookup_eq_some_iff h)

/-! ## Time passes, and idle entries are dropped -/

theorem Sound.mono (h : Sound now s) (hle : now ≤ now') : Sound now' s where
  apart := h.apart
  tokens := h.tokens
  refilled := h.refilled
  seen store e he := (h.seen store e he).trans hle

theorem Represents.later (h : Represents now l a) (hle : now ≤ now') : Represents now' l a :=
  { h with
    sound := h.sound.mono hle
    levels := fun store key t ht => h.levels store key t ((Nat.cast_le.mpr hle).trans ht) }

theorem mem_sweep {e : Key × ℕ} (he : e ∈ s.entries store) (hkeep : e ∉ (s.sweep now).entries store) :
    (s.buckets e.2).active = 0 ∧ (s.buckets e.2).seenAt + idleMs ≤ now := by
  unfold UploadRateLimitService.sweep at hkeep
  split_ifs at hkeep
  · dsimp only at hkeep
    rw [List.mem_filter, not_and] at hkeep
    simpa using hkeep he
  · exact absurd he hkeep

theorem sweep_subset {e : Key × ℕ} (he : e ∈ (s.sweep now).entries store) : e ∈ s.entries store := by
  unfold UploadRateLimitService.sweep at he
  split_ifs at he
  · exact List.mem_of_mem_filter he
  · exact he

/-- **What is dropped is full and has no lease.** -/
theorem lookup_sweep (ht : s.Tables) (hs : Sound now s) (store : Store) (key : Key) : (s.sweep now).lookup store key = s.lookup store key ∨
    ((s.sweep now).lookup store key = none ∧ ∃ n, s.lookup store key = some n ∧ (s.buckets n).active = 0 ∧
      ∀ t : ℚ, now ≤ t → (rule store).level (tokensOf (s.buckets n)) t = (rule store).burst) := by
  have ht' : (s.sweep now).Tables := UploadRateLimitService.tables_sweep ht
  cases hlookup : s.lookup store key with
  | none =>
    refine .inl ((lookup_eq_none_iff ht').mpr fun n hn => ?_)
    exact (lookup_eq_none_iff ht).mp hlookup n (sweep_subset hn)
  | some n =>
    have hmem := (lookup_eq_some_iff ht).mp hlookup
    by_cases hkeep : (key, n) ∈ (s.sweep now).entries store
    · exact .inl ((lookup_eq_some_iff ht').mpr hkeep)
    · obtain ⟨hactive, hidle⟩ := mem_sweep hmem hkeep
      refine .inr ⟨(lookup_eq_none_iff ht').mpr fun m hm => ?_, n, rfl, hactive, fun t hnow => ?_⟩
      · have hpair := List.inj_on_of_nodup_map (ht.keys store) (sweep_subset hm) hmem rfl
        rw [hpair] at hm
        exact hkeep hm
      · refine Tokens.Rule.level_of_idle (rule_rate store).le (hs.tokens store _ hmem) (burst_le_idle store) ?_
        have hrefill : (s.buckets n).refillAt + idleMs ≤ now :=
          (Nat.add_le_add_right (hs.refilled store _ hmem) idleMs).trans hidle
        have hcast : ((s.buckets n).refillAt : ℚ) + idleMs ≤ now := by exact_mod_cast hrefill
        exact hcast.trans hnow

theorem sound_sweep (h : Sound now s) : Sound now (s.sweep now) := by
  have hbuckets : (s.sweep now).buckets = s.buckets := UploadRateLimitService.sweep_buckets
  refine ⟨fun store store' key key' n he he' => ?_, fun store e he => ?_, fun store e he => ?_, fun store e he => ?_⟩
  · exact h.apart store store' key key' n (sweep_subset he) (sweep_subset he')
  · rw [hbuckets]
    exact h.tokens store e (sweep_subset he)
  · rw [hbuckets]
    exact h.refilled store e (sweep_subset he)
  · rw [hbuckets]
    exact h.seen store e (sweep_subset he)

theorem levelOf_sweep (ht : s.Tables) (hs : Sound now s) {t : ℚ} (hnow : now ≤ t) :
    levelOf (s.sweep now) store key t = levelOf s store key t := by
  unfold levelOf
  rw [UploadRateLimitService.sweep_buckets]
  rcases lookup_sweep ht hs store key with heq | ⟨hnone, n, hsome, -, hfull⟩
  · rw [heq]
  · rw [hnone, hsome]
    exact (hfull t hnow).symm

theorem activeOf_sweep (ht : s.Tables) (hs : Sound now s) (userId : ℕ) : activeOf (s.sweep now) userId = activeOf s userId := by
  unfold activeOf
  rw [UploadRateLimitService.sweep_buckets]
  rcases lookup_sweep ht hs .chunk (.user userId) with heq | ⟨hnone, n, hsome, hzero, -⟩
  · rw [heq]
  · rw [hnone, hsome]
    exact hzero.symm

theorem represents_sweep (h : Represents now l a) : Represents now { l with service := l.service.sweep now } a where
  inv := h.inv.serves (UploadRateLimitService.tables_sweep h.inv.tables) UploadRateLimitService.serves_sweep
  sound := sound_sweep h.sound
  levels store key t ht := (levelOf_sweep h.inv.tables h.sound ht).trans (h.levels store key t ht)
  active userId := (activeOf_sweep h.inv.tables h.sound userId).trans (h.active userId)
  total := UploadRateLimitService.serves_sweep.active.trans h.total
  leases := h.leases

/-! ## A key that is new -/

theorem create_entries (other : Store) : (s.create now store key).entries other =
    if other = store then s.entries store ++ [(key, s.made)] else s.entries other := by
  unfold UploadRateLimitService.create
  dsimp only
  rw [Function.update_apply]

theorem mem_create {other : Store} {e : Key × ℕ} : e ∈ (s.create now store key).entries other ↔
    e ∈ s.entries other ∨ (other = store ∧ e = (key, s.made)) := by
  rw [create_entries]
  split_ifs with h
  · rw [List.mem_append, List.mem_singleton, h]
    simp
  · simp [h]

theorem create_bucket_made : (s.create now store key).buckets s.made = ⟨store.policy.burst, now, now, 0⟩ := by
  unfold UploadRateLimitService.create
  exact Function.update_self ..

theorem create_bucket_old (hn : n < s.made) : (s.create now store key).buckets n = s.buckets n := by
  unfold UploadRateLimitService.create
  exact Function.update_of_ne hn.ne _ _

theorem lookup_create (ht : s.Tables) (hnew : s.lookup store key = none) (store' : Store) (key' : Key) :
    (s.create now store key).lookup store' key' =
      if store' = store ∧ key' = key then some s.made else s.lookup store' key' := by
  have ht' : (s.create now store key).Tables := UploadRateLimitService.tables_create ht hnew
  split_ifs with h
  · rw [lookup_eq_some_iff ht', mem_create]
    exact .inr ⟨h.1, by rw [h.2]⟩
  · cases hlookup : s.lookup store' key' with
    | none =>
      refine (lookup_eq_none_iff ht').mpr fun n hn => ?_
      rcases mem_create.mp hn with hold | ⟨hstore, hkey⟩
      · exact (lookup_eq_none_iff ht).mp hlookup n hold
      · exact h ⟨hstore, (Prod.mk.inj hkey).1⟩
    | some n => exact (lookup_eq_some_iff ht').mpr (mem_create.mpr (.inl ((lookup_eq_some_iff ht).mp hlookup)))

theorem sound_create (ht : s.Tables) (h : Sound now s) : Sound now (s.create now store key) := by
  have hcases : ∀ other, ∀ e ∈ (s.create now store key).entries other,
      (e ∈ s.entries other ∧ (s.create now store key).buckets e.2 = s.buckets e.2) ∨
        (s.create now store key).buckets e.2 = ⟨store.policy.burst, now, now, 0⟩ := by
    intro other e he
    rcases mem_create.mp he with hold | ⟨-, hadd⟩
    · exact .inl ⟨hold, create_bucket_old (ht.made other e hold)⟩
    · rw [hadd]
      exact .inr create_bucket_made
  refine ⟨fun store' store'' key' key'' n he he' => ?_, fun other e he => ?_, fun other e he => ?_, fun other e he => ?_⟩
  · rcases mem_create.mp he with hold | ⟨hstore, hadd⟩ <;> rcases mem_create.mp he' with hold' | ⟨hstore', hadd'⟩
    · exact h.apart _ _ _ _ n hold hold'
    · have hlt := ht.made _ _ hold
      rw [(Prod.mk.inj hadd').2] at hlt
      exact absurd hlt (lt_irrefl _)
    · have hlt := ht.made _ _ hold'
      rw [(Prod.mk.inj hadd).2] at hlt
      exact absurd hlt (lt_irrefl _)
    · exact ⟨hstore.trans hstore'.symm, (Prod.mk.inj hadd).1.trans (Prod.mk.inj hadd').1.symm⟩
  · rcases hcases other e he with ⟨hold, hbucket⟩ | hbucket
    · rw [hbucket]
      exact h.tokens other e hold
    · rw [hbucket]
      exact zero_le_one.trans (one_le_burst store)
  · rcases hcases other e he with ⟨hold, hbucket⟩ | hbucket
    · rw [hbucket]
      exact h.refilled other e hold
    · rw [hbucket]
  · rcases hcases other e he with ⟨hold, hbucket⟩ | hbucket
    · rw [hbucket]
      exact h.seen other e hold
    · rw [hbucket]

/-- A new bucket is full. -/
theorem levelOf_create (ht : s.Tables) (hnew : s.lookup store key = none) {store' : Store} {key' : Key} {t : ℚ}
    (hnow : now ≤ t) : levelOf (s.create now store key) store' key' t = levelOf s store' key' t := by
  unfold levelOf
  rw [lookup_create ht hnew]
  split_ifs with h
  · rw [h.1, h.2, hnew, Option.elim_some, Option.elim_none, create_bucket_made]
    exact min_eq_left (le_add_of_nonneg_right (mul_nonneg (sub_nonneg.mpr hnow) (rule_rate store).le))
  · cases hlookup : s.lookup store' key' with
    | none => rfl
    | some n =>
      have hlt := ht.made _ _ ((lookup_eq_some_iff ht).mp hlookup)
      rw [Option.elim_some, Option.elim_some, create_bucket_old hlt]

theorem activeOf_create (ht : s.Tables) (hnew : s.lookup store key = none) (userId : ℕ) :
    activeOf (s.create now store key) userId = activeOf s userId := by
  unfold activeOf
  rw [lookup_create ht hnew]
  split_ifs with h
  · rw [h.1, h.2, hnew, Option.elim_some, Option.elim_none, create_bucket_made]
  · cases hlookup : s.lookup .chunk (.user userId) with
    | none => rfl
    | some n =>
      have hlt := ht.made _ _ ((lookup_eq_some_iff ht).mp hlookup)
      rw [Option.elim_some, Option.elim_some, create_bucket_old hlt]

theorem represents_create (h : Represents now l a) (hnew : l.service.lookup store key = none) :
    Represents now { l with service := l.service.create now store key } a where
  inv := h.inv.serves (UploadRateLimitService.tables_create h.inv.tables hnew)
    (UploadRateLimitService.serves_create h.inv.unmade)
  sound := sound_create h.inv.tables h.sound
  levels store' key' t ht := (levelOf_create h.inv.tables hnew ht).trans (h.levels store' key' t ht)
  active userId := (activeOf_create h.inv.tables hnew userId).trans (h.active userId)
  total := h.total
  leases := h.leases

/-! ## A token is taken -/

/-- **The tokens of a refilled bucket.** -/
theorem refill_eq {b : Bucket} (hrefilled : b.refillAt ≤ now) (hseen : b.seenAt ≤ now) : refill now store.policy b =
    { b with tokens := (rule store).level (tokensOf b) now, refillAt := now, seenAt := now } := by
  have helapsed : ((now - b.refillAt : ℕ) : ℚ) = now - b.refillAt := Nat.cast_sub hrefilled
  unfold refill
  dsimp only
  rw [max_eq_left hrefilled, max_eq_left hseen, helapsed, mul_div_assoc]
  rfl

/-- The bucket from which a token is taken, if there is one. -/
def spent (now : ℕ) (store : Store) (b : Bucket) : Bucket :=
  { b with tokens := ((rule store).take (tokensOf b) now).1.tokens, refillAt := now, seenAt := now }

theorem spend_eq (hrefilled : (s.buckets n).refillAt ≤ now) (hseen : (s.buckets n).seenAt ≤ now) :
    spend s now store n = (s.set n (spent now store (s.buckets n)),
      if ((rule store).take (tokensOf (s.buckets n)) now).2 then .ok n
      else .error (.throttled (retryAfter store.policy ((rule store).level (tokensOf (s.buckets n)) now)))) := by
  unfold spend spent Tokens.Rule.take
  rw [refill_eq hrefilled hseen]
  by_cases hlt : (rule store).level (tokensOf (s.buckets n)) now < 1
  · rw [if_pos hlt, if_pos hlt]
    rfl
  · rw [if_neg hlt, if_neg hlt]
    rfl

theorem tokensOf_spent (b : Bucket) : tokensOf (spent now store b) = ((rule store).take (tokensOf b) now).1 := by
  unfold spent Tokens.Rule.take
  split_ifs <;> rfl

/-- What is taken depends on the level only. -/
theorem take_congr {r : Tokens.Rule ℚ} {b b' : Tokens.Bucket ℚ} {t : ℚ} (h : r.level b t = r.level b' t) :
    r.take b t = r.take b' t := by
  unfold Tokens.Rule.take
  rw [h]

theorem sound_set {b : Bucket} (h : Sound now s) (htokens : 0 ≤ b.tokens) (hrefilled : b.refillAt ≤ b.seenAt)
    (hseen : b.seenAt ≤ now) : Sound now (s.set n b) := by
  have hbucket : ∀ m, (s.set n b).buckets m = if m = n then b else s.buckets m := fun m => Function.update_apply ..
  refine ⟨h.apart, fun store e he => ?_, fun store e he => ?_, fun store e he => ?_⟩ <;> rw [hbucket] <;> split_ifs
  · exact htokens
  · exact h.tokens store e he
  · exact hrefilled
  · exact h.refilled store e he
  · exact hseen
  · exact h.seen store e he

theorem set_self {b : Bucket} : (s.set n b).buckets n = b := Function.update_self ..

theorem set_other {b : Bucket} {m : ℕ} (hne : m ≠ n) : (s.set n b).buckets m = s.buckets m := Function.update_of_ne hne _ _

/-- The counter of all leases does not matter. -/
theorem sound_congr {s' : UploadRateLimitService} (h : Sound now s) (hbuckets : s'.buckets = s.buckets)
    (hentries : s'.entries = s.entries) : Sound now s' := by
  constructor <;> simp only [hbuckets, hentries]
  · exact h.apart
  · exact h.tokens
  · exact h.refilled
  · exact h.seen

/-- Only the key of a bucket sees a change of it. -/
theorem levelOf_set {b : Bucket} (ht : s.Tables) (h : Sound now s) (hn : s.lookup store key = some n) (store' : Store)
    (key' : Key) (t : ℚ) : levelOf (s.set n b) store' key' t =
      if store' = store ∧ key' = key then (rule store).level (tokensOf b) t else levelOf s store' key' t := by
  have hlookup : (s.set n b).lookup store' key' = s.lookup store' key' := rfl
  unfold levelOf
  rw [hlookup]
  split_ifs with heq
  · rw [heq.1, heq.2, hn, Option.elim_some, set_self]
  · cases hm : s.lookup store' key' with
    | none => rfl
    | some m =>
      have hne : m ≠ n := by
        rintro rfl
        exact heq (h.apart _ _ _ _ m ((lookup_eq_some_iff ht).mp hm) ((lookup_eq_some_iff ht).mp hn))
      rw [Option.elim_some, Option.elim_some, set_other hne]

theorem activeOf_set {b : Bucket} (hactive : b.active = (s.buckets n).active) (userId : ℕ) :
    activeOf (s.set n b) userId = activeOf s userId := by
  have hlookup : (s.set n b).lookup .chunk (.user userId) = s.lookup .chunk (.user userId) := rfl
  unfold activeOf
  rw [hlookup]
  cases s.lookup .chunk (.user userId) with
  | none => rfl
  | some m => exact UploadRateLimitService.serves_set hactive |>.counters m

/-- **A token is taken in the service as in the ledger.** -/
theorem represents_spend (h : Represents now l a) (hn : l.service.lookup store key = some n) :
    Represents now { l with service := (spend l.service now store n).1 } (a.take now store key).1 ∧
      (spend l.service now store n).2 = (a.take now store key).2.map fun _ => n := by
  have hmem := (lookup_eq_some_iff h.inv.tables).mp hn
  have hseen : (l.service.buckets n).seenAt ≤ now := h.sound.seen store _ hmem
  have hrefilled : (l.service.buckets n).refillAt ≤ now := (h.sound.refilled store _ hmem).trans hseen
  have hlevel : (rule store).level (tokensOf (l.service.buckets n)) now = (rule store).level (a.buckets store key) now := by
    have := h.levels store key now le_rfl
    rwa [levelOf, hn, Option.elim_some] at this
  have htake := take_congr hlevel
  have hnonneg := (Tokens.Rule.take_tokens (rule_rate store).le (zero_le_one.trans (one_le_burst store))
    (h.sound.tokens store _ hmem) (b := tokensOf (l.service.buckets n)) (t := now) (Nat.cast_le.mpr hrefilled)).1
  rw [spend_eq hrefilled hseen]
  refine ⟨⟨?_, ?_, fun store' key' t ht => ?_, fun userId => ?_, h.total, h.leases⟩, ?_⟩
  · exact h.inv.serves (UploadRateLimitService.tables_set h.inv.tables) (UploadRateLimitService.serves_set rfl)
  · exact sound_set h.sound hnonneg le_rfl le_rfl
  · dsimp only
    rw [levelOf_set h.inv.tables h.sound hn, tokensOf_spent, htake]
    unfold Ledger.take Ledger.set
    dsimp only
    split_ifs with heq
    · rw [heq.1, heq.2, Function.update_self, Function.update_self]
    · rw [h.levels store' key' t ht]
      by_cases hstore : store' = store
      · subst hstore
        rw [Function.update_self, Function.update_of_ne fun hkey => heq ⟨rfl, hkey⟩]
      · rw [Function.update_of_ne hstore]
  · exact (activeOf_set (b := spent now store (l.service.buckets n)) rfl userId).trans (h.active userId)
  · unfold Ledger.take
    dsimp only
    rw [htake, hlevel]
    split_ifs <;> rfl

theorem represents_swept (h : Represents now l a) : Represents now { l with service := swept u l.service now } a := by
  unfold swept
  split_ifs
  · exact represents_sweep h
  · exact h

theorem spend_lookup : (spend s now store n).1.lookup store key = s.lookup store key := by
  unfold spend
  dsimp only
  split_ifs <;> rfl

/-- **`take` in the service and in the ledger**, with the entry of the key afterwards. -/
theorem represents_take (h : Represents now l a) (hroom : (swept u l.service now).lookup store key ≠ none ∨
    u.full ((swept u l.service now).entries store).length = false) :
    Represents now { l with service := (take u l.service now store key).1 } (a.take now store key).1 ∧
      ∃ n, (take u l.service now store key).1.lookup store key = some n ∧
        (take u l.service now store key).2 = (a.take now store key).2.map fun _ => n := by
  have hswept := represents_swept (u := u) h
  unfold take
  dsimp only
  cases hlookup : (swept u l.service now).lookup store key with
  | some n =>
    obtain ⟨hnext, hresult⟩ := represents_spend hswept hlookup
    exact ⟨hnext, n, spend_lookup.trans hlookup, hresult⟩
  | none =>
    have hfull : u.full ((swept u l.service now).entries store).length = false := hroom.resolve_left (absurd hlookup)
    have hnew : ((swept u l.service now).create now store key).lookup store key = some (swept u l.service now).made := by
      rw [lookup_create hswept.inv.tables hlookup, if_pos ⟨rfl, rfl⟩]
    dsimp only
    rw [hfull, if_neg Bool.false_ne_true]
    obtain ⟨hnext, hresult⟩ := represents_spend (represents_create hswept hlookup) hnew
    exact ⟨hnext, _, spend_lookup.trans hnew, hresult⟩

/-! ## Leases are granted and given back -/

theorem activeOf_update {b : Bucket} (ht : s.Tables) (hs : Sound now s) {userId : ℕ}
    (hn : s.lookup .chunk (.user userId) = some n) (other : ℕ) :
    activeOf (s.set n b) other = if other = userId then b.active else activeOf s other := by
  have hlookup : (s.set n b).lookup .chunk (.user other) = s.lookup .chunk (.user other) := rfl
  unfold activeOf
  rw [hlookup]
  split_ifs with heq
  · rw [heq, hn, Option.elim_some, set_self]
  · cases hm : s.lookup .chunk (.user other) with
    | none => rfl
    | some m =>
      have hne : m ≠ n := by
        rintro rfl
        exact heq (Key.user.inj (hs.apart _ _ _ _ m ((lookup_eq_some_iff ht).mp hm) ((lookup_eq_some_iff ht).mp hn)).2)
      rw [Option.elim_some, Option.elim_some, set_other hne]

/-- The tokens do not change with the leases. -/
theorem levelOf_leases {b : Bucket} (ht : s.Tables) (hs : Sound now s) (hn : s.lookup store key = some n)
    (htokens : tokensOf b = tokensOf (s.buckets n)) (store' : Store) (key' : Key) (t : ℚ) :
    levelOf (s.set n b) store' key' t = levelOf s store' key' t := by
  rw [levelOf_set ht hs hn, htokens]
  split_ifs with heq
  · rw [heq.1, heq.2, levelOf, hn, Option.elim_some]
  · rfl

theorem represents_grant {userId : ℕ} (h : Represents now l a) (hn : l.service.lookup .chunk (.user userId) = some n)
    (hbucket : (l.service.buckets n).active < maxPerUserConcurrent) (hall : l.service.active < maxConcurrent) :
    Represents now (l.grant userId n) (a.grant userId) := by
  have hmem := (lookup_eq_some_iff h.inv.tables).mp hn
  have hgrant : (l.grant userId n).service = { l.service.set n { l.service.buckets n with
      active := (l.service.buckets n).active + 1 } with active := l.service.active + 1 } := rfl
  let b : Bucket := { l.service.buckets n with active := (l.service.buckets n).active + 1 }
  refine ⟨Limiter.inv_grant h.inv hmem hbucket hall, ?_, fun store key t ht => ?_, fun other => ?_, ?_, ?_⟩
  · exact sound_congr (sound_set (n := n) (b := b) h.sound (h.sound.tokens .chunk _ hmem) (h.sound.refilled .chunk _ hmem)
      (h.sound.seen .chunk _ hmem)) rfl rfl
  · exact (levelOf_leases (b := b) h.inv.tables h.sound hn rfl store key t).trans (h.levels store key t ht)
  · refine (activeOf_update h.inv.tables h.sound hn other).trans ?_
    unfold Ledger.grant
    dsimp only
    rw [Function.update_apply, ← h.active other, ← h.active userId]
    split_ifs
    · rw [activeOf, hn, Option.elim_some]
    · rfl
  · rw [hgrant]
    exact congrArg (· + 1) h.total
  · unfold Limiter.grant Ledger.grant
    dsimp only
    rw [List.map_append, h.leases]
    rfl

theorem represents_entered {userId : ℕ} (kind : UploadRequestKind) (h : Represents now l a)
    (hn : l.service.lookup kind.store (.user userId) = some n) :
    Represents now (l.entered userId kind n).1 (a.entered userId kind).1 ∧
      (l.entered userId kind n).2 = (a.entered userId kind).2 := by
  unfold Limiter.entered Ledger.entered
  by_cases hkind : kind = .abort
  · rw [if_pos hkind, if_pos hkind]
    exact ⟨h, rfl⟩
  have hstore : kind.store = .chunk := by
    cases kind with
    | chunk => rfl
    | abort => exact absurd rfl hkind
  rw [hstore] at hn
  have hactive : (l.service.buckets n).active = a.active userId := by
    rw [← h.active userId, activeOf, hn, Option.elim_some]
  have hlength : l.closures.length = a.leases.length := by rw [← h.leases, List.length_map]
  rw [if_neg hkind, if_neg hkind, hactive, h.total]
  by_cases hfull : (a.active userId ≥ maxPerUserConcurrent || a.total ≥ maxConcurrent) = true
  · rw [if_pos hfull, if_pos hfull]
    exact ⟨h, rfl⟩
  · rw [if_neg hfull, if_neg hfull, hlength]
    simp only [Bool.or_eq_true, decide_eq_true_eq, not_or, ge_iff_le, not_le] at hfull
    exact ⟨represents_grant h hn (hactive ▸ hfull.1) (h.total ▸ hfull.2), rfl⟩

theorem represents_release {k : ℕ} (h : Represents now l a) : Represents now (l.release now k) (a.release k) := by
  have hinv : (l.release now k).Inv := Limiter.inv_release h.inv
  have hleases : a.leases[k]? = l.closures[k]?.map fun c => (c.userId, c.released) := by
    rw [← h.leases, List.getElem?_map]
  unfold Limiter.release at hinv ⊢
  unfold Ledger.release
  cases hk : l.closures[k]? with
  | none =>
    rw [hk] at hleases
    rw [hleases]
    exact h
  | some c =>
    rw [hk] at hleases hinv
    rw [hleases]
    dsimp only [Option.map_some] at hinv ⊢
    split_ifs at hinv ⊢ with hreleased
    · exact h
    have hheld : c.held = true := by
      unfold Closure.held
      rw [Bool.not_eq_true] at hreleased
      rw [hreleased]
      rfl
    have hmem := h.inv.kept c (List.mem_of_getElem? hk) hheld
    have hn := (lookup_eq_some_iff h.inv.tables).mpr hmem
    let b : Bucket := { l.service.buckets c.bucket with
      active := (l.service.buckets c.bucket).active - 1
      seenAt := max (l.service.buckets c.bucket).seenAt now }
    refine ⟨hinv, ?_, fun store key t ht => ?_, fun other => ?_, ?_, ?_⟩
    · have hseen := h.sound.seen .chunk _ hmem
      exact sound_congr (sound_set (n := c.bucket) (b := b) h.sound (h.sound.tokens .chunk _ hmem)
        ((h.sound.refilled .chunk _ hmem).trans (le_max_left _ _)) (max_le hseen le_rfl)) rfl rfl
    · exact (levelOf_leases (b := b) h.inv.tables h.sound hn rfl store key t).trans (h.levels store key t ht)
    · refine (activeOf_update h.inv.tables h.sound hn other).trans ?_
      dsimp only
      rw [Function.update_apply, ← h.active other, ← h.active c.userId]
      split_ifs
      · rw [activeOf, hn, Option.elim_some]
      · rfl
    · exact congrArg (· - 1) h.total
    · dsimp only
      rw [List.map_set, h.leases]

/-! ## A call -/

/-- **A call in the service and in the ledger** has the same reply. -/
theorem represents_call {c : Call} (h : Represents now l a) (hroom : Roomy u l.service now c) :
    Represents now (call u l now c).1 (a.call now c).1 ∧ (call u l now c).2 = (a.call now c).2 := by
  cases c with
  | release k => exact ⟨represents_release h, rfl⟩
  | admitIp key kind =>
    obtain ⟨hnext, n, -, hresult⟩ := represents_take (u := u) h (hroom _ _ rfl)
    unfold call Ledger.call
    dsimp only
    rw [hresult]
    cases hledger : (a.take now kind.admission key).2 with
    | error e => exact ⟨hnext, rfl⟩
    | ok => exact ⟨hnext, rfl⟩
  | enter userId kind =>
    unfold call Ledger.call
    dsimp only
    by_cases hvalid : validUser userId = true
    · rw [if_pos hvalid, if_pos hvalid]
      obtain ⟨hnext, n, hlookup, hresult⟩ := represents_take (u := u) h (hroom kind.store (.user userId.toNat) (if_pos hvalid))
      rw [hresult]
      cases hledger : (a.take now kind.store (.user userId.toNat)).2 with
      | error e => exact ⟨hnext, rfl⟩
      | ok =>
        obtain ⟨hentered, hreply⟩ := represents_entered kind hnext hlookup
        exact ⟨hentered, congrArg (Reply.mk true) hreply⟩
    · rw [if_neg hvalid, if_neg hvalid]
      exact ⟨h, rfl⟩

/-! ## Runs -/

theorem fits_append {calls calls' : List (ℕ × Call)} :
    Fits u l (calls ++ calls') ↔ Fits u l calls ∧ Fits u (after u l calls) calls' := by
  induction calls generalizing l with
  | nil => exact ⟨fun h => ⟨trivial, h⟩, And.right⟩
  | cons c calls ih =>
    obtain ⟨now, c⟩ := c
    exact (and_congr_right fun _ => ih).trans and_assoc.symm

/-- There is always room where nothing is bounded. -/
theorem fits_hoarding {calls : List (ℕ × Call)} : Fits hoarding l calls := by
  induction calls generalizing l with
  | nil => exact trivial
  | cons c calls ih => exact ⟨fun _ _ _ => .inr rfl, ih⟩

/-- **The ledger of a service is kept by a run.** -/
theorem represents_after {calls : List (ℕ × Call)} {t : ℕ} (h : Represents now l a)
    (hclock : (now :: calls.map Prod.fst).Pairwise (· ≤ ·)) (ht : ∀ x ∈ now :: calls.map Prod.fst, x ≤ t)
    (hfits : Fits u l calls) : Represents t (after u l calls) (a.after calls) := by
  induction calls generalizing now l a with
  | nil => exact h.later (ht now List.mem_cons_self)
  | cons c calls ih =>
    obtain ⟨now', c⟩ := c
    rw [List.map_cons] at hclock ht
    have hnow := h.later (List.rel_of_pairwise_cons hclock List.mem_cons_self)
    exact ih (represents_call hnow hfits.1).1 (List.Pairwise.of_cons hclock)
      (fun x hx => ht x (List.mem_cons_of_mem now hx)) hfits.2

/-- **The replies of a service are those of its ledger.** -/
theorem trace_eq {calls : List (ℕ × Call)} (h : Represents now l a)
    (hclock : (now :: calls.map Prod.fst).Pairwise (· ≤ ·)) (hfits : Fits u l calls) :
    trace u l calls = a.trace calls := by
  induction calls generalizing now l a with
  | nil => rfl
  | cons c calls ih =>
    obtain ⟨now', c⟩ := c
    rw [List.map_cons] at hclock
    obtain ⟨hnext, hreply⟩ := represents_call (h.later (List.rel_of_pairwise_cons hclock List.mem_cons_self)) hfits.1
    unfold trace Ledger.trace
    rw [hreply, ih hnext (List.Pairwise.of_cons hclock) hfits.2]

/-! ## The buckets of the ledger -/

namespace Ledger

theorem set_buckets (b : Tokens.Bucket ℚ) (store' : Store) (key' : Key) : (a.set store key b).buckets store' key' =
    if store' = store ∧ key' = key then b else a.buckets store' key' := by
  unfold set
  dsimp only
  by_cases hstore : store' = store
  · subst hstore
    rw [Function.update_self, Function.update_apply]
    simp
  · rw [Function.update_of_ne hstore, if_neg fun h => hstore h.1]

/-- **What a call does to the buckets**: it takes from its own. -/
theorem call_buckets (a : Ledger) (now : ℕ) (c : Call) : match c.bucket with
    | none => (a.call now c).1.buckets = a.buckets
    | some (store, key) =>
      (a.call now c).1.buckets = (a.set store key ((rule store).take (a.buckets store key) now).1).buckets ∧
        (a.call now c).2.admitted = ((rule store).take (a.buckets store key) now).2 := by
  cases c with
  | release k =>
    change (a.release k).buckets = a.buckets
    unfold release
    cases a.leases[k]? with
    | none => rfl
    | some lease =>
      dsimp only
      split_ifs <;> rfl
  | admitIp key kind =>
    dsimp only [Call.bucket, call, take]
    cases ((rule kind.admission).take (a.buckets kind.admission key) now).2 <;> exact ⟨rfl, rfl⟩
  | enter userId kind =>
    dsimp only [Call.bucket, call, take]
    by_cases hvalid : validUser userId = true
    · rw [if_pos hvalid, if_pos hvalid]
      dsimp only
      cases ((rule kind.store).take (a.buckets kind.store (.user userId.toNat)) now).2 with
      | false => exact ⟨rfl, rfl⟩
      | true =>
        rw [if_pos rfl]
        unfold entered
        split_ifs <;> exact ⟨rfl, rfl⟩
    · rw [if_neg hvalid, if_neg hvalid]

theorem call_other {c : Call} (h : c.bucket ≠ some (store, key)) :
    (a.call now c).1.buckets store key = a.buckets store key := by
  have hcall := a.call_buckets now c
  cases hbucket : c.bucket with
  | none =>
    rw [hbucket] at hcall
    rw [hcall]
  | some x =>
    obtain ⟨store', key'⟩ := x
    rw [hbucket] at hcall h
    rw [hcall.1, set_buckets, if_neg]
    rintro ⟨rfl, rfl⟩
    exact h rfl

theorem call_own {c : Call} (h : c.bucket = some (store, key)) :
    (a.call now c).1.buckets store key = ((rule store).take (a.buckets store key) now).1 ∧
      (a.call now c).2.admitted = ((rule store).take (a.buckets store key) now).2 := by
  have hcall := a.call_buckets now c
  rw [h] at hcall
  exact ⟨by rw [hcall.1, set_buckets, if_pos ⟨rfl, rfl⟩], hcall.2⟩

theorem after_other {calls : List (ℕ × Call)} (h : ∀ x ∈ calls, x.2.bucket ≠ some (store, key)) :
    (a.after calls).buckets store key = a.buckets store key := by
  induction calls generalizing a with
  | nil => rfl
  | cons c calls ih =>
    have hrest := ih (a := (a.call c.1 c.2).1) fun x hx => h x (List.mem_cons_of_mem c hx)
    exact hrest.trans (call_other (h c List.mem_cons_self))

/-- **The admissions of a key are those of its bucket.** -/
theorem admissions_eq (store : Store) (key : Key) (t₁ t₂ : ℕ) (calls : List (ℕ × Call)) (a : Ledger) :
    admissions store key t₁ t₂ (a.trace calls) = (rule store).admissions t₁ t₂ (a.buckets store key)
      ((calls.filter fun x => x.2.bucket = some (store, key)).map fun x => (x.1 : ℚ)) := by
  induction calls generalizing a with
  | nil => rfl
  | cons c calls ih =>
    obtain ⟨now, c⟩ := c
    unfold trace admissions
    rw [List.countP_cons]
    have hrest := ih (a.call now c).1
    unfold admissions at hrest
    rw [hrest]
    by_cases hbucket : c.bucket = some (store, key)
    · rw [List.filter_cons_of_pos (by simpa using hbucket), List.map_cons]
      obtain ⟨hnext, hadmitted⟩ : (a.call now c).1.buckets store key = _ ∧ (a.call now c).2.admitted = _ := call_own hbucket
      unfold admittedIn
      dsimp only
      rw [Tokens.Rule.admissions_cons, hnext, hadmitted, decide_eq_true hbucket, Bool.true_and, Nat.add_comm]
      simp only [Nat.cast_le]
    · rw [List.filter_cons_of_neg (by simpa using hbucket), call_other hbucket]
      unfold admittedIn
      rw [decide_eq_false hbucket]
      rfl

/-- What a bucket lacks is earned until the caller is to come back. -/
theorem take_refused {seconds : ℕ} (h : (a.take now store key).2 = .error (.throttled seconds)) :
    1 ≤ ((rule store).take (a.buckets store key) now).1.tokens + ((1000 * seconds : ℕ) : ℚ) * (rule store).rate := by
  have hrate := rule_rate store
  have hpolicy : 0 < store.policy.rate := by
    cases store <;> norm_num [Store.policy]
  unfold take at h
  dsimp only at h
  unfold Tokens.Rule.take at h ⊢
  by_cases hlt : (rule store).level (a.buckets store key) now < 1
  · rw [if_pos hlt] at h ⊢
    have hseconds : retryAfter store.policy ((rule store).level (a.buckets store key) now) = seconds :=
      Refusal.throttled.inj (Except.error.inj h)
    have hceil : (1 - (rule store).level (a.buckets store key) now) / store.policy.rate ≤ seconds :=
      (Nat.le_ceil _).trans (Nat.cast_le.mpr ((le_max_right _ _).trans hseconds.le))
    rw [div_le_iff₀ hpolicy] at hceil
    have hearned : ((1000 * seconds : ℕ) : ℚ) * (rule store).rate = seconds * store.policy.rate := by
      unfold rule
      push_cast
      ring
    dsimp only
    linarith
  · rw [if_neg hlt] at h
    cases h

/-- **A refused caller has a token again** after the time it is told. -/
theorem refused_tokens {c : Call} {seconds : ℕ} (hbucket : c.bucket = some (store, key))
    (hrefused : (a.call now c).2.result = .error (.throttled seconds)) :
    1 ≤ ((rule store).take (a.buckets store key) now).1.tokens + ((1000 * seconds : ℕ) : ℚ) * (rule store).rate := by
  cases c with
  | release k => cases hbucket
  | admitIp key' kind =>
    obtain ⟨rfl, rfl⟩ := Prod.mk.inj (Option.some.inj hbucket)
    unfold call at hrefused
    dsimp only at hrefused
    cases htake : (a.take now kind.admission key').2 with
    | error e =>
      rw [htake] at hrefused
      exact take_refused (htake.trans (congrArg _ (Except.error.inj hrefused)))
    | ok =>
      rw [htake] at hrefused
      cases hrefused
  | enter userId kind =>
    dsimp only [Call.bucket] at hbucket
    split_ifs at hbucket with hvalid
    obtain ⟨rfl, rfl⟩ := Prod.mk.inj (Option.some.inj hbucket)
    unfold call at hrefused
    dsimp only at hrefused
    rw [if_pos hvalid] at hrefused
    cases htake : (a.take now kind.store (.user userId.toNat)).2 with
    | error e =>
      rw [htake] at hrefused
      exact take_refused (htake.trans (congrArg _ (Except.error.inj hrefused)))
    | ok =>
      -- The token is there, but there are too many leases.
      rw [htake] at hrefused
      dsimp only at hrefused
      unfold entered at hrefused
      split_ifs at hrefused with habort hfull
      have hseconds : 1 = seconds := Refusal.throttled.inj (Except.error.inj hrefused)
      have hkind : kind = .chunk := by
        cases kind with
        | chunk => rfl
        | abort => exact absurd rfl habort
      subst hkind hseconds
      have hnonneg : 0 ≤ ((rule .chunk).take (a.buckets .chunk (.user userId.toNat)) now).1.tokens := by
        unfold take at htake
        dsimp only at htake
        unfold Tokens.Rule.take at htake ⊢
        by_cases hlt : (rule .chunk).level (a.buckets .chunk (.user userId.toNat)) now < 1
        · rw [show UploadRequestKind.chunk.store = .chunk from rfl, if_pos hlt] at htake
          cases htake
        · rw [if_neg hlt]
          exact sub_nonneg.mpr (not_lt.mp hlt)
      have hearned : ((1000 * 1 : ℕ) : ℚ) * (rule .chunk).rate = 25 := by norm_num [rule, Store.policy]
      rw [show UploadRequestKind.chunk.store = .chunk from rfl, hearned]
      linarith

end Ledger

/-! ## The three guarantees -/

/-- **The rate.** -/
theorem admissions_le {calls : List (ℕ × Call)} (hclock : (calls.map Prod.fst).Pairwise (· ≤ ·)) (store : Store) (key : Key)
    {t₁ t₂ : ℕ} (ht : t₁ ≤ t₂) : (admissions store key t₁ t₂ (Ledger.initial.trace calls) : ℚ) ≤
      store.policy.burst + store.policy.rate * ((t₂ - t₁) / 1000) := by
  let times := (calls.filter fun x => x.2.bucket = some (store, key)).map fun x => (x.1 : ℚ)
  have htimes : ((Ledger.initial.buckets store key).since :: times).Pairwise (· ≤ ·) := by
    refine List.pairwise_cons.mpr ⟨fun t hmem => ?_, ?_⟩
    · obtain ⟨x, -, rfl⟩ := List.mem_map.mp hmem
      exact Nat.cast_nonneg x.1
    · have hsorted := (List.pairwise_map.mp hclock).filter fun x => x.2.bucket = some (store, key)
      exact List.pairwise_map.mpr (hsorted.imp fun h => Nat.cast_le.mpr h)
  have hbound := Tokens.Rule.admissions_le (rule_rate store).le (zero_le_one.trans (one_le_burst store))
    (zero_le_one.trans (one_le_burst store)) htimes (Nat.cast_le.mpr ht)
  rw [Ledger.admissions_eq]
  refine hbound.trans (le_of_eq ?_)
  unfold rule
  ring

/-- **The time to come back.** -/
theorem admitted_again {between : List (ℕ × Call)} {a : Ledger} {now now' seconds : ℕ} {c c' : Call} {store : Store}
    {key : Key} (hbucket : c.bucket = some (store, key)) (hbucket' : c'.bucket = some (store, key))
    (hbetween : ∀ x ∈ between, x.2.bucket ≠ some (store, key))
    (hrefused : (a.call now c).2.result = .error (.throttled seconds)) (hlate : now + 1000 * seconds ≤ now') :
    (((a.call now c).1.after between).call now' c').2.admitted = true := by
  have hnow : (now : ℚ) + ((1000 * seconds : ℕ) : ℚ) ≤ now' := by exact_mod_cast hlate
  have hlevel : 1 ≤ (rule store).level ((rule store).take (a.buckets store key) now).1 now' := by
    refine Tokens.Rule.one_le_level (rule_rate store).le (one_le_burst store) (Ledger.refused_tokens hbucket hrefused) ?_
    rw [Tokens.Rule.take_since]
    exact hnow
  rw [(Ledger.call_own hbucket').2, Ledger.after_other hbetween, (Ledger.call_own hbucket).1]
  generalize (rule store).take (a.buckets store key) now = x at hlevel
  unfold Tokens.Rule.take
  rw [if_neg (not_lt.mpr hlevel)]

/-- **The upload token bucket**: in any window a key is admitted at most `burst + rate * length` times, nobody sees that
idle buckets are dropped, and a refused caller that comes back in time is admitted by its bucket. -/
theorem token_bucket (calls : List (ℕ × Call)) (hclock : (calls.map Prod.fst).Pairwise (· ≤ ·))
    (hfits : Fits service start calls) :
    (∀ store key t₁ t₂, t₁ ≤ t₂ → (admissions store key t₁ t₂ (trace service start calls) : ℚ) ≤
      store.policy.burst + store.policy.rate * ((t₂ - t₁) / 1000)) ∧
    trace service start calls = trace hoarding start calls ∧
    ∀ before between rest now now' c c' store key seconds,
      calls = before ++ (now, c) :: (between ++ (now', c') :: rest) →
      c.bucket = some (store, key) → c'.bucket = some (store, key) →
      (∀ x ∈ between, x.2.bucket ≠ some (store, key)) →
      (call service (after service start before) now c).2.result = .error (.throttled seconds) →
      now + 1000 * seconds ≤ now' →
      (call service (after service start (before ++ (now, c) :: between)) now' c').2.admitted = true := by
  have hstart : (0 :: calls.map Prod.fst).Pairwise (· ≤ ·) := List.pairwise_cons.mpr ⟨fun _ _ => Nat.zero_le _, hclock⟩
  refine ⟨fun store key t₁ t₂ ht => ?_, ?_, ?_⟩
  · rw [trace_eq represents_initial hstart hfits]
    exact admissions_le hclock store key ht
  · exact (trace_eq represents_initial hstart hfits).trans (trace_eq represents_initial hstart fits_hoarding).symm
  · rintro before between rest now now' c c' store key seconds rfl hbucket hbucket' hbetween hrefused hlate
    have hsplit := List.pairwise_append.mp (by simpa using hclock : (before.map Prod.fst ++
      now :: (between.map Prod.fst ++ now' :: rest.map Prod.fst)).Pairwise (· ≤ ·))
    have hlater := List.pairwise_cons.mp hsplit.2.1
    have hsplit' := List.pairwise_append.mp hlater.2
    obtain ⟨hbefore, hroom, hfits⟩ := fits_append.mp hfits
    obtain ⟨hfits, hroom', -⟩ := fits_append.mp hfits
    have hfirst : ∀ x ∈ 0 :: before.map Prod.fst, x ≤ now := by
      intro x hx
      rcases List.mem_cons.mp hx with rfl | hx
      · exact Nat.zero_le now
      · exact hsplit.2.2 x hx now List.mem_cons_self
    have hsecond : ∀ x ∈ now :: between.map Prod.fst, x ≤ now' := by
      intro x hx
      rcases List.mem_cons.mp hx with rfl | hx
      · exact hlater.1 now' (List.mem_append_right _ List.mem_cons_self)
      · exact hsplit'.2.2 x hx now' List.mem_cons_self
    have hthere := represents_after represents_initial
      (List.pairwise_cons.mpr ⟨fun _ _ => Nat.zero_le _, hsplit.1⟩) hfirst hbefore
    obtain ⟨hcalled, hreply⟩ := represents_call hthere hroom
    have hreturn := represents_after hcalled (List.pairwise_cons.mpr
      ⟨fun x hx => hlater.1 x (List.mem_append_left _ hx), hsplit'.1⟩) hsecond hfits
    rw [hreply] at hrefused
    have hafter : after service start (before ++ (now, c) :: between) =
        after service (call service (after service start before) now c).1 between := List.foldl_append
    rw [hafter, (represents_call hreturn hroom').2]
    exact admitted_again hbucket hbucket' hbetween hrefused hlate

/-- A user who comes back when its bucket has been dropped. -/
def visits : List (ℕ × Call) :=
  [(0, .admitIp (.ip "::1") .chunk), (0, .enter 7 .chunk), (10, .release 0), (400000, .enter 7 .chunk)]

theorem token_bucket_of_visits : trace service start visits = trace hoarding start visits := by
  refine (token_bucket visits (by decide) ⟨?_, ?_, ?_, ?_, trivial⟩).2.1
  · intro store key h
    cases h
    exact .inr rfl
  · intro store key h
    cases h
    exact .inr (by decide +kernel)
  · intro store key h
    cases h
  · intro store key h
    cases h
    exact .inr (by decide +kernel)

end

end TokenBucket

end HomeCloud
