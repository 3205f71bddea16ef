import HomeCloud.Client.WholeSha256
import HomeCloud.Javascript.Double
import Mathlib.Data.List.Basic

/-!
# Leases for the transfer of chunks

A request for a chunk takes a token of its user and then a lease, which bounds the requests at a time.
The entries of users that have been idle are dropped on the side.

* `UploadRateLimitService`: the maps of the service, whose values are objects that releases refer to.
* `take`, `enter`, `Limiter.release`: its operations.
* `Request`, `Interceptor.next`: the requests, and what releases their leases.
* `Limiter.Inv`, `Interceptor.Inv`: the invariants, with a lemma for each step.
* **`leases_balance`**: the counters are those of the leases that are held.
-/

namespace HomeCloud

namespace RateLimit

open WholeSha256

/-! ## The service -/

structure Policy where
  rate : ℚ
  burst : ℕ

def maxPerUserConcurrent : ℕ := 4
def maxConcurrent : ℕ := 32
def maxKeys : ℕ := 10000
def idleMs : ℕ := 300000

inductive UploadRequestKind where
  | chunk
  | abort
  deriving DecidableEq

/-- The maps of the service. -/
inductive Store where
  | chunk
  | abort
  | admission
  | admissionAbort
  deriving DecidableEq

def Store.policy : Store → Policy
  | .chunk => ⟨25, 50⟩
  | .abort => ⟨1 / 2, 10⟩
  | .admission => ⟨100, 100⟩
  | .admissionAbort => ⟨10, 20⟩

def UploadRequestKind.store : UploadRequestKind → Store
  | .chunk => .chunk
  | .abort => .abort

def UploadRequestKind.admission : UploadRequestKind → Store
  | .chunk => .admission
  | .abort => .admissionAbort

/-- A key: the text of a user's number, an address, or `share:` and a digest. -/
inductive Key where
  | user (id : ℕ)
  | ip (address : String)
  | share (digest : String)
  deriving DecidableEq

structure Bucket where
  tokens : ℚ
  refillAt : ℕ
  seenAt : ℕ
  active : ℤ

/-- The objects that have been made, and the maps in the order of their entries. -/
structure UploadRateLimitService where
  buckets : ℕ → Bucket
  made : ℕ
  entries : Store → List (Key × ℕ)
  lastSweep : ℕ
  active : ℤ

def UploadRateLimitService.initial : UploadRateLimitService where
  buckets := fun _ => ⟨0, 0, 0, 0⟩
  made := 0
  entries := fun _ => []
  lastSweep := 0
  active := 0

inductive Refusal where
  | unauthorized
  | throttled (retryAfter : ℕ)
  deriving DecidableEq

namespace UploadRateLimitService

variable (s : UploadRateLimitService) (now : ℕ)

/-- Drops the entries that have been idle, once a second at most. -/
def sweep : UploadRateLimitService :=
  if s.lastSweep + 1000 ≤ now then
    { s with
      entries := fun store => (s.entries store).filter fun e =>
        !((s.buckets e.2).active = 0 && (s.buckets e.2).seenAt + idleMs ≤ now)
      lastSweep := now }
  else s

def set (n : ℕ) (b : Bucket) : UploadRateLimitService :=
  { s with buckets := Function.update s.buckets n b }

/-- An entry for a new key. -/
def create (store : Store) (key : Key) : UploadRateLimitService :=
  { s with
    buckets := Function.update s.buckets s.made ⟨store.policy.burst, now, now, 0⟩
    made := s.made + 1
    entries := Function.update s.entries store (s.entries store ++ [(key, s.made)]) }

def lookup (store : Store) (key : Key) : Option ℕ :=
  ((s.entries store).find? fun e => e.1 = key).map (·.2)

/-- The tokens of the time that has passed. -/
def refill (policy : Policy) (b : Bucket) : Bucket :=
  let elapsed := now - b.refillAt
  let earned := Javascript.toDouble (Javascript.toDouble (elapsed * policy.rate) / 1000)
  { b with
    tokens := min policy.burst (Javascript.toDouble (b.tokens + earned))
    refillAt := max now b.refillAt
    seenAt := max now b.seenAt }

/-- Takes a token from the bucket `n`. -/
def spend (store : Store) (n : ℕ) : UploadRateLimitService × Except Refusal ℕ :=
  let b := refill now store.policy (s.buckets n)
  if b.tokens < 1 then
    (s.set n b, .error (.throttled (max 1 ⌈Javascript.toDouble ((1 - b.tokens) / store.policy.rate)⌉₊)))
  else (s.set n { b with tokens := b.tokens - 1 }, .ok n)

def take (store : Store) (key : Key) : UploadRateLimitService × Except Refusal ℕ :=
  let s := s.sweep now
  match s.lookup store key with
  | some n => s.spend now store n
  | none =>
    if (s.entries store).length ≥ maxKeys then (s, .error (.throttled 60))
    else (s.create now store key).spend now store s.made

end UploadRateLimitService

/-- A release that `enter` has returned; `releases` counts how often it has given its lease back. -/
structure Closure where
  userId : ℕ
  bucket : ℕ
  released : Bool
  releases : ℕ

/-- The service and the releases that are about. -/
structure Limiter where
  service : UploadRateLimitService
  closures : List Closure

namespace Limiter

variable (l : Limiter) (now : ℕ)

def admitIp (key : Key) (kind : UploadRequestKind) : Limiter :=
  { l with service := (l.service.take now kind.admission key).1 }

/-- Another lease of the bucket `n`. -/
def grant (userId n : ℕ) : Limiter :=
  let b := l.service.buckets n
  { service := { l.service.set n { b with active := b.active + 1 } with active := l.service.active + 1 }
    closures := l.closures ++ [⟨userId, n, false, 0⟩] }

/-- `enter`, once a token of the bucket `n` is taken. -/
def entered (userId : ℕ) (kind : UploadRequestKind) (n : ℕ) : Limiter × Except Refusal (Option ℕ) :=
  if kind = .abort then (l, .ok none)
  else if (l.service.buckets n).active ≥ maxPerUserConcurrent || l.service.active ≥ maxConcurrent then
    (l, .error (.throttled 1))
  else (l.grant userId n, .ok (some l.closures.length))

/-- The lease that is granted, none to a request to abort. -/
def enter (userId : ℤ) (kind : UploadRequestKind) : Limiter × Except Refusal (Option ℕ) :=
  if !isSafeInteger userId.toNat || userId ≤ 0 then (l, .error .unauthorized)
  else
    let x := l.service.take now kind.store (.user userId.toNat)
    match x.2 with
    | .error e => ({ l with service := x.1 }, .error e)
    | .ok n => entered { l with service := x.1 } userId.toNat kind n

/-- The release with the number `k` is called. -/
def release (k : ℕ) : Limiter :=
  match l.closures[k]? with
  | none => l
  | some c =>
    if c.released then l
    else
      let b := l.service.buckets c.bucket
      { service := { l.service.set c.bucket { b with
            active := b.active - 1
            seenAt := max b.seenAt now } with active := l.service.active - 1 }
        closures := l.closures.set k { c with released := true, releases := c.releases + 1 } }

end Limiter

/-! ## The requests -/

inductive LeasePhase where
  | ingress
  | processing
  deriving DecidableEq

/-- A lease of a request; the release of a request to abort does nothing. -/
structure Lease where
  phase : LeasePhase
  released : Bool
  release : Option ℕ

inductive Stage where
  | arrived
  | refused
  | handling
  | settled
  deriving DecidableEq

/-- A request, and which of its events the interceptor listens to. -/
structure Request where
  userId : ℤ
  kind : UploadRequestKind
  aborted : Bool
  lease : Option Lease
  onAborted : Bool
  onClose : Bool
  stage : Stage

/-- What happens to requests, and to the maps on the side. -/
inductive Move where
  | arrive (userId : ℤ) (kind : UploadRequestKind)
  | intercept (k : ℕ)
  | aborted (k : ℕ)
  | close (k : ℕ)
  | process (k : ℕ)
  | settle (k : ℕ)
  | release (n : ℕ)
  | admitIp (key : Key) (kind : UploadRequestKind)

structure Interceptor where
  limiter : Limiter
  requests : List Request

namespace Interceptor

def initial : Interceptor := ⟨⟨.initial, []⟩, []⟩

variable (s : Interceptor) (now : ℕ)

def set (k : ℕ) (r : Request) : Interceptor := { s with requests := s.requests.set k r }

/-- `lease.release` of the request `r` with the number `k`. -/
def releaseLease (k : ℕ) (r : Request) : Interceptor :=
  match r.lease with
  | none => s.set k r
  | some lease =>
    if lease.released then s.set k r
    else
      { limiter := lease.release.elim s.limiter fun n => s.limiter.release now n
        requests := s.requests.set k { r with lease := some { lease with released := true } } }

/-- `disconnected`. -/
def disconnected (k : ℕ) (r : Request) : Interceptor :=
  if r.lease.any (·.phase = .ingress) then s.releaseLease now k r else s.set k r

/-- `intercept`, up to the handler. -/
def intercept (k : ℕ) (r : Request) : Interceptor :=
  match s.limiter.enter now r.userId r.kind with
  | (l, .error _) => { limiter := l, requests := s.requests.set k { r with stage := .refused } }
  | (l, .ok release) =>
    { limiter := l
      requests := s.requests.set k { r with
        lease := some ⟨.ingress, false, release⟩
        onAborted := true
        onClose := true
        stage := .handling } }

/-- `markUploadProcessing`, which throws when the request is cancelled. -/
def markUploadProcessing (k : ℕ) (r : Request) : Interceptor :=
  match r.lease with
  | none => s
  | some lease =>
    if r.aborted || lease.released then s
    else s.set k { r with lease := some { lease with phase := .processing } }

/-- What happens at a time: a request arrives once and settles once, and a release may be called again. -/
def next (s : Interceptor) (now : ℕ) : Move → Option Interceptor
  | .arrive userId kind =>
    some { s with requests := s.requests ++ [⟨userId, kind, false, none, false, false, .arrived⟩] }
  | .intercept k => do
    let r ← s.requests[k]?
    guard (r.stage = .arrived)
    return s.intercept now k r
  | .aborted k => do
    let r ← s.requests[k]?
    let r' := { r with aborted := true, onAborted := false }
    return if r.onAborted then s.disconnected now k r' else s.set k r'
  | .close k => do
    let r ← s.requests[k]?
    let r' := { r with onClose := false }
    return if r.onClose then s.disconnected now k r' else s.set k r'
  | .process k => do
    let r ← s.requests[k]?
    return s.markUploadProcessing k r
  | .settle k => do
    let r ← s.requests[k]?
    guard (r.stage = .handling)
    return s.releaseLease now k { r with onAborted := false, onClose := false, stage := .settled }
  | .release n => do
    let c ← s.limiter.closures[n]?
    guard c.released
    return { s with limiter := s.limiter.release now n }
  | .admitIp key kind => some { s with limiter := s.limiter.admitIp now key kind }

end Interceptor

/-- The states that are reached, at any times. -/
inductive Reached : Interceptor → Prop where
  | initial : Reached .initial
  | step {s s' : Interceptor} (now : ℕ) (m : Move) : Reached s → s.next now m = some s' → Reached s'

/-! ## The invariant of the service -/

namespace UploadRateLimitService

variable {s s' s'' : UploadRateLimitService} {now : ℕ} {store : Store} {key : Key}

/-- Every map has one entry for a key, and one for an object that has been made. -/
structure Tables (s : UploadRateLimitService) : Prop where
  made : ∀ store, ∀ e ∈ s.entries store, e.2 < s.made
  keys : ∀ store, ((s.entries store).map (·.1)).Nodup
  objects : ∀ store, ((s.entries store).map (·.2)).Nodup

/-- No counter changes, and no entry with a lease is dropped. -/
structure Serves (s s' : UploadRateLimitService) : Prop where
  active : s'.active = s.active
  counters : ∀ n, (s'.buckets n).active = (s.buckets n).active
  made : s.made ≤ s'.made
  entries : ∀ store, ∀ e ∈ s.entries store, (s.buckets e.2).active ≠ 0 → e ∈ s'.entries store

theorem Serves.trans (h : s.Serves s') (h' : s'.Serves s'') : s.Serves s'' where
  active := h'.active.trans h.active
  counters n := (h'.counters n).trans (h.counters n)
  made := h.made.trans h'.made
  entries store e he hn := h'.entries store e (h.entries store e he hn) ((h.counters e.2).symm ▸ hn)

theorem sweep_made : (s.sweep now).made = s.made := by
  unfold sweep
  split_ifs <;> rfl

theorem sweep_buckets : (s.sweep now).buckets = s.buckets := by
  unfold sweep
  split_ifs <;> rfl

theorem tables_sweep (h : s.Tables) : (s.sweep now).Tables := by
  unfold sweep
  split_ifs
  · exact
      { made := fun store e he => h.made store e (List.mem_of_mem_filter he)
        keys := fun store => (h.keys store).sublist (List.filter_sublist.map _)
        objects := fun store => (h.objects store).sublist (List.filter_sublist.map _) }
  · exact h

/-- **An entry with a lease is not dropped.** -/
theorem serves_sweep : s.Serves (s.sweep now) := by
  unfold sweep
  split_ifs
  · refine ⟨rfl, fun _ => rfl, le_rfl, fun store e he hn => List.mem_filter.mpr ⟨he, ?_⟩⟩
    simp [hn]
  · exact ⟨rfl, fun _ => rfl, le_rfl, fun _ _ he _ => he⟩

theorem tables_set {n : ℕ} {b : Bucket} (h : s.Tables) : (s.set n b).Tables := ⟨h.made, h.keys, h.objects⟩

theorem serves_set {n : ℕ} {b : Bucket} (h : b.active = (s.buckets n).active) : s.Serves (s.set n b) where
  active := rfl
  counters m := by
    unfold set
    dsimp only
    rw [Function.update_apply]
    split_ifs with hm
    · rw [hm]
      exact h
    · rfl
  made := le_rfl
  entries _ _ he _ := he

theorem lookup_mem {n : ℕ} (h : s.lookup store key = some n) : (key, n) ∈ s.entries store := by
  obtain ⟨e, he, rfl⟩ := Option.map_eq_some_iff.mp h
  have hkey := List.find?_some he
  rw [← of_decide_eq_true hkey]
  exact List.mem_of_find?_eq_some he

theorem lookup_none (h : s.lookup store key = none) : key ∉ (s.entries store).map (·.1) := by
  intro hmem
  obtain ⟨e, he, hkey⟩ := List.mem_map.mp hmem
  have hnone := List.find?_eq_none.mp (Option.map_eq_none_iff.mp h) e he
  exact hnone (decide_eq_true hkey)

theorem tables_create (h : s.Tables) (hnew : s.lookup store key = none) : (s.create now store key).Tables := by
  have hentries : ∀ other, (s.create now store key).entries other =
      if other = store then s.entries store ++ [(key, s.made)] else s.entries other := by
    intro other
    unfold create
    dsimp only
    rw [Function.update_apply]
  refine ⟨fun other e he => ?_, fun other => ?_, fun other => ?_⟩
  · rw [hentries] at he
    have hlt : e.2 < s.made + 1 := by
      split_ifs at he with ho
      · rcases List.mem_append.mp he with hold | hadd
        · exact (h.made store e hold).trans (Nat.lt_succ_self _)
        · rw [List.mem_singleton.mp hadd]
          exact Nat.lt_succ_self _
      · exact (h.made other e he).trans (Nat.lt_succ_self _)
    exact hlt
  · rw [hentries]
    split_ifs
    · rw [List.map_append, List.map_singleton]
      exact (h.keys store).append (List.nodup_singleton _) (by simpa using lookup_none hnew)
    · exact h.keys other
  · rw [hentries]
    split_ifs
    · rw [List.map_append, List.map_singleton]
      refine (h.objects store).append (List.nodup_singleton _) ?_
      rw [List.disjoint_singleton]
      intro hmem
      obtain ⟨e, he, hmade⟩ := List.mem_map.mp hmem
      exact absurd (h.made store e he) (by omega)
    · exact h.objects other

theorem serves_create (hzero : (s.buckets s.made).active = 0) : s.Serves (s.create now store key) where
  active := rfl
  counters n := by
    unfold create
    dsimp only
    rw [Function.update_apply]
    split_ifs with hn
    · rw [hn, hzero]
    · rfl
  made := Nat.le_succ _
  entries other e he _ := by
    unfold create
    dsimp only
    rw [Function.update_apply]
    split_ifs with ho
    · rw [ho] at he
      exact List.mem_append_left _ he
    · exact he

theorem tables_spend {n : ℕ} (h : s.Tables) : (s.spend now store n).1.Tables := by
  unfold spend
  dsimp only
  split_ifs <;> exact tables_set h

theorem serves_spend {n : ℕ} : s.Serves (s.spend now store n).1 := by
  unfold spend
  dsimp only
  split_ifs <;> exact serves_set rfl

theorem spend_entries {n : ℕ} : (s.spend now store n).1.entries = s.entries := by
  unfold spend
  dsimp only
  split_ifs <;> rfl

theorem spend_ok {n m : ℕ} (h : (s.spend now store n).2 = .ok m) : m = n := by
  unfold spend at h
  dsimp only at h
  split_ifs at h
  exact (Except.ok.inj h).symm

/-- **What `take` does to the service**, and where the bucket is that it returns. -/
theorem take_ok (s : UploadRateLimitService) (now : ℕ) (store : Store) (key : Key) (h : s.Tables) (hzero : (s.buckets s.made).active = 0) :
    (s.take now store key).1.Tables ∧ s.Serves (s.take now store key).1 ∧
      ∀ n, (s.take now store key).2 = .ok n → (key, n) ∈ (s.take now store key).1.entries store := by
  have ht : (s.sweep now).Tables := tables_sweep h
  have hs : s.Serves (s.sweep now) := serves_sweep
  unfold take
  dsimp only
  cases hlookup : (s.sweep now).lookup store key with
  | some m =>
    refine ⟨tables_spend ht, hs.trans serves_spend, fun n hn => ?_⟩
    rw [spend_entries, spend_ok hn]
    exact lookup_mem hlookup
  | none =>
    dsimp only
    split_ifs
    · exact ⟨ht, hs, nofun⟩
    · have hzero' : ((s.sweep now).buckets (s.sweep now).made).active = 0 := by
        rw [sweep_buckets, sweep_made]
        exact hzero
      refine ⟨tables_spend (tables_create ht hlookup), (hs.trans (serves_create hzero')).trans serves_spend,
        fun n hn => ?_⟩
      rw [spend_entries, spend_ok hn]
      unfold create
      dsimp only
      rw [Function.update_self]
      exact List.mem_append_right _ (List.mem_singleton_self _)

end UploadRateLimitService

/-! ## The invariant of the leases -/

def Closure.held (c : Closure) : Bool := !c.released

namespace Limiter

variable {l : Limiter} {now : ℕ}

/-- The leases that refer to the bucket `n`. -/
def held (l : Limiter) (n : ℕ) : ℕ := l.closures.countP fun c => c.held && c.bucket = n

structure Inv (l : Limiter) : Prop where
  tables : l.service.Tables
  counted : ∀ n, (l.service.buckets n).active = l.held n
  total : l.service.active = l.closures.countP Closure.held
  kept : ∀ c ∈ l.closures, c.held = true → (.user c.userId, c.bucket) ∈ l.service.entries .chunk
  perUser : ∀ n, l.held n ≤ maxPerUserConcurrent
  limit : l.closures.countP Closure.held ≤ maxConcurrent
  once : ∀ c ∈ l.closures, c.releases = if c.released then 1 else 0

theorem inv_initial : Inv ⟨.initial, []⟩ where
  tables := ⟨fun _ _ he => absurd he List.not_mem_nil, fun _ => List.nodup_nil, fun _ => List.nodup_nil⟩
  counted _ := rfl
  total := rfl
  kept _ hc := absurd hc List.not_mem_nil
  perUser _ := Nat.zero_le _
  limit := Nat.zero_le _
  once _ hc := absurd hc List.not_mem_nil

/-- A bucket with a lease counts it. -/
theorem held_pos {c : Closure} (hc : c ∈ l.closures) (hheld : c.held = true) : 0 < l.held c.bucket :=
  List.countP_pos_iff.mpr ⟨c, hc, by simp [hheld]⟩

/-- Nothing refers to an object that has not been made. -/
theorem Inv.unmade (h : Inv l) : (l.service.buckets l.service.made).active = 0 := by
  rw [h.counted, Nat.cast_eq_zero]
  by_contra hpos
  obtain ⟨c, hc, hheld⟩ := List.countP_pos_iff.mp (Nat.pos_of_ne_zero hpos)
  simp only [Bool.and_eq_true, decide_eq_true_eq] at hheld
  have hlt := h.tables.made _ _ (h.kept c hc hheld.1)
  rw [hheld.2] at hlt
  exact lt_irrefl _ hlt

theorem Inv.serves {s : UploadRateLimitService} (h : Inv l) (ht : s.Tables) (hs : l.service.Serves s) :
    Inv { l with service := s } where
  tables := ht
  counted n := (hs.counters n).trans (h.counted n)
  total := hs.active.trans h.total
  kept c hc hheld := by
    refine hs.entries _ _ (h.kept c hc hheld) ?_
    rw [h.counted, Nat.cast_ne_zero]
    exact (held_pos hc hheld).ne'
  perUser := h.perUser
  limit := h.limit
  once := h.once

theorem inv_admitIp {key : Key} {kind : UploadRequestKind} (h : Inv l) : Inv (l.admitIp now key kind) :=
  have htake := l.service.take_ok now kind.admission key h.tables h.unmade
  h.serves htake.1 htake.2.1

/-- A lease is granted. -/
theorem inv_grant {n userId : ℕ} (h : Inv l) (hn : (.user userId, n) ∈ l.service.entries .chunk)
    (hbucket : (l.service.buckets n).active < maxPerUserConcurrent)
    (hall : l.service.active < maxConcurrent) : Inv (l.grant userId n) := by
  rw [h.counted] at hbucket
  rw [h.total] at hall
  have hheld : ∀ m, (l.grant userId n).held m = l.held m + if n = m then 1 else 0 := by
    intro m
    unfold held grant
    rw [List.countP_append, List.countP_singleton]
    simp [Closure.held]
  have htotal : (l.grant userId n).closures.countP Closure.held = l.closures.countP Closure.held + 1 := by
    unfold grant
    rw [List.countP_append, List.countP_singleton]
    rfl
  refine
    { tables := ⟨h.tables.made, h.tables.keys, h.tables.objects⟩
      counted := fun m => ?_
      total := ?_
      kept := fun c hc hcheld => ?_
      perUser := fun m => ?_
      limit := ?_
      once := fun c hc => ?_ }
  · rw [hheld]
    unfold grant UploadRateLimitService.set
    dsimp only
    rw [Function.update_apply]
    by_cases hm : m = n
    · rw [if_pos hm, if_pos hm.symm, hm, h.counted]
      rfl
    · rw [if_neg hm, if_neg (Ne.symm hm)]
      exact h.counted m
  · rw [htotal]
    unfold grant
    dsimp only
    rw [h.total]
    rfl
  · rcases List.mem_append.mp hc with hold | hnew
    · exact h.kept c hold hcheld
    · rw [List.mem_singleton.mp hnew]
      exact hn
  · rw [hheld]
    split_ifs with hm
    · subst hm
      omega
    · exact h.perUser m
  · rw [htotal]
    omega
  · rcases List.mem_append.mp hc with hold | hnew
    · exact h.once c hold
    · rw [List.mem_singleton.mp hnew]
      rfl

/-- A lease is new, or there is none. -/
def Enters (l : Limiter) (userId : ℤ) (x : Limiter × Except Refusal (Option ℕ)) : Prop :=
  match x.2 with
  | .ok (some k) => k = l.closures.length ∧ (userId.toNat : ℤ) = userId ∧
      ∃ n, x.1.closures = l.closures ++ [⟨userId.toNat, n, false, 0⟩]
  | _ => x.1.closures = l.closures

/-- **What `enter` does to the leases.** -/
theorem enter_ok (l : Limiter) (now : ℕ) (userId : ℤ) (kind : UploadRequestKind) (h : Inv l) :
    Inv (l.enter now userId kind).1 ∧ l.Enters userId (l.enter now userId kind) := by
  unfold enter
  split_ifs with hvalid
  · exact ⟨h, rfl⟩
  simp only [Bool.or_eq_true, decide_eq_true_eq, not_or] at hvalid
  dsimp only
  obtain ⟨ht, hs, hfound⟩ := l.service.take_ok now kind.store (.user userId.toNat) h.tables h.unmade
  have hinv := h.serves ht hs
  generalize l.service.take now kind.store (.user userId.toNat) = x at *
  obtain ⟨s, result⟩ := x
  cases result with
  | error e => exact ⟨hinv, rfl⟩
  | ok n =>
    dsimp only at hfound hinv ⊢
    unfold entered
    split_ifs with habort hfull
    · exact ⟨hinv, rfl⟩
    · exact ⟨hinv, rfl⟩
    · simp only [Bool.or_eq_true, decide_eq_true_eq, not_or, not_le, ge_iff_le] at hfull
      have hkind : kind.store = .chunk := by
        cases kind
        · rfl
        · exact absurd rfl habort
      have hmem := hfound n rfl
      rw [hkind] at hmem
      exact ⟨inv_grant hinv hmem hfull.1 hfull.2, rfl, Int.toNat_of_nonneg (by omega), n, rfl⟩

/-- **What a release does to the leases.** -/
theorem inv_release {k : ℕ} (h : Inv l) : Inv (l.release now k) := by
  unfold release
  cases hk : l.closures[k]? with
  | none => exact h
  | some c =>
    dsimp only
    split_ifs with hreleased
    · exact h
    obtain ⟨hlt, hget⟩ := List.getElem?_eq_some_iff.mp hk
    have hmem := List.mem_of_getElem? hk
    have hheld : c.held = true := by
      unfold Closure.held
      rw [Bool.not_eq_true] at hreleased
      rw [hreleased]
      rfl
    have hset : ∀ p : Closure → Bool, (∀ c' : Closure, c'.held = false → p c' = false) →
        (l.closures.set k { c with released := true, releases := c.releases + 1 }).countP p =
          l.closures.countP p - if p c then 1 else 0 := by
      intro p hp
      rw [List.countP_set hlt, hget, hp { c with released := true, releases := c.releases + 1 } rfl]
      simp
    have hcount : ∀ n, (l.closures.set k { c with released := true, releases := c.releases + 1 }).countP
        (fun c => c.held && c.bucket = n) = l.held n - if c.bucket = n then 1 else 0 := by
      intro n
      rw [hset _ (fun c' hc' => by rw [hc', Bool.false_and])]
      simp [held, hheld]
    have hpos := held_pos hmem hheld
    have hallpos : 0 < l.closures.countP Closure.held := List.countP_pos_iff.mpr ⟨c, hmem, hheld⟩
    refine
      { tables := ⟨h.tables.made, h.tables.keys, h.tables.objects⟩
        counted := fun n => ?_
        total := ?_
        kept := fun c' hc' hheld' => ?_
        perUser := fun n => ?_
        limit := ?_
        once := fun c' hc' => ?_ }
    · unfold held UploadRateLimitService.set
      dsimp only
      rw [hcount, Function.update_apply]
      by_cases hn : n = c.bucket
      · rw [if_pos hn, if_pos hn.symm, h.counted, hn]
        dsimp only
        omega
      · rw [if_neg hn, if_neg (Ne.symm hn), h.counted, Nat.sub_zero]
    · dsimp only
      rw [hset _ (fun _ hc => hc), if_pos hheld, h.total]
      omega
    · rcases List.mem_or_eq_of_mem_set hc' with hold | rfl
      · exact h.kept c' hold hheld'
      · cases hheld'
    · unfold held
      dsimp only
      rw [hcount]
      exact (Nat.sub_le _ _).trans (h.perUser n)
    · dsimp only
      rw [hset _ (fun _ hc => hc)]
      exact (Nat.sub_le _ _).trans h.limit
    · rcases List.mem_or_eq_of_mem_set hc' with hold | rfl
      · exact h.once c' hold
      · have honce := h.once c hmem
        rw [if_neg hreleased] at honce
        dsimp only
        rw [honce]
        rfl

theorem release_closures {n : ℕ} {c : Closure} (hn : l.closures[n]? = some c) (hc : c.released = false) :
    (l.release now n).closures =
      l.closures.set n { c with released := true, releases := c.releases + 1 } := by
  unfold release
  rw [hn]
  simp [hc]

/-- What satisfies one of two predicates that exclude each other. -/
theorem countP_or {α : Type} {p q : α → Bool} (hpq : ∀ a, p a = true → q a = false) (as : List α) :
    as.countP (fun a => p a || q a) = as.countP p + as.countP q := by
  induction as with
  | nil => rfl
  | cons a as ih =>
    rw [List.countP_cons, List.countP_cons, List.countP_cons, ih]
    cases hp : p a with
    | true =>
      rw [hpq a hp]
      simp
      omega
    | false =>
      simp
      omega

/-- The buckets of a map count the leases that refer to them. -/
theorem Inv.sum_entries (h : Inv l) (entries : List (Key × ℕ)) (hnodup : (entries.map (·.2)).Nodup) :
    (entries.map fun e => (l.service.buckets e.2).active).sum =
      l.closures.countP fun c => c.held && decide (c.bucket ∈ entries.map (·.2)) := by
  induction entries with
  | nil => simp
  | cons e entries ih =>
    rw [List.map_cons, List.nodup_cons] at hnodup
    rw [List.map_cons, List.sum_cons, ih hnodup.2, h.counted]
    unfold held
    rw [← Nat.cast_add, Nat.cast_inj, ← countP_or]
    · refine List.countP_congr fun c _ => ?_
      simp only [List.map_cons, List.mem_cons, Bool.or_eq_true, Bool.and_eq_true, decide_eq_true_eq]
      rw [← and_or_left]
    · intro c hc
      simp only [Bool.and_eq_true, decide_eq_true_eq] at hc
      rw [hc.2, decide_eq_false hnodup.1, Bool.and_false]

/-- The counters of the map add up to the leases. -/
theorem Inv.sum (h : Inv l) : l.service.active =
    ((l.service.entries .chunk).map fun e => (l.service.buckets e.2).active).sum := by
  rw [h.sum_entries _ (h.tables.objects .chunk), h.total, Nat.cast_inj]
  refine List.countP_congr fun c hc => ?_
  rw [Bool.and_eq_true, decide_eq_true_eq]
  refine ⟨fun hheld => ⟨hheld, ?_⟩, And.left⟩
  exact List.mem_map.mpr ⟨_, h.kept c hc hheld, rfl⟩

/-- **A user has the leases of one bucket.** -/
theorem Inv.perUser_le (h : Inv l) (u : ℤ) :
    (l.closures.countP fun c => c.held && (c.userId : ℤ) = u) ≤ maxPerUserConcurrent := by
  by_cases hany : ∃ c ∈ l.closures, c.held = true ∧ (c.userId : ℤ) = u
  · obtain ⟨c, hc, hheld, rfl⟩ := hany
    refine (List.countP_mono_left fun c' hc' hp => ?_).trans (h.perUser c.bucket)
    simp only [Bool.and_eq_true, decide_eq_true_eq, Nat.cast_inj] at hp ⊢
    refine ⟨hp.1, ?_⟩
    -- Both are the value of the key of the user.
    have hmem := h.kept c hc hheld
    have hmem' := h.kept c' hc' hp.1
    rw [hp.2] at hmem'
    have heq := List.inj_on_of_nodup_map (h.tables.keys .chunk) hmem' hmem rfl
    exact (Prod.mk.inj heq).2
  · rw [List.countP_eq_zero.mpr]
    · exact Nat.zero_le _
    · intro c hc hp
      simp only [Bool.and_eq_true, decide_eq_true_eq] at hp
      exact hany ⟨c, hc, hp.1, hp.2⟩

end Limiter

/-! ## The invariant of the requests -/

/-- The request has a lease that counts. -/
def Request.holds (r : Request) : Bool := r.lease.any fun lease => !lease.released && lease.release.isSome

/-- The lease of a request and its release agree. -/
structure Request.Ok (closures : List Closure) (r : Request) : Prop where
  stage : r.lease.isSome = (r.stage = .handling || r.stage = .settled)
  closure : ∀ lease, r.lease = some lease → ∀ n, lease.release = some n →
    ∃ c, closures[n]? = some c ∧ c.released = lease.released ∧ (c.userId : ℤ) = r.userId
  processing : ∀ lease, r.lease = some lease → lease.phase = .processing → lease.released = true →
    r.stage = .settled
  settled : ∀ lease, r.lease = some lease → r.stage = .settled → lease.released = true

/-- The number of the release of a request. -/
def Request.release (r : Request) : Option ℕ := r.lease.bind (·.release)

namespace Interceptor

variable {s s' : Interceptor} {now k : ℕ} {r r' : Request}

structure Inv (s : Interceptor) : Prop where
  limiter : s.limiter.Inv
  requests : ∀ r ∈ s.requests, r.Ok s.limiter.closures
  owner : ∀ (k k' : ℕ) r r' n, s.requests[k]? = some r → s.requests[k']? = some r' → r.release = some n →
    r'.release = some n → k = k'
  counts : ∀ p : ℤ → Bool, (s.requests.countP fun r => r.holds && p r.userId) =
    s.limiter.closures.countP fun c => c.held && p c.userId

theorem inv_initial : Inv initial where
  limiter := Limiter.inv_initial
  requests _ hr := absurd hr List.not_mem_nil
  owner _ _ _ _ _ hk := by cases hk
  counts _ := rfl

/-- A request changes, and its release stays the same. -/
theorem Inv.set (h : Inv s) (hk : s.requests[k]? = some r) (hok : r'.Ok s.limiter.closures)
    (huser : r'.userId = r.userId) (hrelease : r'.release = r.release) (hholds : r'.holds = r.holds) :
    Inv (s.set k r') := by
  obtain ⟨hlt, hget⟩ := List.getElem?_eq_some_iff.mp hk
  have hold : ∀ (j : ℕ) q, (s.requests.set k r')[j]? = some q → ∃ q', s.requests[j]? = some q' ∧ q'.release = q.release := by
    intro j q hq
    rw [List.getElem?_set] at hq
    split_ifs at hq with hj
    · subst hj
      cases hq
      exact ⟨r, hk, hrelease.symm⟩
    · exact ⟨q, hq, rfl⟩
  refine ⟨h.limiter, fun q hq => ?_, fun j j' q q' n hj hj' hn hn' => ?_, fun p => ?_⟩
  · rcases List.mem_or_eq_of_mem_set hq with hmem | rfl
    · exact h.requests q hmem
    · exact hok
  · obtain ⟨o, ho, hrel⟩ := hold j q hj
    obtain ⟨o', ho', hrel'⟩ := hold j' q' hj'
    exact h.owner j j' o o' n ho ho' (hrel.trans hn) (hrel'.trans hn')
  · refine Eq.trans ?_ (h.counts p)
    unfold Interceptor.set
    dsimp only
    rw [List.countP_set hlt, hget, huser, hholds]
    have hpos : (r.holds && p r.userId) = true → 0 < s.requests.countP fun r => r.holds && p r.userId :=
      fun hp => List.countP_pos_iff.mpr ⟨r, List.mem_of_getElem? hk, hp⟩
    split_ifs with hp
    · have := hpos hp
      omega
    · omega

/-- **A lease is given back.** -/
theorem Inv.giveBack {lease : Lease} {n : ℕ} (h : Inv s) (hk : s.requests[k]? = some r)
    (hlease : r.lease = some lease) (hn : lease.release = some n) (hheld : lease.released = false)
    (hlease' : r'.lease = some { lease with released := true }) (huser : r'.userId = r.userId)
    (hstage : r'.stage = .handling ∨ r'.stage = .settled)
    (hphase : lease.phase = .processing → r'.stage = .settled) :
    Inv { limiter := s.limiter.release now n, requests := s.requests.set k r' } := by
  obtain ⟨hlt, hget⟩ := List.getElem?_eq_some_iff.mp hk
  obtain ⟨c, hc, hreleased, hcuser⟩ := (h.requests r (List.mem_of_getElem? hk)).closure lease hlease n hn
  rw [hheld] at hreleased
  have hclosures := @Limiter.release_closures s.limiter now n c hc hreleased
  obtain ⟨hclt, hcget⟩ := List.getElem?_eq_some_iff.mp hc
  have hrelease : r.release = some n := by
    unfold Request.release
    rw [hlease]
    exact hn
  have hrelease' : r'.release = r.release := by
    unfold Request.release
    rw [hlease', hlease]
    rfl
  have hrequests : ∀ (j : ℕ) q, (s.requests.set k r')[j]? = some q →
      (j = k ∧ q = r') ∨ (j ≠ k ∧ s.requests[j]? = some q) := by
    intro j q hq
    rw [List.getElem?_set] at hq
    split_ifs at hq with hj
    · cases hq
      exact .inl ⟨hj.symm, rfl⟩
    · exact .inr ⟨Ne.symm hj, hq⟩
  refine ⟨Limiter.inv_release h.limiter, fun q hq => ?_, fun j j' q q' m hj hj' hm hm' => ?_, fun p => ?_⟩
  · obtain ⟨j, hj⟩ := List.mem_iff_getElem?.mp hq
    rcases hrequests j q hj with ⟨rfl, rfl⟩ | ⟨hne, hold⟩
    · refine ⟨?_, fun lease₁ h₁ m hm => ?_, fun lease₁ h₁ hp _ => ?_, fun lease₁ h₁ _ => ?_⟩
      · rw [hlease']
        rcases hstage with hs | hs <;> rw [hs] <;> rfl
      · cases hlease'.symm.trans h₁
        cases hn.symm.trans hm
        refine ⟨{ c with released := true, releases := c.releases + 1 }, ?_, rfl, hcuser.trans huser.symm⟩
        rw [hclosures, List.getElem?_set_self hclt]
      · cases hlease'.symm.trans h₁
        exact hphase hp
      · cases hlease'.symm.trans h₁
        rfl
    · have hok := h.requests q (List.mem_of_getElem? hold)
      refine ⟨hok.stage, fun lease₁ h₁ m hm => ?_, hok.processing, hok.settled⟩
      have hmn : n ≠ m := by
        rintro rfl
        refine hne (h.owner j k q r n hold hk ?_ hrelease)
        unfold Request.release
        rw [h₁]
        exact hm
      rw [hclosures, List.getElem?_set_ne hmn]
      exact hok.closure lease₁ h₁ m hm
  · have hback : ∀ (j : ℕ) q, (s.requests.set k r')[j]? = some q →
        ∃ o, s.requests[j]? = some o ∧ o.release = q.release := by
      intro j q hq
      rcases hrequests j q hq with ⟨rfl, rfl⟩ | ⟨-, hold⟩
      · exact ⟨r, hk, hrelease'.symm⟩
      · exact ⟨q, hold, rfl⟩
    obtain ⟨o, ho, hrel⟩ := hback j q hj
    obtain ⟨o', ho', hrel'⟩ := hback j' q' hj'
    exact h.owner j j' o o' m ho ho' (hrel.trans hm) (hrel'.trans hm')
  · have hholds : r.holds = true := by
      unfold Request.holds
      rw [hlease, Option.any_some, hheld, hn]
      rfl
    have hholds' : r'.holds = false := by
      unfold Request.holds
      rw [hlease']
      rfl
    dsimp only
    rw [hclosures, List.countP_set hlt, List.countP_set hclt, hget, hcget, hholds, hholds']
    have hcheld : c.held = true := by
      unfold Closure.held
      rw [hreleased]
      rfl
    rw [hcheld, hcuser, h.counts p]
    simp [Closure.held]

/-- **The lease of a request is released**, which leaves the ingress or settles. -/
theorem Inv.releaseLease (h : Inv s) (hk : s.requests[k]? = some r) (hlease : r'.lease = r.lease)
    (huser : r'.userId = r.userId) (hstage : r'.stage = r.stage ∨ r.stage = .handling ∧ r'.stage = .settled)
    (hphase : r'.stage = .settled ∨ ∀ lease, r.lease = some lease → lease.phase = .ingress) :
    Inv (s.releaseLease now k r') := by
  have hok := h.requests r (List.mem_of_getElem? hk)
  have hsome : r'.lease.isSome = (r'.stage = .handling || r'.stage = .settled) := by
    rw [hlease, hok.stage]
    rcases hstage with hsame | ⟨hold, hnew⟩
    · rw [hsame]
    · rw [hold, hnew]
      rfl
  unfold Interceptor.releaseLease
  cases hcase : r'.lease with
  | none =>
    have hnone := hlease.symm.trans hcase
    refine h.set hk ⟨hsome, ?_, ?_, ?_⟩ huser ?_ ?_
    · rw [hcase]
      exact nofun
    · rw [hcase]
      exact nofun
    · rw [hcase]
      exact nofun
    · unfold Request.release
      rw [hcase, hnone]
    · unfold Request.holds
      rw [hcase, hnone]
  | some lease =>
    have hlease' := hlease.symm.trans hcase
    dsimp only
    split_ifs with hreleased
    · refine h.set hk ⟨hsome, ?_, ?_, ?_⟩ huser ?_ ?_
      · rw [hlease, huser]
        exact hok.closure
      · intro lease' hlease'' hprocessing hreleased'
        rcases hphase with hsettled | hingress
        · exact hsettled
        · rw [hlease] at hlease''
          rw [hingress lease' hlease''] at hprocessing
          cases hprocessing
      · intro lease' hlease'' _
        cases hcase.symm.trans hlease''
        exact hreleased
      · unfold Request.release
        rw [hlease]
      · unfold Request.holds
        rw [hlease]
    · have hheld := eq_false_of_ne_true hreleased
      have hstages : r'.stage = .handling ∨ r'.stage = .settled := by
        rw [hcase] at hsome
        simpa using hsome.symm
      have hphase' : lease.phase = .processing → r'.stage = .settled := by
        intro hprocessing
        rcases hphase with hsettled | hingress
        · exact hsettled
        · rw [hingress lease hlease'] at hprocessing
          cases hprocessing
      rcases Option.eq_none_or_eq_some lease.release with hn | ⟨n, hn⟩
      swap
      · have helim : (lease.release.elim s.limiter fun n => s.limiter.release now n) = s.limiter.release now n := by
          rw [hn]
          rfl
        rw [helim]
        exact h.giveBack hk hlease' hn hheld rfl huser hstages hphase'
      · have helim : (lease.release.elim s.limiter fun n => s.limiter.release now n) = s.limiter := by
          rw [hn]
          rfl
        rw [helim]
        refine h.set hk ⟨?_, fun lease₁ h₁ n hn₁ => ?_, fun lease₁ h₁ hp _ => ?_, fun lease₁ h₁ _ => ?_⟩ huser ?_ ?_
        · rw [← hsome, hcase]
          rfl
        · cases h₁
          cases hn.symm.trans hn₁
        · cases h₁
          exact hphase' hp
        · cases h₁
          rfl
        · unfold Request.release
          rw [hlease']
          rfl
        · unfold Request.holds
          rw [hlease', Option.any_some, Option.any_some, hn, hheld]
          rfl

/-- The service has changed, and the leases are the same. -/
theorem Inv.limited {l : Limiter} (h : Inv s) (hl : l.Inv) (hclosures : l.closures = s.limiter.closures) :
    Inv { s with limiter := l } where
  limiter := hl
  requests r hr := hclosures ▸ h.requests r hr
  owner := h.owner
  counts p := hclosures ▸ h.counts p

/-- A request is granted a lease. -/
theorem Inv.granted {l : Limiter} {c : Closure} (h : Inv s) (hk : s.requests[k]? = some r) (hl : l.Inv)
    (hclosures : l.closures = s.limiter.closures ++ [c]) (hc : c.released = false)
    (hcuser : (c.userId : ℤ) = r.userId) (hnone : r.lease = none)
    (hlease : r'.lease = some ⟨.ingress, false, some s.limiter.closures.length⟩) (huser : r'.userId = r.userId)
    (hstage : r'.stage = .handling) : Inv { limiter := l, requests := s.requests.set k r' } := by
  obtain ⟨hlt, hget⟩ := List.getElem?_eq_some_iff.mp hk
  have hlast : l.closures[s.limiter.closures.length]? = some c := by
    rw [hclosures, List.getElem?_concat_length]
  have hrequests : ∀ (j : ℕ) q, (s.requests.set k r')[j]? = some q →
      (j = k ∧ q = r') ∨ (j ≠ k ∧ s.requests[j]? = some q) := by
    intro j q hq
    rw [List.getElem?_set] at hq
    split_ifs at hq with hj
    · cases hq
      exact .inl ⟨hj.symm, rfl⟩
    · exact .inr ⟨Ne.symm hj, hq⟩
  -- No other request has the new release.
  have hfresh : ∀ (j : ℕ) q n, s.requests[j]? = some q → q.release = some n → n < s.limiter.closures.length := by
    intro j q n hj hn
    obtain ⟨lease, hl, hn⟩ := Option.bind_eq_some_iff.mp hn
    obtain ⟨c, hc, -⟩ := (h.requests q (List.mem_of_getElem? hj)).closure lease hl n hn
    exact (List.getElem?_eq_some_iff.mp hc).1
  have hrelease' : r'.release = some s.limiter.closures.length := by
    unfold Request.release
    rw [hlease]
    rfl
  refine ⟨hl, fun q hq => ?_, fun j j' q q' m hj hj' hm hm' => ?_, fun p => ?_⟩
  · obtain ⟨j, hj⟩ := List.mem_iff_getElem?.mp hq
    rcases hrequests j q hj with ⟨rfl, rfl⟩ | ⟨-, hold⟩
    · refine ⟨?_, fun lease₁ h₁ m hm => ?_, fun lease₁ h₁ hp _ => ?_, fun lease₁ h₁ hs => ?_⟩
      · rw [hlease, hstage]
        rfl
      · cases hlease.symm.trans h₁
        cases hm
        exact ⟨c, hlast, hc, hcuser.trans huser.symm⟩
      · cases hlease.symm.trans h₁
        cases hp
      · rw [hstage] at hs
        cases hs
    · have hok := h.requests q (List.mem_of_getElem? hold)
      refine ⟨hok.stage, fun lease₁ h₁ m hm => ?_, hok.processing, hok.settled⟩
      obtain ⟨c', hc', hrest⟩ := hok.closure lease₁ h₁ m hm
      refine ⟨c', ?_, hrest⟩
      rw [hclosures, List.getElem?_append_left (List.getElem?_eq_some_iff.mp hc').1]
      exact hc'
  · rcases hrequests j q hj with ⟨rfl, rfl⟩ | ⟨hne, hold⟩
    · rcases hrequests j' q' hj' with ⟨rfl, rfl⟩ | ⟨hne', hold'⟩
      · rfl
      · cases hrelease'.symm.trans hm
        exact absurd (hfresh j' q' _ hold' hm') (lt_irrefl _)
    · rcases hrequests j' q' hj' with ⟨rfl, rfl⟩ | ⟨hne', hold'⟩
      · cases hrelease'.symm.trans hm'
        exact absurd (hfresh j q _ hold hm) (lt_irrefl _)
      · exact h.owner j j' q q' m hold hold' hm hm'
  · have hholds : r.holds = false := by
      unfold Request.holds
      rw [hnone]
      rfl
    have hholds' : r'.holds = true := by
      unfold Request.holds
      rw [hlease]
      rfl
    have hcheld : c.held = true := by
      unfold Closure.held
      rw [hc]
      rfl
    dsimp only
    rw [hclosures, List.countP_set hlt, hget, List.countP_append, List.countP_singleton, hholds, hholds',
      hcheld, hcuser, huser, h.counts p]
    simp

/-- **A request is let in or refused.** -/
theorem Inv.intercept (h : Inv s) (hk : s.requests[k]? = some r) (hstage : r.stage = .arrived) :
    Inv (s.intercept now k r) := by
  have hnone : r.lease = none := by
    have hok := (h.requests r (List.mem_of_getElem? hk)).stage
    rw [hstage] at hok
    exact Option.isNone_iff_eq_none.mp (by simpa using hok)
  have hfree : r.holds = false := by
    unfold Request.holds
    rw [hnone]
    rfl
  have hrelease : r.release = none := by
    unfold Request.release
    rw [hnone]
    rfl
  obtain ⟨hinv, henters⟩ := s.limiter.enter_ok now r.userId r.kind h.limiter
  unfold Interceptor.intercept
  generalize s.limiter.enter now r.userId r.kind = x at *
  obtain ⟨l, result⟩ := x
  cases result with
  | error e =>
    refine (h.limited hinv henters).set hk ⟨?_, ?_, ?_, ?_⟩ rfl rfl rfl
    · rw [hnone]
      rfl
    · rw [hnone]
      exact nofun
    · rw [hnone]
      exact nofun
    · rw [hnone]
      exact nofun
  | ok release =>
    cases release with
    | none =>
      refine (h.limited hinv henters).set hk ⟨rfl, fun lease hlease n hn => ?_, fun lease hlease _ hr => ?_,
        fun lease hlease hs => ?_⟩ rfl hrelease.symm hfree.symm
      · cases hlease
        cases hn
      · cases hlease
        cases hr
      · cases hs
    | some j =>
      obtain ⟨rfl, hcuser, n, hclosures⟩ := henters
      exact h.granted hk hinv hclosures rfl hcuser hnone rfl rfl rfl

/-- What a request does when it is disconnected. -/
theorem Inv.disconnected (h : Inv s) (hk : s.requests[k]? = some r) (hlease : r'.lease = r.lease)
    (huser : r'.userId = r.userId) (hstage : r'.stage = r.stage) : Inv (s.disconnected now k r') := by
  unfold Interceptor.disconnected
  split_ifs with hingress
  · refine h.releaseLease hk hlease huser (.inl hstage) (.inr fun lease hl => ?_)
    rw [hlease, hl] at hingress
    exact of_decide_eq_true hingress
  · have hok := h.requests r (List.mem_of_getElem? hk)
    refine h.set hk ⟨?_, ?_, ?_, ?_⟩ huser ?_ ?_
    · rw [hlease, hstage]
      exact hok.stage
    · rw [hlease, huser]
      exact hok.closure
    · rw [hlease, hstage]
      exact hok.processing
    · rw [hlease, hstage]
      exact hok.settled
    · unfold Request.release
      rw [hlease]
    · unfold Request.holds
      rw [hlease]

/-- A request is processed, unless it is cancelled. -/
theorem Inv.markUploadProcessing (h : Inv s) (hk : s.requests[k]? = some r) : Inv (s.markUploadProcessing k r) := by
  have hok := h.requests r (List.mem_of_getElem? hk)
  unfold Interceptor.markUploadProcessing
  rcases Option.eq_none_or_eq_some r.lease with hnone | ⟨lease, hlease⟩
  · rw [hnone]
    exact h
  rw [hlease]
  dsimp only
  split_ifs with hcancelled
  · exact h
  rw [Bool.or_eq_true, not_or, Bool.not_eq_true, Bool.not_eq_true] at hcancelled
  refine h.set hk ⟨?_, fun lease' hlease' => ?_, fun lease' hlease' _ hr => ?_, fun lease' hlease' hs => ?_⟩
    rfl ?_ ?_
  · rw [← hok.stage, hlease]
    rfl
  · cases hlease'
    exact hok.closure lease hlease
  · cases hlease'
    exact absurd (hcancelled.2.symm.trans hr) nofun
  · cases hlease'
    exact hok.settled lease hlease hs
  · unfold Request.release
    rw [hlease]
    rfl
  · unfold Request.holds
    rw [hlease]
    rfl

/-- **What happens keeps the invariant.** -/
theorem inv_next {m : Move} (h : Inv s) (hm : s.next now m = some s') : Inv s' := by
  cases m with
  | arrive userId kind =>
    cases hm
    have hnew : ∀ (j : ℕ) q n, (s.requests ++ [⟨userId, kind, false, none, false, false, .arrived⟩])[j]? = some q →
        q.release = some n → s.requests[j]? = some q := by
      intro j q n hj hn
      rw [List.getElem?_append] at hj
      split_ifs at hj with hlt
      · exact hj
      · rw [List.getElem?_singleton] at hj
        split_ifs at hj
        cases hj
        cases hn
    refine ⟨h.limiter, fun r hr => ?_, fun j j' q q' n hj hj' hn hn' =>
      h.owner j j' q q' n (hnew j q n hj hn) (hnew j' q' n hj' hn') hn hn', fun p => ?_⟩
    · rcases List.mem_append.mp hr with hold | hadd
      · exact h.requests r hold
      · rw [List.mem_singleton.mp hadd]
        exact ⟨rfl, nofun, nofun, nofun⟩
    · rw [List.countP_append, h.counts p]
      rfl
  | intercept k =>
    obtain ⟨r, hk, hm⟩ := Option.bind_eq_some_iff.mp hm
    obtain ⟨_, hguard, hm⟩ := Option.bind_eq_some_iff.mp hm
    cases hm
    refine h.intercept hk ?_
    by_contra hstage
    rw [guard, if_neg hstage] at hguard
    cases hguard
  | aborted k =>
    obtain ⟨r, hk, hm⟩ := Option.bind_eq_some_iff.mp hm
    cases hm
    split_ifs
    · exact h.disconnected hk rfl rfl rfl
    · have hok := h.requests r (List.mem_of_getElem? hk)
      exact h.set hk ⟨hok.stage, hok.closure, hok.processing, hok.settled⟩ rfl rfl rfl
  | close k =>
    obtain ⟨r, hk, hm⟩ := Option.bind_eq_some_iff.mp hm
    cases hm
    split_ifs
    · exact h.disconnected hk rfl rfl rfl
    · have hok := h.requests r (List.mem_of_getElem? hk)
      exact h.set hk ⟨hok.stage, hok.closure, hok.processing, hok.settled⟩ rfl rfl rfl
  | process k =>
    obtain ⟨r, hk, hm⟩ := Option.bind_eq_some_iff.mp hm
    cases hm
    exact h.markUploadProcessing hk
  | settle k =>
    obtain ⟨r, hk, hm⟩ := Option.bind_eq_some_iff.mp hm
    obtain ⟨_, hguard, hm⟩ := Option.bind_eq_some_iff.mp hm
    cases hm
    refine h.releaseLease hk rfl rfl (.inr ⟨?_, rfl⟩) (.inl rfl)
    by_contra hstage
    rw [guard, if_neg hstage] at hguard
    cases hguard
  | release n =>
    obtain ⟨c, hc, hm⟩ := Option.bind_eq_some_iff.mp hm
    obtain ⟨_, hguard, hm⟩ := Option.bind_eq_some_iff.mp hm
    cases hm
    refine h.limited (Limiter.inv_release h.limiter) ?_
    unfold Limiter.release
    rw [hc]
    dsimp only
    split_ifs with hreleased
    · rfl
    · rw [guard, if_neg hreleased] at hguard
      cases hguard
  | admitIp key kind =>
    cases hm
    exact h.limited (Limiter.inv_admitIp h.limiter) rfl

end Interceptor

theorem Reached.inv {s : Interceptor} (h : Reached s) : s.Inv := by
  induction h with
  | initial => exact Interceptor.inv_initial
  | step now m _ hm ih => exact Interceptor.inv_next ih hm

/-- **The leases balance**: they are within the limits, the counters are theirs, each is given back once,
when its request settles or, unless it is processed, is disconnected before that; and the entry of a user
with a lease is kept. -/
theorem leases_balance (s : Interceptor) (h : Reached s) :
    (∀ u : ℤ, (s.requests.countP fun r => r.holds && r.userId = u) ≤ maxPerUserConcurrent) ∧
    s.requests.countP Request.holds ≤ maxConcurrent ∧
    s.limiter.service.active = s.requests.countP Request.holds ∧
    s.limiter.service.active =
      ((s.limiter.service.entries .chunk).map fun e => (s.limiter.service.buckets e.2).active).sum ∧
    (∀ r ∈ s.requests, ∀ lease, r.lease = some lease →
      (r.stage = .settled → lease.released = true) ∧
      (lease.phase = .processing → r.stage ≠ .settled → lease.released = false) ∧
      ∀ n, lease.release = some n → ∃ c, s.limiter.closures[n]? = some c ∧
        c.releases = (if lease.released then 1 else 0) ∧
        (lease.released = false → (.user r.userId.toNat, c.bucket) ∈ s.limiter.service.entries .chunk ∧
          0 < (s.limiter.service.buckets c.bucket).active)) := by
  have hinv := h.inv
  have hall : s.requests.countP Request.holds = s.limiter.closures.countP Closure.held := by
    have hcounts := hinv.counts fun _ => true
    simpa using hcounts
  refine ⟨fun u => ?_, ?_, ?_, hinv.limiter.sum, fun r hr lease hlease => ?_⟩
  · rw [hinv.counts fun v => decide (v = u)]
    exact hinv.limiter.perUser_le u
  · rw [hall]
    exact hinv.limiter.limit
  · rw [hall]
    exact hinv.limiter.total
  · have hok := hinv.requests r hr
    refine ⟨hok.settled lease hlease, fun hprocessing hstage => ?_, fun n hn => ?_⟩
    · by_contra hreleased
      exact hstage (hok.processing lease hlease hprocessing (eq_true_of_ne_false hreleased))
    · obtain ⟨c, hc, hreleased, huser⟩ := hok.closure lease hlease n hn
      have hmem := List.mem_of_getElem? hc
      refine ⟨c, hc, ?_, fun hfree => ?_⟩
      · rw [← hreleased]
        exact hinv.limiter.once c hmem
      · have hheld : c.held = true := by
          unfold Closure.held
          rw [hreleased, hfree]
          rfl
        have hkept := hinv.limiter.kept c hmem hheld
        rw [← huser, Int.toNat_natCast]
        refine ⟨hkept, ?_⟩
        rw [hinv.limiter.counted, Nat.cast_pos]
        exact Limiter.held_pos hmem hheld

/-- The state after the moves. -/
def Interceptor.after : Interceptor → List (ℕ × Move) → Option Interceptor
  | s, [] => some s
  | s, (now, m) :: moves => (s.next now m).bind fun s => s.after moves

theorem Reached.after {s s' : Interceptor} {moves : List (ℕ × Move)} (h : Reached s)
    (hmoves : s.after moves = some s') : Reached s' := by
  induction moves generalizing s with
  | nil =>
    cases hmoves
    exact h
  | cons m moves ih =>
    obtain ⟨t, ht, hrest⟩ := Option.bind_eq_some_iff.mp hmoves
    exact ih (h.step m.1 m.2 ht) hrest

/-- A request that is disconnected while it is processed. -/
theorem leases_balance_of_run : ∃ s, Reached s ∧ s.requests.countP Request.holds = 1 ∧
    s.limiter.service.active = 1 := by
  have hrun : (Interceptor.initial.after [(5, .arrive 7 .chunk), (5, .intercept 0), (6, .process 0), (9, .aborted 0),
      (9, .close 0)]).any (fun s => s.requests.countP Request.holds = 1) = true := by decide +kernel
  obtain ⟨s, hs, hholds⟩ := (Option.any_eq_true ..).mp hrun
  have hreached := Reached.initial.after hs
  have hone := of_decide_eq_true hholds
  refine ⟨s, hreached, hone, ?_⟩
  rw [(leases_balance s hreached).2.2.1, hone]
  rfl

end RateLimit

end HomeCloud
