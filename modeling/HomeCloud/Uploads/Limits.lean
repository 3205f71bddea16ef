import HomeCloud.Client.UploadQueue
import HomeCloud.Javascript.Double
import HomeCloud.System

/-!
# The limits of uploads, as they are told and as they are checked

* `configure`: the limits the server is set up with.
* `uploadLimits`, `getUploadLimits`: the limits that a user is told.
* `Told`, `Admitted`: what the server answers in a state; `run_getUploadLimits`: the request for the limits.
* `chunkPlan`: the checks of the client, and the size of the chunks it asks for; **`limited_eq`**: a run of
  the queue goes by it.
* **`limits_agree`**: a size is within the limit that is told exactly when client and server accept it.
-/

namespace HomeCloud

namespace Limits

open Concurrent WholeSha256 Queue

/-! ## The server -/

/-- A size from the environment, where the text of the variable is an integer if it is set. -/
def parseSizeEnv (raw : Option ℤ) (allowZero : Bool) (defaultValue : ℕ) : Option ℕ :=
  match raw with
  | none => some defaultValue
  | some n =>
    if n < 0 || !isSafeInteger n.toNat then none
    else if !allowZero && n = 0 then none
    else some n.toNat

def parseMaxChunkSize (raw : Option ℤ) : Option ℕ :=
  match raw with
  | none => some (50 * 1024 * 1024)
  | some n => if n ≤ 0 || !isSafeInteger n.toNat || n > 2147483647 then none else some n.toNat

def parseTtlEnv (raw : Option ℤ) (defaultValue : ℕ) : Option ℕ :=
  match raw with
  | none => some (defaultValue * 60 * 60 * 1000)
  | some n => if n ≤ 0 || !isSafeInteger n.toNat then none else some (n.toNat * 60 * 60 * 1000)

/-- The variables that the constructor of the service reads. -/
structure Environment where
  MAX_FILE_SIZE : Option ℤ
  MAX_TOTAL_SIZE : Option ℤ
  MAX_CHUNK_SIZE : Option ℤ
  MAX_UPLOAD_CHUNKS : Option ℤ
  UPLOAD_SESSION_TTL_HOURS : Option ℤ

def configure (env : Environment) : Option HomeCloud.UploadLimits := do
  let maxFileSize ← parseSizeEnv env.MAX_FILE_SIZE true 1099511627776
  let maxTotalSize ← parseSizeEnv env.MAX_TOTAL_SIZE true 2199023255552
  let maxChunkSize ← parseMaxChunkSize env.MAX_CHUNK_SIZE
  let maxUploadChunks ← parseSizeEnv env.MAX_UPLOAD_CHUNKS false 100000
  guard (maxUploadChunks ≤ 2147483647)
  let sessionTtlMs ← parseTtlEnv env.UPLOAD_SESSION_TTL_HOURS 24
  return ⟨maxFileSize, maxTotalSize, maxChunkSize, maxUploadChunks, sessionTtlMs⟩

/-- The answer of `getUploadLimits`, and what the client reads of it. -/
structure LimitsAnswer extends Queue.UploadLimits where
  maxFileBytes : Option ℕ
  maxActiveBytes : Option ℕ
  remainingActiveBytes : Option ℕ
  quotaRemainingBytes : ℕ
  deriving DecidableEq

def MAX_SAFE_INTEGER : ℕ := 2 ^ 53 - 1

def limitsAnswer (limits : HomeCloud.UploadLimits) (activeTotal quota reserved : ℕ) : LimitsAnswer :=
  let quotaRemainingBytes := quota - reserved
  let remainingActiveBytes := if limits.maxTotalSize > 0 then some (limits.maxTotalSize - activeTotal) else none
  let maxFileBytes := if limits.maxFileSize > 0 then some limits.maxFileSize else none
  { wholeSha256Required := false
    ssd := false
    maxFileBytes := maxFileBytes
    maxActiveBytes := if limits.maxTotalSize = 0 then none else some limits.maxTotalSize
    maxChunkBytes := limits.maxChunkSize
    maxChunks := limits.maxUploadChunks
    remainingActiveBytes := remainingActiveBytes
    quotaRemainingBytes := quotaRemainingBytes
    effectiveMaxFileBytes :=
      min (maxFileBytes.getD MAX_SAFE_INTEGER) (min (remainingActiveBytes.getD MAX_SAFE_INTEGER)
        (min quotaRemainingBytes
          (min (Javascript.mul limits.maxUploadChunks limits.maxChunkSize) MAX_SAFE_INTEGER))) }

/-- The limits for a user with `active` bytes in active sessions. -/
def uploadLimits (limits : HomeCloud.UploadLimits) (user : User) (active : ℕ) : Op LimitsAnswer := do
  let activeTotal ← parseDatabaseSize "Invalid storage size metadata" active
  let quota ← parseDatabaseSize "Invalid storage size metadata" user.storageQuota
  let used ← parseDatabaseSize "Invalid storage size metadata" user.storageUsed
  let reserved ← parseDatabaseSize "Invalid storage size metadata" (used + activeTotal : ℕ)
  return limitsAnswer limits activeTotal quota reserved

def getUploadLimits (limits : HomeCloud.UploadLimits) (userId : ℕ) : Op LimitsAnswer := do
  let row ← query fun w => w.db.users.get userId
  let user ← require (.forbidden "User not found") row
  let active ← query fun w => w.db.reserved userId
  uploadLimits limits user active

/-- The limits are told in the state of the database. -/
def Told (limits : HomeCloud.UploadLimits) (db : Db) (userId : ℕ) (answer : LimitsAnswer) : Prop :=
  ∃ user, db.users.get userId = some user ∧ uploadLimits limits user (db.reserved userId) = .ret answer

theorem parse_returns (message : String) (n : ℤ) :
    (∃ m, parseDatabaseSize message n = .ret m) ∨ ∃ e, parseDatabaseSize message n = .fail e := by
  unfold parseDatabaseSize
  split_ifs
  · exact .inl ⟨_, rfl⟩
  · exact .inr ⟨_, rfl⟩

theorem uploadLimits_returns (limits : HomeCloud.UploadLimits) (user : User) (active : ℕ) :
    (∃ answer, uploadLimits limits user active = .ret answer) ∨
      ∃ e, uploadLimits limits user active = .fail e := by
  unfold uploadLimits
  rcases parse_returns "Invalid storage size metadata" active with ⟨a, ha⟩ | ⟨e, he⟩
  swap
  · exact .inr ⟨e, by rw [he, Prog.bind_fail]⟩
  rw [ha, Prog.bind_ret]
  rcases parse_returns "Invalid storage size metadata" user.storageQuota with ⟨q, hq⟩ | ⟨e, he⟩
  swap
  · exact .inr ⟨e, by rw [he, Prog.bind_fail]⟩
  rw [hq, Prog.bind_ret]
  rcases parse_returns "Invalid storage size metadata" user.storageUsed with ⟨u, hu⟩ | ⟨e, he⟩
  swap
  · exact .inr ⟨e, by rw [he, Prog.bind_fail]⟩
  rw [hu, Prog.bind_ret]
  rcases parse_returns "Invalid storage size metadata" (u + a : ℕ) with ⟨r, hr⟩ | ⟨e, he⟩
  · exact .inl ⟨_, by rw [hr, Prog.bind_ret, Prog.pure_eq]⟩
  · exact .inr ⟨e, by rw [he, Prog.bind_fail]⟩

/-- **A request that nothing disturbs is told the limits of the state.** -/
theorem run_getUploadLimits {limits : HomeCloud.UploadLimits} {userId t : ℕ} {w : World}
    (ht : w.lost t = false) (answer : LimitsAnswer) :
    ((getUploadLimits limits userId).run Instr.exec t w).1 = .done answer ↔ Told limits w.db userId answer := by
  have hread : Instr.read.exec t w = some w := by
    unfold Instr.exec
    rw [ht]
    rfl
  unfold getUploadLimits query statement Told
  cases huser : w.db.users.get userId with
  | none => simp [bind, Prog.bind, Prog.run, hread, ht, huser, require]
  | some user =>
    rcases uploadLimits_returns limits user (w.db.reserved userId) with ⟨a, ha⟩ | ⟨e, he⟩
    · simp [bind, Prog.bind, Prog.run, hread, ht, huser, require, ha]
    · simp [bind, Prog.bind, Prog.run, hread, ht, huser, require, he]

/-- The checks on the sizes in `createUploadSession` are passed in the state of the database. -/
def Admitted (limits : HomeCloud.UploadLimits) (db : Db) (userId : ℕ) (totalSize chunkSize : ℤ) : Prop :=
  ∃ user sizes, db.users.get userId = some user ∧ validateSizes limits totalSize chunkSize = .ret sizes ∧
    checkReservation limits user (db.reserved userId) sizes.1 = .ret ()

/-! ## The client -/

/-- The checks of `run` and of `uploadFile` on a file of `size` bytes, and the size of its chunks. -/
def chunkPlan (limits : Queue.UploadLimits) (size : ℤ) : Option ℕ :=
  if size ≤ 0 || !isSafeInteger size.toNat then none
  else if !isSafeInteger limits.effectiveMaxFileBytes || size > limits.effectiveMaxFileBytes then none
  else if !isSafeInteger limits.maxChunkBytes || limits.maxChunkBytes = 0 ||
      !isSafeInteger limits.maxChunks || limits.maxChunks = 0 then none
  else
    let chunkSize := min limits.maxChunkBytes
      (max UPLOAD_CHUNK_SIZE (Javascript.ceilDiv size.toNat limits.maxChunks))
    if Javascript.ceilDiv size.toNat chunkSize > limits.maxChunks then none else some chunkSize

/-! ## What the checks say -/

section Checks

variable {limits : HomeCloud.UploadLimits} {user : User} {active : ℕ}

theorem parse_eq_ret {message : String} {n : ℤ} {m : ℕ} :
    parseDatabaseSize message n = .ret m ↔ n = m ∧ m ≤ MAX_SAFE_INTEGER := by
  unfold parseDatabaseSize MAX_SAFE_INTEGER
  split_ifs with h
  · rw [Prog.ret.injEq]
    omega
  · refine ⟨nofun, fun hm => absurd ?_ h⟩
    omega

theorem assert_eq_ret {e : Err} {b : Bool} {u : Unit} : assert e b = .ret u ↔ b = true := by
  unfold assert
  split_ifs with h <;> simp [h]

theorem uploadLimits_eq_ret {answer : LimitsAnswer} : uploadLimits limits user active = .ret answer ↔
    ∃ used : ℕ, user.storageUsed = used ∧ used + active ≤ MAX_SAFE_INTEGER ∧
      user.storageQuota ≤ MAX_SAFE_INTEGER ∧
      answer = limitsAnswer limits active user.storageQuota (used + active) := by
  unfold uploadLimits
  simp only [Prog.bind_eq_ret, parse_eq_ret, Nat.cast_inj, Prog.pure_eq, Prog.ret.injEq]
  constructor
  · rintro ⟨_, ⟨rfl, -⟩, _, ⟨rfl, hquota⟩, used, ⟨hused, -⟩, _, ⟨rfl, hsum⟩, rfl⟩
    exact ⟨used, hused, hsum, hquota, rfl⟩
  · rintro ⟨used, hused, hsum, hquota, rfl⟩
    exact ⟨active, ⟨rfl, by omega⟩, _, ⟨rfl, hquota⟩, used, ⟨hused, by omega⟩, _, ⟨rfl, hsum⟩, rfl⟩

theorem checkReservation_eq_ret {totalSize : ℕ} : checkReservation limits user active totalSize = .ret () ↔
    ∃ used : ℕ, user.storageUsed = used ∧ user.storageQuota ≤ MAX_SAFE_INTEGER ∧
      used + active + totalSize ≤ MAX_SAFE_INTEGER ∧ used + active + totalSize ≤ user.storageQuota ∧
      (0 < limits.maxTotalSize → active + totalSize ≤ limits.maxTotalSize) := by
  unfold checkReservation
  rw [Prog.bind_eq_ret]
  split_ifs with hmax
  · simp only [Prog.bind_eq_ret, parse_eq_ret, Nat.cast_inj, assert_eq_ret, decide_eq_true_eq]
    constructor
    · rintro ⟨_, ⟨rfl, -⟩, _, ⟨rfl, -⟩, _, hle, _, ⟨rfl, hquota⟩, used, ⟨hused, -⟩, _, ⟨rfl, -⟩, _, ⟨rfl, hsum⟩, hfit⟩
      exact ⟨used, hused, hquota, hsum, hfit, fun _ => hle⟩
    · rintro ⟨used, hused, hquota, hsum, hfit, hle⟩
      exact ⟨active, ⟨rfl, by omega⟩, _, ⟨rfl, by omega⟩, (), hle hmax, _, ⟨rfl, hquota⟩, used, ⟨hused, by omega⟩,
        _, ⟨rfl, by omega⟩, _, ⟨rfl, hsum⟩, hfit⟩
  · simp only [Prog.bind_eq_ret, parse_eq_ret, Nat.cast_inj, assert_eq_ret, decide_eq_true_eq]
    constructor
    · rintro ⟨_, ⟨rfl, -⟩, _, ⟨rfl, hquota⟩, used, ⟨hused, -⟩, _, ⟨rfl, -⟩, _, ⟨rfl, hsum⟩, hfit⟩
      exact ⟨used, hused, hquota, hsum, hfit, fun h => (hmax h).elim⟩
    · rintro ⟨used, hused, hquota, hsum, hfit, -⟩
      exact ⟨active, ⟨rfl, by omega⟩, _, ⟨rfl, hquota⟩, used, ⟨hused, by omega⟩, _, ⟨rfl, by omega⟩, _,
        ⟨rfl, hsum⟩, hfit⟩

theorem positive_eq_ret {label : String} {value : ℤ} {n : ℕ} :
    validateSafePositiveInteger label value = .ret n ↔ value = n ∧ 0 < n ∧ n ≤ MAX_SAFE_INTEGER := by
  unfold validateSafePositiveInteger MAX_SAFE_INTEGER
  simp only [Prog.bind_eq_ret, assert_eq_ret, decide_eq_true_eq, Prog.pure_eq, Prog.ret.injEq]
  constructor
  · rintro ⟨_, hsafe, _, hpos, rfl⟩
    omega
  · rintro ⟨rfl, hpos, hsafe⟩
    exact ⟨(), by omega, (), by omega, Int.toNat_natCast n⟩

theorem validateSizes_eq_ret {totalSize chunkSize : ℤ} {sizes : ℕ × ℕ × ℕ} :
    validateSizes limits totalSize chunkSize = .ret sizes ↔
      ∃ t c : ℕ, totalSize = t ∧ chunkSize = c ∧ 0 < t ∧ t ≤ MAX_SAFE_INTEGER ∧ 0 < c ∧
        c ≤ limits.maxChunkSize ∧ c ≤ MAX_SAFE_INTEGER ∧ (limits.maxFileSize = 0 ∨ t ≤ limits.maxFileSize) ∧
        (limits.maxTotalSize = 0 ∨ t ≤ limits.maxTotalSize) ∧ t ≤ limits.maxUploadChunks * c ∧
        sizes = (t, c, (t + c - 1) / c) := by
  unfold validateSizes
  simp only [Prog.bind_eq_ret, positive_eq_ret, assert_eq_ret, decide_eq_true_eq, Bool.or_eq_true,
    Bool.and_eq_true, Prog.pure_eq, Prog.ret.injEq]
  -- The number of chunks is at most `n` when `n` chunks are enough.
  have hcount : ∀ {t c n : ℕ}, 0 < c → ((t + c - 1) / c ≤ n ↔ t ≤ n * c) := by
    intro t c n hc
    rw [← Nat.lt_succ_iff, Nat.div_lt_iff_lt_mul hc, Nat.succ_mul]
    omega
  constructor
  · rintro ⟨t, ⟨rfl, ht, hts⟩, c, ⟨rfl, hc, hcs⟩, _, hchunk, _, hfile, _, htotal, _, ⟨-, hmany⟩, rfl⟩
    exact ⟨t, c, rfl, rfl, ht, hts, hc, hchunk, hcs, hfile, htotal, (hcount hc).mp hmany, rfl⟩
  · rintro ⟨t, c, rfl, rfl, ht, hts, hc, hchunk, hcs, hfile, htotal, hmany, rfl⟩
    refine ⟨t, ⟨rfl, ht, hts⟩, c, ⟨rfl, hc, hcs⟩, (), hchunk, (), hfile, (), htotal, (), ⟨?_, (hcount hc).mpr hmany⟩, rfl⟩
    exact Nat.div_pos (by omega) hc

end Checks

/-! ## Agreement -/

section Agreement

/-- What the constructor has checked. -/
structure Configured (limits : HomeCloud.UploadLimits) : Prop where
  chunk_pos : 0 < limits.maxChunkSize
  chunk_le : limits.maxChunkSize ≤ 2147483647
  chunks_pos : 0 < limits.maxUploadChunks
  chunks_le : limits.maxUploadChunks ≤ 2147483647

theorem parseSizeEnv_pos {raw : Option ℤ} {n d : ℕ} (h : parseSizeEnv raw false d = some n) (hd : 0 < d) :
    0 < n := by
  unfold parseSizeEnv at h
  cases raw with
  | none =>
    cases h
    exact hd
  | some m =>
    dsimp only at h
    split_ifs at h with hneg hzero
    simp only [Bool.or_eq_true, decide_eq_true_eq, not_or, Bool.not_false, Bool.true_and] at hneg hzero
    cases h
    omega

theorem parseMaxChunkSize_range {raw : Option ℤ} {n : ℕ} (h : parseMaxChunkSize raw = some n) :
    0 < n ∧ n ≤ 2147483647 := by
  unfold parseMaxChunkSize at h
  cases raw with
  | none =>
    cases h
    decide
  | some m =>
    dsimp only at h
    split_ifs at h with hbad
    simp only [Bool.or_eq_true, decide_eq_true_eq, not_or] at hbad
    cases h
    omega

theorem configured {env : Environment} {limits : HomeCloud.UploadLimits} (h : configure env = some limits) :
    Configured limits := by
  unfold configure at h
  obtain ⟨f, -, h⟩ := Option.bind_eq_some_iff.mp h
  obtain ⟨t, -, h⟩ := Option.bind_eq_some_iff.mp h
  obtain ⟨c, hc, h⟩ := Option.bind_eq_some_iff.mp h
  obtain ⟨n, hn, h⟩ := Option.bind_eq_some_iff.mp h
  obtain ⟨_, hguard, h⟩ := Option.bind_eq_some_iff.mp h
  obtain ⟨ttl, -, h⟩ := Option.bind_eq_some_iff.mp h
  have hle : n ≤ 2147483647 := by
    by_contra hlt
    rw [guard, if_neg hlt] at hguard
    cases hguard
  cases h
  exact ⟨(parseMaxChunkSize_range hc).1, (parseMaxChunkSize_range hc).2, parseSizeEnv_pos hn (by decide), hle⟩

variable {limits : HomeCloud.UploadLimits} {db : Db} {userId : ℕ}

/-- The limit on a file is the smallest of the limits that there are. -/
theorem le_effective_iff {active quota reserved n : ℕ} :
    n ≤ (limitsAnswer limits active quota reserved).effectiveMaxFileBytes ↔
      (limits.maxFileSize = 0 ∨ n ≤ limits.maxFileSize) ∧
      (limits.maxTotalSize = 0 ∨ n ≤ limits.maxTotalSize - active) ∧ n ≤ quota - reserved ∧
      n ≤ limits.maxUploadChunks * limits.maxChunkSize ∧ n ≤ MAX_SAFE_INTEGER := by
  have hproduct : min (Javascript.mul limits.maxUploadChunks limits.maxChunkSize) MAX_SAFE_INTEGER =
      min (limits.maxUploadChunks * limits.maxChunkSize) MAX_SAFE_INTEGER := Javascript.min_mul _ _
  unfold limitsAnswer
  dsimp only
  rw [hproduct]
  split_ifs <;> simp only [Option.getD_some, Option.getD_none, le_min_iff] <;> omega

/-- **A size within the limit has a plan**, whose chunks are within the limits of the server. -/
theorem exists_plan {answer : Queue.UploadLimits} {n : ℕ} (hpos : 0 < n)
    (hle : n ≤ answer.effectiveMaxFileBytes) (hsafe : answer.effectiveMaxFileBytes ≤ MAX_SAFE_INTEGER)
    (hchunk : 0 < answer.maxChunkBytes) (hchunk' : answer.maxChunkBytes ≤ 2147483647)
    (hchunks : 0 < answer.maxChunks) (hchunks' : answer.maxChunks ≤ 2147483647)
    (hproduct : n ≤ answer.maxChunks * answer.maxChunkBytes) :
    ∃ c : ℕ, chunkPlan answer n = some c ∧ 0 < c ∧ c ≤ answer.maxChunkBytes ∧ n ≤ answer.maxChunks * c := by
  unfold MAX_SAFE_INTEGER at hsafe
  have hlt : n < 2 ^ 53 := by omega
  set c := min answer.maxChunkBytes (max UPLOAD_CHUNK_SIZE (Javascript.ceilDiv n answer.maxChunks)) with hc
  have hcpos : 0 < c := lt_min hchunk (lt_max_of_lt_left (by decide))
  have hcle : c ≤ answer.maxChunkBytes := min_le_left _ _
  -- A chunk is as long as a chunk may be, or as the size needs.
  have hmany : n ≤ answer.maxChunks * c := by
    rcases min_choice answer.maxChunkBytes (max UPLOAD_CHUNK_SIZE (Javascript.ceilDiv n answer.maxChunks)) with
      hmin | hmin
    · rw [hc, hmin]
      exact hproduct
    · have hceil : Javascript.ceilDiv n answer.maxChunks ≤ c := by
        rw [hc, hmin]
        exact le_max_right _ _
      rw [Javascript.ceilDiv_eq hlt hchunks] at hceil
      have hdiv := Nat.lt_div_mul_add (a := n + answer.maxChunks - 1) hchunks
      have hmul := Nat.mul_le_mul_left answer.maxChunks hceil
      rw [mul_comm] at hdiv
      omega
  refine ⟨c, ?_, hcpos, hcle, hmany⟩
  have hcount : Javascript.ceilDiv n c ≤ answer.maxChunks := by
    rw [Javascript.ceilDiv_eq hlt hcpos, ← Nat.lt_succ_iff, Nat.div_lt_iff_lt_mul hcpos, Nat.succ_mul]
    omega
  have hsafe' : ∀ {m : ℕ}, m ≤ 2 ^ 53 - 1 → isSafeInteger m = true := fun h => decide_eq_true h
  unfold chunkPlan
  rw [Int.toNat_natCast, if_neg, if_neg, if_neg]
  · dsimp only
    rw [← hc, if_neg (by omega)]
  · rw [hsafe' (by omega), hsafe' (by omega)]
    simp only [Bool.not_true, Bool.false_or, Bool.or_false, Bool.or_eq_true, decide_eq_true_eq]
    omega
  · rw [hsafe' hsafe]
    simp only [Bool.not_true, Bool.false_or, decide_eq_true_eq]
    omega
  · rw [hsafe' (by omega)]
    simp only [Bool.not_true, Bool.or_false, decide_eq_true_eq]
    omega

/-- **A run of the queue goes by the plan**: once the limits of a file are there, it hashes the file or asks
for a session with the chunks of the plan, and without a plan it fails. -/
theorem limited_eq {Hash : Type} {c : Context Hash} {file : LocalFile} {job : Job Hash}
    (answer : Queue.UploadLimits) (hstopped : job.stopped c = false) (hpos : 0 < file.data.length)
    (hsafe : isSafeInteger file.data.length = true) :
    limited c file answer job = match chunkPlan answer file.data.length with
      | none => (job, .thrown .other)
      | some chunkSize =>
        if answer.wholeSha256Required || answer.ssd then hashWholeFile (.create chunkSize) job
        else begins c file (.create chunkSize) job := by
  have hlt : file.data.length < 2 ^ 53 := by
    have hle := of_decide_eq_true hsafe
    omega
  have hvalid : ((file.data.length : ℤ) ≤ 0 || !isSafeInteger file.data.length) = false := by
    rw [hsafe, Bool.not_true, Bool.or_false, decide_eq_false_iff_not]
    omega
  have hcast : decide ((file.data.length : ℤ) > answer.effectiveMaxFileBytes) =
      decide (file.data.length > answer.effectiveMaxFileBytes) := by
    simp only [gt_iff_lt, Nat.cast_lt]
  unfold limited chunkPlan
  dsimp only
  rw [Int.toNat_natCast, hstopped, hvalid, hcast]
  by_cases hlimit : (!isSafeInteger answer.effectiveMaxFileBytes ||
      decide (file.data.length > answer.effectiveMaxFileBytes)) = true
  · simp [hlimit]
  by_cases hlimits : (!isSafeInteger answer.maxChunkBytes || decide (answer.maxChunkBytes = 0) ||
      !isSafeInteger answer.maxChunks || decide (answer.maxChunks = 0)) = true
  · simp [hlimit, hlimits]
  have hzero : ¬ answer.maxChunkBytes = 0 ∧ ¬ answer.maxChunks = 0 := by
    simp only [Bool.or_eq_true, decide_eq_true_eq, not_or] at hlimits
    exact ⟨hlimits.1.1.2, hlimits.2⟩
  have hceil : Javascript.ceilDiv file.data.length answer.maxChunks =
      Queue.ceilDiv file.data.length answer.maxChunks := Javascript.ceilDiv_eq hlt (by omega)
  rw [hceil]
  set chunkSize := min answer.maxChunkBytes
    (max UPLOAD_CHUNK_SIZE (Queue.ceilDiv file.data.length answer.maxChunks)) with hchunk
  have hceil' : Javascript.ceilDiv file.data.length chunkSize = Queue.ceilDiv file.data.length chunkSize :=
    Javascript.ceilDiv_eq hlt (lt_min (by omega) (lt_max_of_lt_left (by decide)))
  rw [hceil', if_neg hlimit, if_neg hlimits, if_neg hlimit, if_neg hlimits]
  by_cases hmany : Queue.ceilDiv file.data.length chunkSize > answer.maxChunks
  · simp [hmany]
  · simp [hmany]

/-- A size with a plan is within the limit. -/
theorem plan_range {answer : Queue.UploadLimits} {size : ℤ} {c : ℕ} (h : chunkPlan answer size = some c) :
    0 < size ∧ size ≤ answer.effectiveMaxFileBytes := by
  unfold chunkPlan at h
  split_ifs at h with hsize hlimit
  simp only [Bool.or_eq_true, decide_eq_true_eq, not_or] at hsize hlimit
  omega

/-- **The limit that is told is the limit of the checks**: a size is within it exactly when the client
accepts the size and the server accepts it with the chunks of the client; and the server accepts no other
size, whatever the chunks are. -/
theorem limits_agree (env : Environment) (limits : HomeCloud.UploadLimits) (hlimits : configure env = some limits)
    (db : Db) (userId : ℕ) (size : ℤ) :
    ((∃ answer, Told limits db userId answer ∧ 0 < size ∧ size ≤ answer.effectiveMaxFileBytes) ↔
      ∃ answer chunkSize, Told limits db userId answer ∧
        chunkPlan answer.toUploadLimits size = some chunkSize ∧ Admitted limits db userId size chunkSize) ∧
    ∀ chunkSize, Admitted limits db userId size chunkSize →
      ∃ answer, Told limits db userId answer ∧ 0 < size ∧ size ≤ answer.effectiveMaxFileBytes := by
  have hconf := configured hlimits
  refine ⟨⟨?_, ?_⟩, ?_⟩
  · rintro ⟨answer, ⟨user, huser, htold⟩, hpos, hle⟩
    have htold' := htold
    obtain ⟨used, hused, hsum, hquota, rfl⟩ := uploadLimits_eq_ret.mp htold
    obtain ⟨n, rfl⟩ := Int.eq_ofNat_of_zero_le hpos.le
    have hn : 0 < n := by omega
    have hle' : n ≤ (limitsAnswer limits (db.reserved userId) user.storageQuota
      (used + db.reserved userId)).effectiveMaxFileBytes := by exact_mod_cast hle
    obtain ⟨hfile, htotal, hrest, hproduct, hsafe⟩ := le_effective_iff.mp hle'
    obtain ⟨c, hplan, hc, hchunk, hmany⟩ := exists_plan hn hle' (le_effective_iff.mp le_rfl).2.2.2.2
      hconf.chunk_pos hconf.chunk_le hconf.chunks_pos hconf.chunks_le hproduct
    have hchunk_le := hconf.chunk_le
    have hc' : c ≤ limits.maxChunkSize := hchunk
    refine ⟨_, c, ⟨user, huser, htold'⟩, hplan, user, (n, c, (n + c - 1) / c), huser, ?_, ?_⟩
    · refine validateSizes_eq_ret.mpr ⟨n, c, rfl, rfl, hn, hsafe, hc, hc', ?_, hfile, ?_, hmany, rfl⟩
      · unfold MAX_SAFE_INTEGER
        omega
      · omega
    · refine checkReservation_eq_ret.mpr ⟨used, hused, hquota, ?_, ?_, fun hmax => ?_⟩
      · dsimp only
        omega
      · dsimp only
        omega
      · dsimp only
        omega
  · rintro ⟨answer, c, htold, hplan, -⟩
    exact ⟨answer, htold, plan_range hplan⟩
  · rintro chunkSize ⟨user, sizes, huser, hsizes, hreserved⟩
    obtain ⟨n, c, rfl, rfl, hn, hsafe, hc, hchunk, -, hfile, htotal, hmany, rfl⟩ := validateSizes_eq_ret.mp hsizes
    obtain ⟨used, hused, hquota, hsum, hfit, hactive⟩ := checkReservation_eq_ret.mp hreserved
    dsimp only at hsum hfit hactive
    refine ⟨_, ⟨user, huser, uploadLimits_eq_ret.mpr ⟨used, hused, by omega, hquota, rfl⟩⟩, by omega, ?_⟩
    have hproduct := hmany.trans (Nat.mul_le_mul_left _ hchunk)
    have hle : n ≤ (limitsAnswer limits (db.reserved userId) user.storageQuota
        (used + db.reserved userId)).effectiveMaxFileBytes :=
      le_effective_iff.mpr ⟨hfile, by omega, by omega, hproduct, hsafe⟩
    exact_mod_cast hle

/-- A user with 1000 bytes left, and a file of 5 bytes. -/
theorem limits_agree_of_five : ∃ limits answer chunkSize, configure ⟨none, none, none, none, none⟩ = some limits ∧
    Told limits (Db.empty oneUser) 1 answer ∧ chunkPlan answer.toUploadLimits 5 = some chunkSize ∧
    Admitted limits (Db.empty oneUser) 1 5 chunkSize := by
  have hlimits : configure ⟨none, none, none, none, none⟩ =
      some ⟨1099511627776, 2199023255552, 52428800, 100000, 86400000⟩ := rfl
  have htold : Told ⟨1099511627776, 2199023255552, 52428800, 100000, 86400000⟩ (Db.empty oneUser) 1
      (limitsAnswer ⟨1099511627776, 2199023255552, 52428800, 100000, 86400000⟩ 0 1000 0) :=
    ⟨_, rfl, uploadLimits_eq_ret.mpr ⟨0, rfl, by decide, by decide, rfl⟩⟩
  have hle : 5 ≤ (limitsAnswer ⟨1099511627776, 2199023255552, 52428800, 100000, 86400000⟩ 0 1000 0).effectiveMaxFileBytes :=
    le_effective_iff.mpr (by decide)
  obtain ⟨answer, chunkSize, htold', hplan, hadmitted⟩ :=
    (limits_agree _ _ hlimits (Db.empty oneUser) 1 5).1.mp ⟨_, htold, by decide, by exact_mod_cast hle⟩
  exact ⟨_, answer, chunkSize, hlimits, htold', hplan, hadmitted⟩

end Agreement

end Limits

end HomeCloud
