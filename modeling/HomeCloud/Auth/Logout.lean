import HomeCloud.Auth.Respects
import HomeCloud.Auth.Service

/-!
# Logout

A login starts a chain of refresh tokens, and every exchange adds one to it. Logout takes any token of a chain and
follows the replacements to the last one. Expired tokens are deleted from time to time.

* `State`, `login`, `refresh`, `cleanupExpiredTokens`, `logout`: the operations, one after the other.
* `Linked`: a token is replaced by a later one of its chain, or it is the last one.
* `Sound`: what holds of the tokens; a token never expires before an older one of its chain.
* `lastReplacement_eq`: the loop finds the last token of a chain.
* **`logout_revokes_chain`**: after logout no token of the chain is usable, and all others are as before.
-/

namespace HomeCloud

namespace Logout

open Concurrent Relation

/-! ## The operations -/

/-- The tokens there are, and for each that was ever issued the chain it belongs to, named by its first token. -/
structure State where
  now : ℕ
  active : ℕ → Bool
  tokens : Table RefreshToken
  chain : ℕ → ℕ

def State.start (now : ℕ) (active : ℕ → Bool) : State := ⟨now, active, .empty, fun _ => 0⟩

section

variable (b : Bcrypt) (lifetime : ℕ)

/-- The token of the user that is presented. -/
def findRefreshToken (s : State) (userId presented : ℕ) : Option (ℕ × RefreshToken) :=
  s.tokens.find fun _ r => r.userId = userId && b.compare presented r.tokenHash

/-- What follows a password check. -/
def login (userId secret salt : ℕ) (s : State) : State :=
  { s with
    tokens := s.tokens.insert (newToken b lifetime userId s.now secret salt none 0)
    chain := Function.update s.chain s.tokens.bound s.tokens.bound }

def revokeUserTokens (userId : ℕ) (s : State) : State :=
  { s with tokens := revokeTokens s.tokens (s.tokens.select fun _ r => r.userId = userId && !r.revoked) }

/-- An exchange, which takes some time. -/
def refresh (userId : ℕ) (refreshToken : Option ℕ) (secret salt elapsed : ℕ) (s : State) : Except Err ℕ × State :=
  if !s.active userId then (.error (.unauthorized "Invalid user"), s)
  else
    match refreshToken.bind (findRefreshToken b s userId) with
    | none => (.error (.unauthorized "Invalid refresh token"), s)
    | some (id, storedToken) =>
      if storedToken.expiresAt < s.now then (.error (.unauthorized "Refresh token expired"), s)
      else if storedToken.revoked then (.error (.unauthorized "Refresh token was reused"), revokeUserTokens userId s)
      else
        (.ok secret,
          { s with
            now := s.now + elapsed
            tokens := rotateToken s.tokens id (newToken b lifetime userId (s.now + elapsed) secret salt (some id) 0)
            chain := Function.update s.chain s.tokens.bound (s.chain id) })

def cleanupExpiredTokens (s : State) : State :=
  { s with tokens := s.tokens.eraseAll (s.tokens.select fun _ r => r.expiresAt < s.now) }

/-- The loop of logout: the last token, or none where the chain breaks off or comes back. There is no answer when the
rounds do not suffice. -/
def lastReplacement (tokens : Table RefreshToken) (userId : ℕ) :
    (rounds : ℕ) → (visitedHashes : List ℕ) → ℕ × RefreshToken → Option (Option (ℕ × RefreshToken))
  | 0, _, _ => none
  | rounds + 1, visitedHashes, (id, storedToken) =>
    match storedToken.replacedBy with
    | none => some (some (id, storedToken))
    | some hash =>
      if hash ∈ visitedHashes then some none
      else
        match tokens.find fun _ r => r.tokenHash = hash && r.userId = userId with
        | none => some none
        | some replacement => lastReplacement tokens userId rounds (hash :: visitedHashes) replacement

def logout (rounds userId : ℕ) (refreshToken : Option ℕ) (s : State) : Option State :=
  match refreshToken.bind (findRefreshToken b s userId) with
  | none => some s
  | some initialToken =>
    (lastReplacement s.tokens userId rounds [] initialToken).map fun last =>
      match last with
      | none => s
      | some (id, storedToken) =>
        if storedToken.revoked then s else { s with tokens := revokeTokens s.tokens [id] }

/-- A hash that is told apart from those that are stored: it is not there, and no secret fits both. -/
structure Fresh (tokens : Table RefreshToken) (hash : ℕ) : Prop where
  unused : ∀ i r, tokens.get i = some r → r.tokenHash ≠ hash
  apart : ∀ i r secret, tokens.get i = some r → b.compare secret r.tokenHash = true → b.compare secret hash = false

/-- One operation, or time passes. -/
inductive Step : State → State → Prop
  | tick (s : State) (elapsed : ℕ) : Step s { s with now := s.now + elapsed }
  | activate (s : State) (active : ℕ → Bool) : Step s { s with active }
  | login (s : State) (userId secret salt : ℕ) : Fresh b s.tokens (b.hash secret salt) →
      Step s (login b lifetime userId secret salt s)
  | refresh (s : State) (userId : ℕ) (refreshToken : Option ℕ) (secret salt elapsed : ℕ) :
      Fresh b s.tokens (b.hash secret salt) → Step s (refresh b lifetime userId refreshToken secret salt elapsed s).2
  | cleanup (s : State) : Step s (cleanupExpiredTokens s)
  | logout (s s' : State) (rounds userId : ℕ) (refreshToken : Option ℕ) :
      logout b rounds userId refreshToken s = some s' → Step s s'

/-- What the operations make of a state without tokens. -/
def Reachable (s : State) : Prop := ∃ now active, ReflTransGen (Step b lifetime) (.start now active) s

end

/-! ## What holds of the tokens -/

/-- **A token is replaced by a later one of its chain, or it is the last one.** -/
def Linked (s : State) (i : ℕ) (r : RefreshToken) : Prop :=
  (r.replacedBy = none ∧ ∀ j, i < j → j < s.tokens.bound → s.chain j ≠ s.chain i) ∨
    (r.revoked = true ∧ ∃ j r', s.tokens.get j = some r' ∧ i < j ∧ s.chain j = s.chain i ∧ r.replacedBy = some r'.tokenHash)

/-- **What holds of the tokens**: the later ones of the chain of a stored token are stored too, and expire no earlier. -/
structure Sound (b : Bcrypt) (lifetime : ℕ) (s : State) : Prop where
  unique : ∀ i j r r', s.tokens.get i = some r → s.tokens.get j = some r' → r.tokenHash = r'.tokenHash → i = j
  apart : ∀ i j r r' secret, s.tokens.get i = some r → s.tokens.get j = some r' → b.compare secret r.tokenHash = true →
    b.compare secret r'.tokenHash = true → i = j
  expiry : ∀ i r, s.tokens.get i = some r → r.expiresAt ≤ s.now + lifetime
  named : ∀ j, j < s.tokens.bound → s.chain j ≤ j
  later : ∀ i j r, s.tokens.get i = some r → i < j → j < s.tokens.bound → s.chain j = s.chain i →
    ∃ r', s.tokens.get j = some r' ∧ r.expiresAt ≤ r'.expiresAt ∧ r'.userId = r.userId
  linked : ∀ i r, s.tokens.get i = some r → Linked s i r

section

variable {b : Bcrypt} {lifetime : ℕ} {s s' : State}

theorem sound_start (now : ℕ) (active : ℕ → Bool) : Sound b lifetime (.start now active) where
  unique i j r r' hi := by cases hi
  apart i j r r' secret hi := by cases hi
  expiry i r hi := by cases hi
  named j _ := Nat.zero_le j
  later i j r hi := by cases hi
  linked i r hi := by cases hi

/-- Time passes, or users are activated. -/
theorem Sound.of_eq (h : Sound b lifetime s) (htokens : s'.tokens = s.tokens) (hchain : s'.chain = s.chain)
    (hnow : s.now ≤ s'.now) : Sound b lifetime s' where
  unique := htokens ▸ h.unique
  apart := htokens ▸ h.apart
  expiry i r hi := (h.expiry i r (htokens ▸ hi)).trans (Nat.add_le_add_right hnow lifetime)
  named := htokens ▸ hchain ▸ h.named
  later := htokens ▸ hchain ▸ h.later
  linked i r hi := by
    have hlinked := h.linked i r (htokens ▸ hi)
    unfold Linked at hlinked ⊢
    rw [htokens, hchain]
    exact hlinked

/-- Some tokens are revoked. -/
theorem Sound.revoke (h : Sound b lifetime s) (ids : List ℕ) :
    Sound b lifetime { s with tokens := revokeTokens s.tokens ids } := by
  have hback {i : ℕ} {r : RefreshToken} (hi : (revokeTokens s.tokens ids).get i = some r) :
      ∃ old, s.tokens.get i = some old ∧ r.tokenHash = old.tokenHash ∧ r.expiresAt = old.expiresAt ∧
        r.userId = old.userId ∧ r.replacedBy = old.replacedBy ∧ (old.revoked = true → r.revoked = true) := by
    rw [get_revokeTokens, Option.map_eq_some_iff] at hi
    obtain ⟨old, hold, rfl⟩ := hi
    refine ⟨old, hold, ?_⟩
    split_ifs
    · exact ⟨rfl, rfl, rfl, rfl, fun _ => rfl⟩
    · exact ⟨rfl, rfl, rfl, rfl, id⟩
  have hforth {i : ℕ} {old : RefreshToken} (hi : s.tokens.get i = some old) :
      ∃ r, (revokeTokens s.tokens ids).get i = some r ∧ r.tokenHash = old.tokenHash ∧ r.expiresAt = old.expiresAt ∧
        r.userId = old.userId := by
    refine ⟨_, by rw [get_revokeTokens, hi]; rfl, ?_⟩
    split_ifs <;> exact ⟨rfl, rfl, rfl⟩
  constructor
  · intro i j r r' hi hj hhash
    obtain ⟨old, hold, hh, -⟩ := hback hi
    obtain ⟨old', hold', hh', -⟩ := hback hj
    exact h.unique i j old old' hold hold' (hh.symm.trans (hhash.trans hh'))
  · intro i j r r' secret hi hj hc hc'
    obtain ⟨old, hold, hh, -⟩ := hback hi
    obtain ⟨old', hold', hh', -⟩ := hback hj
    exact h.apart i j old old' secret hold hold' (hh ▸ hc) (hh' ▸ hc')
  · intro i r hi
    obtain ⟨old, hold, -, hexp, -⟩ := hback hi
    exact hexp ▸ h.expiry i old hold
  · exact h.named
  · intro i j r hi hlt hbound hchain
    obtain ⟨old, hold, -, hexp, huser, -⟩ := hback hi
    obtain ⟨old', hold', hle, huser'⟩ := h.later i j old hold hlt hbound hchain
    obtain ⟨r', hr', -, hexp', huser''⟩ := hforth hold'
    exact ⟨r', hr', by rw [hexp, hexp']; exact hle, by rw [huser, huser'', huser']⟩
  · intro i r hi
    obtain ⟨old, hold, -, -, -, hreplaced, hrevoked⟩ := hback hi
    rcases h.linked i old hold with ⟨hnone, hlast⟩ | ⟨hrev, j, r', hj, hlt, hchain, hhash⟩
    · exact .inl ⟨hreplaced.trans hnone, hlast⟩
    · obtain ⟨r'', hr'', hhash', -⟩ := hforth hj
      exact .inr ⟨hrevoked hrev, j, r'', hr'', hlt, hchain, by rw [hreplaced, hhash, hhash']⟩

/-- The expired tokens are deleted. -/
theorem Sound.cleanup (h : Sound b lifetime s) : Sound b lifetime (cleanupExpiredTokens s) := by
  have hget {i : ℕ} {r : RefreshToken} : (cleanupExpiredTokens s).tokens.get i = some r ↔
      s.tokens.get i = some r ∧ s.now ≤ r.expiresAt := by
    unfold cleanupExpiredTokens
    dsimp only
    rw [Table.get_eraseAll_eq_some, Table.mem_select]
    constructor
    · rintro ⟨hkept, hi⟩
      refine ⟨hi, not_lt.mp fun hlt => hkept ⟨r, hi, decide_eq_true hlt⟩⟩
    · rintro ⟨hi, hle⟩
      refine ⟨?_, hi⟩
      rintro ⟨r', hr', hlt⟩
      obtain rfl := Option.some.inj (hi.symm.trans hr')
      exact absurd (of_decide_eq_true hlt) (not_lt.mpr hle)
  constructor
  · exact fun i j r r' hi hj => h.unique i j r r' (hget.mp hi).1 (hget.mp hj).1
  · exact fun i j r r' secret hi hj => h.apart i j r r' secret (hget.mp hi).1 (hget.mp hj).1
  · exact fun i r hi => h.expiry i r (hget.mp hi).1
  · exact h.named
  · intro i j r hi hlt hbound hchain
    obtain ⟨hi, hle⟩ := hget.mp hi
    obtain ⟨r', hr', hexp, huser⟩ := h.later i j r hi hlt hbound hchain
    exact ⟨r', hget.mpr ⟨hr', hle.trans hexp⟩, hexp, huser⟩
  · intro i r hi
    obtain ⟨hi, hle⟩ := hget.mp hi
    rcases h.linked i r hi with hlast | ⟨hrev, j, r', hj, hlt, hchain, hhash⟩
    · exact .inl hlast
    · -- The replacement does not expire before the token that is kept.
      obtain ⟨r'', hr'', hexp, -⟩ := h.later i j r hi hlt (Table.lt_bound hj) hchain
      obtain rfl := Option.some.inj (hj.symm.trans hr'')
      exact .inr ⟨hrev, j, r', hget.mpr ⟨hj, hle.trans hexp⟩, hlt, hchain, hhash⟩

/-- A token of its own chain. -/
theorem Sound.login (h : Sound b lifetime s) {userId secret salt : ℕ} (hfresh : Fresh b s.tokens (b.hash secret salt)) :
    Sound b lifetime (login b lifetime userId secret salt s) := by
  have hget {i : ℕ} {r : RefreshToken} (hi : (Logout.login b lifetime userId secret salt s).tokens.get i = some r) :
      (i = s.tokens.bound ∧ r = newToken b lifetime userId s.now secret salt none 0) ∨ s.tokens.get i = some r := by
    change (s.tokens.insert _).get i = some r at hi
    rw [Table.get_insert] at hi
    split_ifs at hi with hnew
    · exact .inl ⟨hnew, (Option.some.inj hi).symm⟩
    · exact .inr hi
  have hbound : (Logout.login b lifetime userId secret salt s).tokens.bound = s.tokens.bound + 1 :=
    max_eq_right (Nat.le_succ _)
  have hnew : (Logout.login b lifetime userId secret salt s).chain s.tokens.bound = s.tokens.bound := Function.update_self ..
  have hold {j : ℕ} (hj : j < s.tokens.bound) : (Logout.login b lifetime userId secret salt s).chain j = s.chain j :=
    Function.update_of_ne hj.ne ..
  have hapart {j : ℕ} (hj : j < s.tokens.bound) : s.chain j ≠ s.tokens.bound := ((h.named j hj).trans_lt hj).ne
  constructor
  · intro i j r r' hi hj hhash
    rcases hget hi with ⟨rfl, rfl⟩ | hi <;> rcases hget hj with ⟨rfl, rfl⟩ | hj
    · rfl
    · exact absurd hhash.symm (hfresh.unused j r' hj)
    · exact absurd hhash (hfresh.unused i r hi)
    · exact h.unique i j r r' hi hj hhash
  · intro i j r r' secret' hi hj hc hc'
    rcases hget hi with ⟨rfl, rfl⟩ | hi <;> rcases hget hj with ⟨rfl, rfl⟩ | hj
    · rfl
    · exact absurd hc (Bool.eq_false_iff.mp (hfresh.apart j r' secret' hj hc'))
    · exact absurd hc' (Bool.eq_false_iff.mp (hfresh.apart i r secret' hi hc))
    · exact h.apart i j r r' secret' hi hj hc hc'
  · intro i r hi
    rcases hget hi with ⟨-, rfl⟩ | hi
    · exact le_rfl
    · exact h.expiry i r hi
  · intro j hj
    rw [hbound] at hj
    rcases Nat.lt_succ_iff_lt_or_eq.mp hj with hlt | rfl
    · rw [hold hlt]
      exact h.named j hlt
    · rw [hnew]
  · intro i j r hi hlt hj hchain
    rw [hbound] at hj
    rcases hget hi with ⟨rfl, -⟩ | hi
    · omega
    · have hilt := Table.lt_bound hi
      rw [hold hilt] at hchain
      rcases Nat.lt_succ_iff_lt_or_eq.mp hj with hjlt | rfl
      · rw [hold hjlt] at hchain
        obtain ⟨r', hr', hexp, huser⟩ := h.later i j r hi hlt hjlt hchain
        exact ⟨r', Table.get_insert_of_some hr', hexp, huser⟩
      · exact absurd (hnew.symm.trans hchain).symm (hapart hilt)
  · intro i r hi
    rcases hget hi with ⟨rfl, rfl⟩ | hi
    · refine .inl ⟨rfl, fun j hlt hj => ?_⟩
      rw [hbound] at hj
      omega
    · have hilt := Table.lt_bound hi
      rcases h.linked i r hi with ⟨hnone, hlast⟩ | ⟨hrev, j, r', hj, hlt, hchain, hhash⟩
      · refine .inl ⟨hnone, fun j hlt hj => ?_⟩
        rw [hbound] at hj
        rw [hold hilt]
        rcases Nat.lt_succ_iff_lt_or_eq.mp hj with hjlt | rfl
        · rw [hold hjlt]
          exact hlast j hlt hjlt
        · rw [hnew]
          exact (hapart hilt).symm
      · refine .inr ⟨hrev, j, r', Table.get_insert_of_some hj, hlt, ?_, hhash⟩
        rw [hold hilt, hold (Table.lt_bound hj), hchain]

/-- A token that is live is the last one of its chain. -/
theorem Sound.last_of_live (h : Sound b lifetime s) {i : ℕ} {r : RefreshToken} (hi : s.tokens.get i = some r)
    (hlive : r.revoked = false) : ∀ j, i < j → j < s.tokens.bound → s.chain j ≠ s.chain i := by
  rcases h.linked i r hi with ⟨-, hlast⟩ | ⟨hrev, -⟩
  · exact hlast
  · rw [hlive] at hrev
    cases hrev

/-- A live token is exchanged for one of its chain. -/
theorem Sound.rotate (h : Sound b lifetime s) {userId secret salt elapsed id : ℕ} {stored : RefreshToken}
    (hfresh : Fresh b s.tokens (b.hash secret salt)) (hid : s.tokens.get id = some stored) (huser : stored.userId = userId)
    (hlive : stored.revoked = false) :
    Sound b lifetime { s with
      now := s.now + elapsed
      tokens := rotateToken s.tokens id (newToken b lifetime userId (s.now + elapsed) secret salt (some id) 0)
      chain := Function.update s.chain s.tokens.bound (s.chain id) } := by
  have hidlt := Table.lt_bound hid
  have hlast := h.last_of_live hid hlive
  generalize htoken : newToken b lifetime userId (s.now + elapsed) secret salt (some id) 0 = token
  have htokenHash : token.tokenHash = b.hash secret salt := htoken ▸ rfl
  have htokenExpiry : token.expiresAt = s.now + elapsed + lifetime := htoken ▸ rfl
  have htokenUser : token.userId = userId := htoken ▸ rfl
  have htokenNone : token.replacedBy = none := htoken ▸ rfl
  have hget {i : ℕ} {r : RefreshToken} (hi : (rotateToken s.tokens id token).get i = some r) :
      (i = s.tokens.bound ∧ r = token) ∨ ∃ old, s.tokens.get i = some old ∧ r.tokenHash = old.tokenHash ∧
        r.expiresAt = old.expiresAt ∧ r.userId = old.userId ∧
        ((i ≠ id ∧ r = old) ∨ (i = id ∧ r.revoked = true ∧ r.replacedBy = some token.tokenHash)) := by
    rcases get_rotateToken_eq_some.mp hi with hnew | ⟨old, hold, rfl⟩
    · exact .inl hnew
    · refine .inr ⟨old, hold, ?_⟩
      split_ifs with hsame
      · exact ⟨rfl, rfl, rfl, .inr ⟨hsame, rfl, rfl⟩⟩
      · exact ⟨rfl, rfl, rfl, .inl ⟨hsame, rfl⟩⟩
  have hforth {i : ℕ} {old : RefreshToken} (hi : s.tokens.get i = some old) :
      ∃ r, (rotateToken s.tokens id token).get i = some r ∧ r.tokenHash = old.tokenHash ∧ r.expiresAt = old.expiresAt ∧
        r.userId = old.userId := by
    refine ⟨_, get_rotateToken_eq_some.mpr (.inr ⟨old, hi, rfl⟩), ?_⟩
    split_ifs <;> exact ⟨rfl, rfl, rfl⟩
  have hget' : (rotateToken s.tokens id token).get s.tokens.bound = some token :=
    get_rotateToken_eq_some.mpr (.inl ⟨rfl, rfl⟩)
  have hbound : (rotateToken s.tokens id token).bound = s.tokens.bound + 1 := max_eq_right (Nat.le_succ _)
  have hnew : Function.update s.chain s.tokens.bound (s.chain id) s.tokens.bound = s.chain id := Function.update_self ..
  have hold {j : ℕ} (hj : j < s.tokens.bound) : Function.update s.chain s.tokens.bound (s.chain id) j = s.chain j :=
    Function.update_of_ne hj.ne ..
  constructor
  · intro i j r r' hi hj hhash
    rcases hget hi with ⟨rfl, rfl⟩ | ⟨old, ho, hh, -⟩ <;> rcases hget hj with ⟨rfl, rfl⟩ | ⟨old', ho', hh', -⟩
    · rfl
    · exact absurd (hh'.symm.trans (hhash.symm.trans htokenHash)) (hfresh.unused j old' ho')
    · exact absurd (hh.symm.trans (hhash.trans htokenHash)) (hfresh.unused i old ho)
    · exact h.unique i j old old' ho ho' (hh.symm.trans (hhash.trans hh'))
  · intro i j r r' secret' hi hj hc hc'
    rcases hget hi with ⟨rfl, rfl⟩ | ⟨old, ho, hh, -⟩ <;> rcases hget hj with ⟨rfl, rfl⟩ | ⟨old', ho', hh', -⟩
    · rfl
    · exact absurd (htokenHash ▸ hc) (Bool.eq_false_iff.mp (hfresh.apart j old' secret' ho' (hh' ▸ hc')))
    · exact absurd (htokenHash ▸ hc') (Bool.eq_false_iff.mp (hfresh.apart i old secret' ho (hh ▸ hc)))
    · exact h.apart i j old old' secret' ho ho' (hh ▸ hc) (hh' ▸ hc')
  · intro i r hi
    rcases hget hi with ⟨-, rfl⟩ | ⟨old, ho, -, hexp, -⟩
    · exact htokenExpiry.le
    · rw [hexp]
      exact (h.expiry i old ho).trans (Nat.add_le_add_right (Nat.le_add_right _ _) _)
  · intro j hj
    change j < (rotateToken s.tokens id token).bound at hj
    rw [hbound] at hj
    rcases Nat.lt_succ_iff_lt_or_eq.mp hj with hlt | rfl
    · dsimp only
      rw [hold hlt]
      exact h.named j hlt
    · dsimp only
      rw [hnew]
      exact (h.named id hidlt).trans hidlt.le
  · intro i j r hi hlt hj hchain
    change j < (rotateToken s.tokens id token).bound at hj
    dsimp only at hchain
    rw [hbound] at hj
    rcases hget hi with ⟨rfl, -⟩ | ⟨old, ho, -, hexp, huser', -⟩
    · omega
    · have hilt := Table.lt_bound ho
      rw [hold hilt] at hchain
      rcases Nat.lt_succ_iff_lt_or_eq.mp hj with hjlt | rfl
      · rw [hold hjlt] at hchain
        obtain ⟨r', hr', hle, hsame⟩ := h.later i j old ho hlt hjlt hchain
        obtain ⟨r'', hr'', -, hexp'', huser''⟩ := hforth hr'
        exact ⟨r'', hr'', by rw [hexp, hexp'']; exact hle, by rw [huser', huser'', hsame]⟩
      · -- The token that is exchanged is of this chain, and not before `i`.
        rw [hnew] at hchain
        have howner : old.userId = userId := by
          rcases lt_trichotomy i id with hless | rfl | hmore
          · obtain ⟨r', hr', -, hsame⟩ := h.later i id old ho hless hidlt hchain
            obtain rfl := Option.some.inj (hid.symm.trans hr')
            rw [← hsame, huser]
          · obtain rfl := Option.some.inj (hid.symm.trans ho)
            exact huser
          · exact absurd hchain.symm (hlast i hmore hilt)
        refine ⟨token, hget', ?_, by rw [htokenUser, huser', howner]⟩
        rw [hexp, htokenExpiry]
        exact (h.expiry i old ho).trans (Nat.add_le_add_right (Nat.le_add_right _ _) _)
  · intro i r hi
    rcases hget hi with ⟨rfl, rfl⟩ | ⟨old, ho, -, -, -, hcase⟩
    · refine .inl ⟨htokenNone, fun j hlt hj => ?_⟩
      change j < (rotateToken s.tokens id r).bound at hj
      rw [hbound] at hj
      omega
    · have hilt := Table.lt_bound ho
      rcases hcase with ⟨hne, rfl⟩ | ⟨rfl, hrev, hreplaced⟩
      · rcases h.linked i r ho with ⟨hnone, hlast'⟩ | ⟨hrev, j, r', hj, hlt, hchain, hhash⟩
        · refine .inl ⟨hnone, fun j hlt hj => ?_⟩
          change j < (rotateToken s.tokens id token).bound at hj
          dsimp only
          rw [hbound] at hj
          rw [hold hilt]
          rcases Nat.lt_succ_iff_lt_or_eq.mp hj with hjlt | rfl
          · rw [hold hjlt]
            exact hlast' j hlt hjlt
          · rw [hnew]
            rcases lt_or_gt_of_ne hne with hless | hmore
            · exact hlast' id hless hidlt
            · exact (hlast i hmore hilt).symm
        · obtain ⟨r'', hr'', hhash', -⟩ := hforth hj
          refine .inr ⟨hrev, j, r'', hr'', hlt, ?_, by rw [hhash, hhash']⟩
          dsimp only
          rw [hold hilt, hold (Table.lt_bound hj), hchain]
      · refine .inr ⟨hrev, s.tokens.bound, token, hget', hilt, ?_, hreplaced⟩
        dsimp only
        rw [hnew, hold hilt]

theorem findRefreshToken_some {userId presented i : ℕ} {r : RefreshToken}
    (h : findRefreshToken b s userId presented = some (i, r)) :
    s.tokens.get i = some r ∧ r.userId = userId ∧ b.compare presented r.tokenHash = true := by
  obtain ⟨hi, hmatch⟩ := Table.find_some h
  rw [Bool.and_eq_true, decide_eq_true_eq] at hmatch
  exact ⟨hi, hmatch.1, hmatch.2⟩

/-- **Every operation keeps it.** -/
theorem Sound.step (h : Sound b lifetime s) (hstep : Step b lifetime s s') : Sound b lifetime s' := by
  cases hstep with
  | tick elapsed => exact h.of_eq rfl rfl (Nat.le_add_right _ _)
  | activate active => exact h.of_eq rfl rfl le_rfl
  | login userId secret salt hfresh => exact h.login hfresh
  | refresh userId refreshToken secret salt elapsed hfresh =>
    unfold Logout.refresh
    split_ifs
    · exact h
    · split
      next => exact h
      next id storedToken hfound =>
        split_ifs with hexpired hrevoked
        · exact h
        · exact h.revoke _
        · obtain ⟨presented, -, hfind⟩ := Option.bind_eq_some_iff.mp hfound
          obtain ⟨hid, huser, -⟩ := findRefreshToken_some hfind
          exact h.rotate hfresh hid huser (Bool.eq_false_iff.mpr hrevoked)
  | cleanup => exact h.cleanup
  | logout _ rounds userId refreshToken hlogout =>
    unfold Logout.logout at hlogout
    split at hlogout
    next =>
      obtain rfl := Option.some.inj hlogout
      exact h
    next =>
      obtain ⟨last, -, rfl⟩ := Option.map_eq_some_iff.mp hlogout
      split
      next => exact h
      next =>
        split_ifs
        · exact h
        · exact h.revoke _

theorem sound_of_reachable (h : Reachable b lifetime s) : Sound b lifetime s := by
  obtain ⟨now, active, hruns⟩ := h
  induction hruns with
  | refl => exact sound_start now active
  | tail _ hstep ih => exact ih.step hstep

/-! ## What logout does -/

/-- A token that a refresh would take. -/
def Usable (s : State) (i : ℕ) : Prop := ∃ r, s.tokens.get i = some r ∧ r.revoked = false ∧ s.now ≤ r.expiresAt

/-- The token `i` was replaced by `j`. -/
def Replaced (s : State) (i j : ℕ) : Prop :=
  ∃ r r', s.tokens.get i = some r ∧ s.tokens.get j = some r' ∧ r.replacedBy = some r'.tokenHash

/-- **The loop finds the last token of the chain**, in at most as many rounds as there were tokens. -/
theorem lastReplacement_eq (h : Sound b lifetime s) {userId : ℕ} : ∀ (rounds : ℕ) {visitedHashes : List ℕ} {i : ℕ}
    {r : RefreshToken}, s.tokens.get i = some r → r.userId = userId → s.tokens.bound ≤ rounds + i →
    (∀ hash ∈ visitedHashes, ∃ k r', s.tokens.get k = some r' ∧ r'.tokenHash = hash ∧ k ≤ i) →
      ∃ last r', lastReplacement s.tokens userId rounds visitedHashes (i, r) = some (some (last, r')) ∧
        s.tokens.get last = some r' ∧ s.chain last = s.chain i ∧
        ∀ j, last < j → j < s.tokens.bound → s.chain j ≠ s.chain last
  | 0, _, i, r, hi, _, hrounds, _ => by
    have := Table.lt_bound hi
    omega
  | rounds + 1, visitedHashes, i, r, hi, huser, hrounds, hvisited => by
    rcases h.linked i r hi with ⟨hnone, hlast⟩ | ⟨-, j, r', hj, hlt, hchain, hhash⟩
    · exact ⟨i, r, by rw [lastReplacement, hnone], hi, rfl, hlast⟩
    · have hnew : r'.tokenHash ∉ visitedHashes := by
        intro hmem
        obtain ⟨k, rk, hk, hsame, hle⟩ := hvisited _ hmem
        have := h.unique k j rk r' hk hj hsame
        omega
      have hlater := h.later i j r hi hlt (Table.lt_bound hj) hchain
      obtain ⟨r'', hr'', -, huser'⟩ := hlater
      obtain rfl := Option.some.inj (hj.symm.trans hr'')
      have hfind : (s.tokens.find fun _ q => q.tokenHash = r'.tokenHash && q.userId = userId) = some (j, r') := by
        cases hfound : s.tokens.find fun _ q => q.tokenHash = r'.tokenHash && q.userId = userId with
        | none =>
          have hfalse := Table.find_none hfound hj
          simp [huser', huser] at hfalse
        | some found =>
          obtain ⟨k, q⟩ := found
          obtain ⟨hk, hmatch⟩ := Table.find_some hfound
          rw [Bool.and_eq_true, decide_eq_true_eq] at hmatch
          obtain rfl := h.unique k j q r' hk hj hmatch.1
          obtain rfl := Option.some.inj (hj.symm.trans hk)
          rfl
      have hvisited' : ∀ hash ∈ r'.tokenHash :: visitedHashes,
          ∃ k q, s.tokens.get k = some q ∧ q.tokenHash = hash ∧ k ≤ j := by
        refine List.forall_mem_cons.mpr ⟨⟨j, r', hj, rfl, le_rfl⟩, fun hash hmem => ?_⟩
        obtain ⟨k, q, hk, hsame, hle⟩ := hvisited hash hmem
        exact ⟨k, q, hk, hsame, hle.trans hlt.le⟩
      obtain ⟨last, q, hloop, hget, hsame, hend⟩ :=
        lastReplacement_eq h rounds hj (huser'.trans huser) (by omega) hvisited'
      refine ⟨last, q, ?_, hget, hsame.trans hchain, hend⟩
      rw [lastReplacement, hhash]
      dsimp only
      rw [if_neg hnew, hfind]
      exact hloop

/-- The last token of a chain is revoked, and the others of the chain were replaced. -/
theorem revoked_of_chain (h : Sound b lifetime s) {last j : ℕ} {r : RefreshToken} (hj : s.tokens.get j = some r)
    (hchain : s.chain j = s.chain last) (hbound : last < s.tokens.bound)
    (hend : ∀ k, last < k → k < s.tokens.bound → s.chain k ≠ s.chain last) : j = last ∨ r.revoked = true := by
  rcases h.linked j r hj with ⟨-, hlast⟩ | ⟨hrev, -⟩
  · rcases lt_trichotomy j last with hless | heq | hmore
    · exact absurd hchain.symm (hlast last hless hbound)
    · exact .inl heq
    · exact absurd hchain (hend j hmore (Table.lt_bound hj))
  · exact .inr hrev

/-- A token that was replaced is of the chain of its replacement. -/
theorem chain_of_replaced (h : Sound b lifetime s) {i j : ℕ} (hreplaced : Replaced s i j) : s.chain j = s.chain i := by
  obtain ⟨r, r', hi, hj, hhash⟩ := hreplaced
  rcases h.linked i r hi with ⟨hnone, -⟩ | ⟨-, k, q, hk, -, hchain, hhash'⟩
  · rw [hnone] at hhash
    cases hhash
  · obtain rfl := h.unique k j q r' hk hj (Option.some.inj (hhash'.symm.trans hhash))
    exact hchain

/-- **Logout revokes the live end of a chain.** It ends for every token of a chain that is presented, and then no token of
the chain is usable, in particular none that is reached through replacements; all other tokens are as before. -/
theorem logout_revokes_chain (h : Reachable b lifetime s) {userId presented i : ℕ} {r : RefreshToken}
    (hi : s.tokens.get i = some r) (huser : r.userId = userId) (hpresented : b.compare presented r.tokenHash = true) :
    ∃ enough, ∀ rounds, enough ≤ rounds → ∃ s', logout b rounds userId (some presented) s = some s' ∧
      (∀ j, ReflTransGen (Replaced s') i j → ¬Usable s' j) ∧ (∀ j, s.chain j = s.chain i → ¬Usable s' j) ∧
      ∀ j, s.chain j ≠ s.chain i → s'.tokens.get j = s.tokens.get j := by
  have hsound := sound_of_reachable h
  have hfind : findRefreshToken b s userId presented = some (i, r) := by
    cases hfound : findRefreshToken b s userId presented with
    | none =>
      have hfalse := Table.find_none hfound hi
      simp [huser, hpresented] at hfalse
    | some found =>
      obtain ⟨k, q⟩ := found
      obtain ⟨hk, -, hcompare⟩ := findRefreshToken_some hfound
      obtain rfl := hsound.apart k i q r presented hk hi hcompare hpresented
      obtain rfl := Option.some.inj (hi.symm.trans hk)
      rfl
  refine ⟨s.tokens.bound, fun rounds hrounds => ?_⟩
  obtain ⟨last, q, hloop, hlast, hchain, hend⟩ := lastReplacement_eq hsound rounds hi huser (by omega)
    fun _ hmem => absurd hmem List.not_mem_nil
  have hlogout : logout b rounds userId (some presented) s =
      some (if q.revoked then s else { s with tokens := revokeTokens s.tokens [last] }) := by
    unfold logout
    rw [Option.bind_some, hfind]
    dsimp only
    rw [hloop]
    rfl
  have hafter : Sound b lifetime (if q.revoked then s else { s with tokens := revokeTokens s.tokens [last] }) := by
    split_ifs
    · exact hsound
    · exact hsound.revoke [last]
  refine ⟨_, hlogout, ?_⟩
  have hunusable : ∀ j, s.chain j = s.chain i →
      ¬Usable (if q.revoked then s else { s with tokens := revokeTokens s.tokens [last] }) j := by
    rintro j hj ⟨rj, hrj, hlive, -⟩
    split_ifs at hrj with hrevoked
    · rcases revoked_of_chain hsound hrj (hj.trans hchain.symm) (Table.lt_bound hlast) hend with rfl | hrev
      · obtain rfl := Option.some.inj (hlast.symm.trans hrj)
        rw [hrevoked] at hlive
        cases hlive
      · rw [hlive] at hrev
        cases hrev
    · dsimp only at hrj
      rw [get_revokeTokens, Option.map_eq_some_iff] at hrj
      obtain ⟨old, hold, rfl⟩ := hrj
      split_ifs at hlive with hmem
      rcases revoked_of_chain hsound hold (hj.trans hchain.symm) (Table.lt_bound hlast) hend with rfl | hrev
      · exact hmem (List.mem_singleton_self _)
      · rw [hlive] at hrev
        cases hrev
  have hsame : (if q.revoked then s else { s with tokens := revokeTokens s.tokens [last] }).chain = s.chain := by
    split_ifs <;> rfl
  refine ⟨fun j hreach => ?_, hunusable, fun j hj => ?_⟩
  · refine hunusable j ?_
    induction hreach with
    | refl => rfl
    | tail _ hstep ih =>
      have hnext := chain_of_replaced hafter hstep
      rw [hsame] at hnext
      exact hnext.trans ih
  · split_ifs
    · rfl
    · have hne : j ∉ [last] := fun hmem => hj (List.mem_singleton.mp hmem ▸ hchain)
      dsimp only
      rw [get_revokeTokens]
      simp [hne]

end

/-! ## A chain of two -/

/-- Hashes that are told apart. -/
def plainBcrypt : Bcrypt := ⟨fun secret _ => secret, fun secret hash => secret = hash⟩

def oneToken : State := login plainBcrypt 100 7 11 0 (.start 5 fun _ => true)

def twoTokens : State := (refresh plainBcrypt 100 7 (some 11) 12 0 1 oneToken).2

theorem reachable_twoTokens : Reachable plainBcrypt 100 twoTokens := by
  have hget {i : ℕ} {r : RefreshToken} (hi : oneToken.tokens.get i = some r) : r.tokenHash = 11 := by
    change (Table.insert _ _).get i = some r at hi
    rw [Table.get_insert] at hi
    split_ifs at hi
    · obtain rfl := Option.some.inj hi
      rfl
    · cases hi
  refine ⟨5, fun _ => true, .tail (.single (.login _ 7 11 0 ⟨fun i r hi => ?_, fun i r secret hi => ?_⟩))
    (.refresh oneToken 7 (some 11) 12 0 1 ⟨fun i r hi => ?_, fun i r secret hi hc => ?_⟩)⟩
  · cases hi
  · cases hi
  · rw [hget hi]
    decide
  · rw [hget hi] at hc
    obtain rfl := of_decide_eq_true hc
    decide

/-- The token that was exchanged is presented, and its replacement is not usable any more. -/
theorem logout_revokes_chain_of_two :
    ∃ enough, ∀ rounds, enough ≤ rounds → ∃ s', logout plainBcrypt rounds 7 (some 11) twoTokens = some s' ∧ ¬Usable s' 2 := by
  have hi : twoTokens.tokens.get 1 = some ⟨11, some 12, true, 105, 7, none, 0⟩ := by decide
  have hpresented : plainBcrypt.compare 11 11 = true := by decide
  obtain ⟨enough, hlogout⟩ := logout_revokes_chain reachable_twoTokens hi rfl hpresented
  refine ⟨enough, fun rounds hrounds => ?_⟩
  obtain ⟨s', hs', -, hchain, -⟩ := hlogout rounds hrounds
  exact ⟨s', hs', hchain 2 (by decide)⟩

end Logout

end HomeCloud
