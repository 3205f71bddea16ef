import HomeCloud.System

/-!
# Families of refresh tokens

A token is exchanged at most once. Once a user has been signed out everywhere, what was issued before
is of no use, as long as no new token is committed while the tokens are being revoked, or after that
on the ground of an earlier password check.

* `ExchangedOnce`, `SignedOut`: what holds of the tokens.
* `IssuesCurrent`: the condition on the commits that add a token.
* `SignedOut.effect`: one step; **`families_of_issuesCurrent`**: every run.
-/

namespace HomeCloud

open Concurrent

/-! ## Exchanges -/

/-- No two tokens were issued for the same one. -/
def ExchangedOnce (db : Db) : Prop :=
  ∀ i j r r' p, db.refreshTokens.get i = some r → db.refreshTokens.get j = some r' →
    r.parent = some p → r'.parent = some p → i = j

/-- A token for which another one was issued is revoked. -/
def ExchangedRevoked (db : Db) : Prop :=
  ∀ i r p, db.refreshTokens.get i = some r → r.parent = some p →
    ∃ q, db.refreshTokens.get p = some q ∧ q.revoked = true

section

variable {cond : Instr → ℕ → World → Prop} {t : ℕ} {w : World} {tx : Tx}

/-- What a commit does to the tokens: nothing, one more after a password check or an exchange, or
some are revoked. -/
theorem Commits.tokens (hc : Commits cond t w tx) :
    (tx.apply w.db).refreshTokens = w.db.refreshTokens ∨
    (∃ token, tx = .auth (.addToken token) ∧ token.parent = none ∧
      (tx.apply w.db).refreshTokens = w.db.refreshTokens.insert token) ∨
    (∃ id token old, tx = .auth (.rotate id token) ∧ RotateOk t w id token old ∧
      (tx.apply w.db).refreshTokens = rotateToken w.db.refreshTokens id token) ∨
    ∃ ids, tx = .auth (.revoke ids) ∧
      (tx.apply w.db).refreshTokens = revokeTokens w.db.refreshTokens ids := by
  have hok := hc.ok
  cases tx with
  | none => exact .inl rfl
  | uploads tx => cases tx <;> exact .inl rfl
  | journal tx => cases tx <;> exact .inl rfl
  | sharing tx => cases tx <;> exact .inl rfl
  | files tx =>
    cases tx with
    | trashFile id patch =>
      left
      simp only [Tx.apply, FilesTx.apply]
      split <;> rfl
    | _ => exact .inl rfl
  | auth tx =>
    cases tx with
    | saveUser id patch => exact .inl rfl
    | addToken token => exact .inr (.inl ⟨token, rfl, hok, rfl⟩)
    | rotate id token =>
      obtain ⟨old, ho⟩ := hok
      exact .inr (.inr (.inl ⟨id, token, old, rfl, ho, rfl⟩))
    | revoke ids => exact .inr (.inr (.inr ⟨ids, rfl, rfl⟩))

/-- A token after some were revoked. -/
theorem get_revokeTokens_eq_some {tokens : Table RefreshToken} {ids : List ℕ} {i : ℕ}
    {r : RefreshToken} (h : (revokeTokens tokens ids).get i = some r) :
    ∃ old, tokens.get i = some old ∧ r = { old with revoked := r.revoked } ∧
      (old.revoked = true → r.revoked = true) ∧ (r.revoked = false → i ∉ ids) := by
  rw [get_revokeTokens, Option.map_eq_some_iff] at h
  obtain ⟨old, ho, rfl⟩ := h
  by_cases hi : i ∈ ids
  · exact ⟨old, ho, by rw [if_pos hi], by rw [if_pos hi]; exact fun _ => rfl,
      by rw [if_pos hi]; exact nofun⟩
  · exact ⟨old, ho, by rw [if_neg hi], by rw [if_neg hi]; exact id, fun _ => hi⟩

theorem ExchangedOnce.commit (h : ExchangedOnce w.db) (hr : ExchangedRevoked w.db)
    (hc : Commits cond t w tx) : ExchangedOnce (tx.apply w.db) := by
  intro i j r r' p hi hj hp hp'
  obtain he | ⟨token, -, hn, he⟩ | ⟨id, token, old, -, ho, he⟩ | ⟨ids, -, he⟩ := hc.tokens <;>
    rw [he] at hi hj
  · exact h i j r r' p hi hj hp hp'
  · rw [Table.get_insert] at hi hj
    split_ifs at hi hj with h1 h2
    · rw [h1, h2]
    · cases hi
      rw [hn] at hp
      cases hp
    · cases hj
      rw [hn] at hp'
      cases hp'
    · exact h i j r r' p hi hj hp hp'
  · -- A token issued for the live one would have it revoked.
    have hfirst : ∀ {k q}, w.db.refreshTokens.get k = some q → q.parent ≠ token.parent := by
      intro k q hk hq
      obtain ⟨q', hq', hrev⟩ := hr k q id hk (hq.trans ho.parent)
      cases hq'.symm.trans ho.row
      rw [ho.live] at hrev
      cases hrev
    have hback : ∀ {k q}, (rotateToken w.db.refreshTokens id token).get k = some q →
        k = w.db.refreshTokens.bound ∧ q.parent = token.parent ∨
          ∃ q₀, w.db.refreshTokens.get k = some q₀ ∧ q₀.parent = q.parent := by
      intro k q hk
      obtain ⟨hb, rfl⟩ | ⟨q₀, hq₀, rfl⟩ := get_rotateToken_eq_some.mp hk
      · exact .inl ⟨hb, rfl⟩
      · exact .inr ⟨q₀, hq₀, by split_ifs <;> rfl⟩
    obtain ⟨hb, hpar⟩ | ⟨q₀, hq₀, hpar⟩ := hback hi
    · obtain ⟨hb', -⟩ | ⟨q₁, hq₁, hpar₁⟩ := hback hj
      · rw [hb, hb']
      · exact absurd ((hpar₁.trans hp').trans (hp.symm.trans hpar)) (hfirst hq₁)
    · obtain ⟨-, hpar₁⟩ | ⟨q₁, hq₁, hpar₁⟩ := hback hj
      · exact absurd ((hpar.trans hp).trans (hp'.symm.trans hpar₁)) (hfirst hq₀)
      · exact h i j q₀ q₁ p hq₀ hq₁ (hpar.trans hp) (hpar₁.trans hp')
  · obtain ⟨q, hq, he₁, -⟩ := get_revokeTokens_eq_some hi
    obtain ⟨q', hq', he₂, -⟩ := get_revokeTokens_eq_some hj
    rw [he₁] at hp
    rw [he₂] at hp'
    exact h i j q q' p hq hq' hp hp'

theorem ExchangedRevoked.commit (h : ExchangedRevoked w.db) (hc : Commits cond t w tx) :
    ExchangedRevoked (tx.apply w.db) := by
  intro i r p hi hp
  obtain he | ⟨token, -, hn, he⟩ | ⟨id, token, old, -, ho, he⟩ | ⟨ids, -, he⟩ := hc.tokens <;>
    rw [he] at hi ⊢
  · exact h i r p hi hp
  · rw [Table.get_insert] at hi
    split_ifs at hi
    · cases hi
      rw [hn] at hp
      cases hp
    · obtain ⟨q, hq, hrev⟩ := h i r p hi hp
      exact ⟨q, Table.get_insert_of_some hq, hrev⟩
  · have hstays : ∀ {k q}, w.db.refreshTokens.get k = some q → (q.revoked = true ∨ k = id) →
        ∃ q', (rotateToken w.db.refreshTokens id token).get k = some q' ∧ q'.revoked = true := by
      intro k q hk hrev
      refine ⟨_, get_rotateToken_eq_some.mpr (.inr ⟨q, hk, rfl⟩), ?_⟩
      split_ifs with hid
      · rfl
      · exact hrev.resolve_right hid
    obtain ⟨-, rfl⟩ | ⟨q₀, hq₀, rfl⟩ := get_rotateToken_eq_some.mp hi
    · have hpid : p = id := Option.some.inj (hp.symm.trans ho.parent)
      subst hpid
      exact hstays ho.row (.inr rfl)
    · have hp₀ : q₀.parent = some p := by
        split_ifs at hp <;> exact hp
      obtain ⟨q, hq, hrev⟩ := h i q₀ p hq₀ hp₀
      exact hstays hq (.inl hrev)
  · obtain ⟨r₀, hr₀, he₁, -⟩ := get_revokeTokens_eq_some hi
    rw [he₁] at hp
    obtain ⟨q, hq, hrev⟩ := h i r₀ p hr₀ hp
    refine ⟨if p ∈ ids then { q with revoked := true } else q, by rw [get_revokeTokens, hq]; rfl, ?_⟩
    split_ifs
    · rfl
    · exact hrev

end

/-! ## Sign-outs -/

/-- The tokens that can be used go back to a password check after the last sign-out. -/
def SignedOut (w : World) : Prop :=
  ∀ i r, w.db.refreshTokens.get i = some r → r.revoked = false → r.origin = w.signOuts r.userId

/-- A thread that revokes the tokens of a user has found all that can be used. -/
def Swept.All (w : World) : Prop :=
  ∀ t u ids, w.sweeping t = some (u, ids) → ∀ i r, w.db.refreshTokens.get i = some r →
    r.userId = u → r.revoked = false → i ∈ ids

/-- A new token goes back to a password check after the last sign-out of the user, and no thread is
revoking the tokens of the user. -/
def IssuesCurrent : Instr → ℕ → World → Prop
  | .commit (.auth (.addToken token)), _, w | .commit (.auth (.rotate _ token)), _, w =>
    token.origin = w.signOuts token.userId ∧ ∀ t ids, w.sweeping t ≠ some (token.userId, ids)
  | _, _, _ => True

section

variable {s : Settings} {cond : Instr → ℕ → World → Prop} {t : ℕ} {w w' : World}

/-- What a step does to the tokens and to those who revoke them: nothing but that a thread gives up,
the start of a revocation, the report of one, or a commit. -/
theorem Effect.sweeping (hi : Inv w) (he : Effect (system s) contract cond w w') :
    (w'.db.refreshTokens = w.db.refreshTokens ∧ w'.signOuts = w.signOuts ∧
      ∀ t, w'.sweeping t = w.sweeping t ∨ w'.sweeping t = none) ∨
    (∃ t u, w' = w.sweep u t) ∨
    (∃ t u, w.sweeping t = some (u, []) ∧ w' = w.signOut u t) ∨
    ∃ t tx, Commits cond t w tx ∧ w' = (w.write tx t).release t := by
  have hdisconnect : ∀ t t', (w.disconnect t).sweeping t' = w.sweeping t' ∨
      (w.disconnect t).sweeping t' = none := by
    intro t t'
    by_cases ht : t' = t
    · exact .inr (if_pos ht)
    · exact .inl (if_neg ht)
  cases he with
  | none => exact .inl ⟨rfl, rfl, fun _ => .inl rfl⟩
  | @instr i t w' hp hc hx =>
    change i.exec t w = some w' at hx
    unfold Instr.exec at hx
    split_ifs at hx with hlost
    · cases hx
      cases i <;> exact .inl ⟨rfl, rfl, fun _ => .inl rfl⟩
    · have hl : w.lost t = false := by simpa using hlost
      cases i with
      | lock k =>
        obtain ⟨-, rfl⟩ | ⟨-, rfl⟩ := Instr.perform_lock hx
        · exact .inl ⟨by rw [World.lock_db], World.lock_signOuts k,
            fun _ => .inl (by rw [World.lock_sweeping])⟩
        · exact .inl ⟨rfl, rfl, fun _ => .inl rfl⟩
      | fence session exclusive =>
        obtain ⟨fences, hf⟩ := World.takeFence_eq (w := w) (t := t) session exclusive
        cases (Option.some.inj hx).symm.trans hf
        exact .inl ⟨rfl, rfl, fun _ => .inl rfl⟩
      | sweep u =>
        cases hx
        exact .inr (.inl ⟨t, u, rfl⟩)
      | signOut u =>
        cases hx
        exact .inr (.inr (.inl ⟨t, u, hp (.inl hl), rfl⟩))
      | commit tx =>
        obtain ⟨ha, hw, rfl⟩ | ⟨-, rfl⟩ := Instr.perform_commit hx
        · exact .inr (.inr (.inr ⟨t, tx, ⟨⟨hi, ha, hw, hp (.inl hl) ha⟩, hl, hc⟩, rfl⟩))
        · exact .inl ⟨rfl, rfl, fun _ => .inl rfl⟩
      | _ =>
        cases hx
        exact .inl ⟨rfl, rfl, fun _ => .inl rfl⟩
  | abort t => exact .inl ⟨rfl, rfl, hdisconnect t⟩
  | @event e w' hx =>
    cases hx
    cases e with
    | lose t => exact .inl ⟨rfl, rfl, hdisconnect t⟩
    | _ => exact .inl ⟨rfl, rfl, fun _ => .inl rfl⟩

/-- A commit starts no revocation, and shortens one by the tokens that it revokes. -/
theorem write_sweeping {tx : Tx} {t' u : ℕ} {ids : List ℕ}
    (h : (w.write tx t).sweeping t' = some (u, ids)) :
    ∃ ids₀, w.sweeping t' = some (u, ids₀) ∧
      ∀ i ∈ ids₀, i ∈ ids ∨ ∃ revoked, tx = .auth (.revoke revoked) ∧ i ∈ revoked := by
  have hsame : w.sweeping t' = some (u, ids) → ∃ ids₀, w.sweeping t' = some (u, ids₀) ∧
      ∀ i ∈ ids₀, i ∈ ids ∨ ∃ revoked, tx = .auth (.revoke revoked) ∧ i ∈ revoked :=
    fun hs => ⟨ids, hs, fun _ hi => .inl hi⟩
  simp only [World.write] at h
  split at h
  · rename_i revoked
    split_ifs at h with ht
    · obtain ⟨⟨v, ids₀⟩, hs, he⟩ := Option.map_eq_some_iff.mp h
      cases he
      refine ⟨ids₀, ht ▸ hs, fun i hi => ?_⟩
      by_cases hr : i ∈ revoked
      · exact .inr ⟨revoked, rfl, hr⟩
      · exact .inl (List.mem_filter.mpr ⟨hi, by simpa using hr⟩)
    · exact hsame h
  · exact hsame h

/-- A token that can be used after a commit that issues current tokens: one that could be used
before, and that the commit does not revoke, or a new one. -/
theorem Commits.usable {tx : Tx} (hc : Commits IssuesCurrent t w tx) {i : ℕ} {r : RefreshToken}
    (hr : (tx.apply w.db).refreshTokens.get i = some r) (hl : r.revoked = false) :
    (w.db.refreshTokens.get i = some r ∧ ∀ ids, tx = .auth (.revoke ids) → i ∉ ids) ∨
      r.origin = w.signOuts r.userId ∧ ∀ t ids, w.sweeping t ≠ some (r.userId, ids) := by
  have hcond := hc.cond
  obtain he | ⟨token, rfl, -, he⟩ | ⟨id, token, old, rfl, ho, he⟩ | ⟨ids, rfl, he⟩ := hc.tokens <;>
    rw [he] at hr
  · refine .inl ⟨hr, fun ids htx => ?_⟩
    subst htx
    have hrevoked : (revokeTokens w.db.refreshTokens ids).get i = some r :=
      (congrArg (Table.get · i) he).trans hr
    obtain ⟨-, -, -, -, hni⟩ := get_revokeTokens_eq_some hrevoked
    exact hni hl
  · rw [Table.get_insert] at hr
    split_ifs at hr
    · cases hr
      exact .inr hcond
    · exact .inl ⟨hr, nofun⟩
  · obtain ⟨-, rfl⟩ | ⟨q, hq, rfl⟩ := get_rotateToken_eq_some.mp hr
    · exact .inr hcond
    · split_ifs at hl ⊢ with hid
      exact .inl ⟨hq, nofun⟩
  · obtain ⟨q, hq, heq, hrev, hni⟩ := get_revokeTokens_eq_some hr
    have hql : q.revoked = false := by
      by_contra hne
      rw [hrev (by simpa using hne)] at hl
      cases hl
    have hqr : q = r := by
      rw [heq, hl, ← hql]
    refine .inl ⟨hqr ▸ hq, fun ids' he' => ?_⟩
    cases he'
    exact hni hl

/-- **One step**: what can be used stays current, and revocations miss nothing. -/
theorem SignedOut.effect (hi : Inv w) (h : SignedOut w) (hs : Swept.All w)
    (he : Effect (system s) contract IssuesCurrent w w') : SignedOut w' ∧ Swept.All w' := by
  obtain ⟨ht, hso, hsw⟩ | ⟨t, u, rfl⟩ | ⟨t, u, hsweep, rfl⟩ | ⟨t, tx, hc, rfl⟩ :=
    Effect.sweeping hi he
  · refine ⟨fun i r hr hl => ?_, fun t u ids hid i r hr hu hl => ?_⟩
    · rw [hso]
      exact h i r (ht ▸ hr) hl
    · rcases hsw t with he | he <;> rw [he] at hid
      · exact hs t u ids hid i r (ht ▸ hr) hu hl
      · cases hid
  · refine ⟨h, fun t' u' ids hid i r hr hu hl => ?_⟩
    simp only [World.sweep] at hid
    split_ifs at hid
    · cases hid
      exact Table.mem_select.mpr ⟨r, hr, by simp [hu, hl]⟩
    · exact hs t' u' ids hid i r hr hu hl
  · refine ⟨fun i r hr hl => ?_, fun t' u' ids hid i r hr hu hl => ?_⟩
    · have hne : r.userId ≠ u := fun hu => by
        have hmem := hs t u [] hsweep i r hr hu hl
        cases hmem
      show r.origin = if r.userId = u then _ else _
      rw [if_neg hne]
      exact h i r hr hl
    · simp only [World.signOut] at hid
      split_ifs at hid
      exact hs t' u' ids hid i r hr hu hl
  · refine ⟨fun i r hr hl => ?_, fun t' u ids hid i r hr hu hl => ?_⟩
    · rcases hc.usable hr hl with ⟨hr₀, -⟩ | ⟨horigin, -⟩
      · exact h i r hr₀ hl
      · exact horigin
    · obtain ⟨ids₀, hs₀, hmem⟩ := write_sweeping hid
      rcases hc.usable hr hl with ⟨hr₀, hkept⟩ | ⟨-, hnone⟩
      · rcases hmem i (hs t' u ids₀ hs₀ i r hr₀ hu hl) with hin | ⟨revoked, htx, hrev⟩
        · exact hin
        · exact absurd hrev (hkept revoked htx)
      · exact absurd hs₀ (hu ▸ hnone t' ids₀)

end

/-! ## Runs -/

/-- **In every run tokens are exchanged at most once, and when all new tokens are current, those that
can be used go back to a password check after the last sign-out.** -/
theorem families_of_issuesCurrent (s : Settings) (users : Table User)
    (c : Config World Instr Err Unit) :
    (Reachable s anyStep users c → ExchangedOnce c.state.db) ∧
      (Reachable s IssuesCurrent users c → SignedOut c.state) := by
  constructor
  · intro h
    have hboth := h.db_invariant (P := fun db => ExchangedOnce db ∧ ExchangedRevoked db)
      ⟨fun _ _ _ _ _ hr => (nomatch hr), fun _ _ _ hr => (nomatch hr)⟩
      fun t w tx hc hp => ⟨hp.1.commit hp.2 hc, hp.2.commit hc⟩
    exact hboth.1
  · intro h
    have hboth := Reach.invariant (verified s) inv_initial
      (P := fun w => SignedOut w ∧ Swept.All w)
      ⟨fun _ _ hr => (nomatch hr), fun _ _ _ hid => (nomatch hid)⟩
      (fun w w' hi hp he => SignedOut.effect hi hp.1 hp.2 he) h
    exact hboth.1

/-- A check for `IssuesCurrent`: a thread that has been started may revoke tokens. -/
def issuesCurrent : Check
  | .commit (.auth (.addToken token)), _, c | .commit (.auth (.rotate _ token)), _, c =>
    token.origin = c.state.signOuts token.userId && (List.range c.threads.bound).all fun t =>
      (c.state.sweeping t).all (·.1 ≠ token.userId)
  | _, _, _ => true

theorem issuesCurrent_ok {s : Settings} {users : Table User} {cond : Instr → ℕ → World → Prop}
    (c : Config World Instr Err Unit) (h : Reachable s cond users c) (i : Instr) (t : ℕ)
    (hok : issuesCurrent i t c = true) : IssuesCurrent i t c.state := by
  have hidle : ∀ {token : RefreshToken}, ((List.range c.threads.bound).all fun t =>
      (c.state.sweeping t).all (·.1 ≠ token.userId)) = true →
      ∀ t ids, c.state.sweeping t ≠ some (token.userId, ids) := by
    intro token hall t ids hs
    by_cases ht : t < c.threads.bound
    · have hne := List.all_eq_true.mp hall t (List.mem_range.mpr ht)
      simp [hs] at hne
    · rw [(h.idle t (not_lt.mp ht)).2] at hs
      cases hs
  cases i with
  | commit tx =>
    cases tx with
    | auth tx =>
      cases tx with
      | addToken token =>
        simp only [issuesCurrent, Bool.and_eq_true, decide_eq_true_eq] at hok
        exact ⟨hok.1, hidle hok.2⟩
      | rotate id token =>
        simp only [issuesCurrent, Bool.and_eq_true, decide_eq_true_eq] at hok
        exact ⟨hok.1, hidle hok.2⟩
      | _ => trivial
    | _ => trivial
  | _ => trivial

/-- The user signs in, exchanges the token, and changes the password after that. -/
def signedInTwice : List (Move Call Event) :=
  .call (.login 0 0) :: steps 1 1 ++ .run 1 8 :: steps 1 4 ++
    .call (.refresh 1 (some 8)) :: steps 2 4 ++ .run 2 9 :: steps 2 4 ++
    .call (.changePassword 1 0 4) :: steps 3 11

theorem families_after_exchange :
    ∃ c, Reachable plainSettings IssuesCurrent oneUser c ∧
      (c.state.db.refreshTokens.get 2).any (fun r => r.parent = some 1 && r.revoked) = true ∧
      c.state.signOuts 1 = 1 ∧ SignedOut c.state := by
  obtain ⟨c, hc, hp⟩ := exists_reachable plainSettings oneUser issuesCurrent_ok signedInTwice
    (fun c => (c.state.db.refreshTokens.get 2).any (fun r => r.parent = some 1 && r.revoked) &&
      c.state.signOuts 1 = 1) (by decide +kernel)
  simp only [Bool.and_eq_true, decide_eq_true_eq] at hp
  exact ⟨c, hc, hp.1, hp.2, (families_of_issuesCurrent plainSettings oneUser c).2 hc⟩

/-- A login checks the password before it is changed and issues its token after that. -/
def lateLogin : List (Move Call Event) :=
  .call (.login 0 0) :: steps 1 1 ++ .call (.changePassword 1 0 4) :: steps 2 10 ++ steps 1 5

theorem late_token_usable :
    ¬ ∀ s users c, Reachable s anyStep users c → ExchangedOnce c.state.db ∧ SignedOut c.state := by
  intro h
  obtain ⟨c, hc, hp⟩ := exists_reachable plainSettings oneUser unchecked_ok lateLogin
    (fun c => c.state.signOuts 1 = 1 && (c.state.db.refreshTokens.get 1).any fun r =>
      r.userId = 1 && !r.revoked && r.origin = 0) (by decide +kernel)
  simp only [Bool.and_eq_true, decide_eq_true_eq, Option.any_eq_true, Bool.not_eq_true'] at hp
  obtain ⟨h1, r, hr, ⟨hu, hl⟩, h0⟩ := hp
  have hcurrent := (h _ _ c hc).2 1 r hr hl
  rw [hu, h0, h1] at hcurrent
  cases hcurrent

end HomeCloud
