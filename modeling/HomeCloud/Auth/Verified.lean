import HomeCloud.Auth.Service
import HomeCloud.Rules

/-!
# The sign-in operations fulfil the contract

* **`login_safe`**, **`refresh_safe`**, `logout_safe`, **`changePassword_safe`**.
-/

namespace HomeCloud

open Concurrent

section

variable {t : ℕ} {w : World} {b : Bcrypt} {lifetime userId : ℕ}

theorem generateTokens_safe {origin : ℕ} :
    Safe contract t (generateTokens b lifetime userId origin) w := by
  unfold generateTokens
  rw [Safe, wp_bind]
  intro secret
  rw [wp_ret, wp_bind]
  intro salt
  rw [wp_ret, wp_bind]
  exact wp_query fun w₁ _ _ => wp_transaction (.intro fun _ _ _ _ => rfl)

theorem login_safe {email password : ℕ} :
    Safe contract t (login b lifetime email password) w := by
  unfold login
  rw [Safe, wp_bind]
  refine wp_query fun w₁ _ _ => ?_
  rw [wp_bind]
  refine wp_require fun found _ => ?_
  obtain ⟨userId, user, origin⟩ := found
  dsimp only
  rw [wp_bind]
  refine wp_assert fun _ => ?_
  rw [wp_bind]
  exact wp_assert fun _ => generateTokens_safe

/-- The token that was found is locked. -/
theorem wp_findAndLockRefreshToken {secret : ℕ} {Q : Option (ℕ × RefreshToken) → World → Prop}
    (hsome : ∀ w' id r, Rely t w w' → w'.db.refreshTokens.get id = some r → r.userId = userId →
      w'.locks (.token id) = some t → Q (some (id, r)) w')
    (hnone : ∀ w', Q none w') : After t (findAndLockRefreshToken b userId secret) Q w := by
  unfold findAndLockRefreshToken
  rw [After, wp_bind]
  refine wp_query fun w₁ h₁ _ => ?_
  split
  · rename_i id found hfound
    rw [wp_bind]
    refine wp_lockToken fun w₂ row h₂ _ hrow hl => ?_
    cases row with
    | none => exact hnone w₂
    | some r =>
      obtain ⟨hget, hp⟩ := Table.find_some hfound
      simp only [Bool.and_eq_true, decide_eq_true_eq] at hp
      obtain ⟨r₁, hr₁, hu⟩ := h₂.keeps.grows.tokens.old id r (Table.lt_bound hget) hrow
      cases hget.symm.trans hr₁
      exact hsome w₂ id r (h₁.trans h₂) hrow (hu.trans hp.1) (hl rfl)
  · exact hnone w₁

/-- `t` has locked the tokens that are still there. -/
def TokensLocked (t : ℕ) (w : World) (ids : List ℕ) : Prop :=
  ∀ i ∈ ids, i < w.db.refreshTokens.bound ∧
    ((w.db.refreshTokens.get i).isSome → w.locks (.token i) = some t)

theorem TokensLocked.keeps {w' : World} {ids : List ℕ} (h : TokensLocked t w ids)
    (hk : Keeps t w w') : TokensLocked t w' ids := fun i hi => by
  obtain ⟨hb, hl⟩ := h i hi
  refine ⟨lt_of_lt_of_le hb hk.grows.tokens.bound, fun hs => ?_⟩
  obtain ⟨r', hr'⟩ := Option.isSome_iff_exists.mp hs
  obtain ⟨r, hr, -⟩ := hk.grows.tokens.old i r' hb hr'
  exact hk.locks _ (hl (by rw [hr]; rfl))

theorem wp_lockTokens {Q : Unit → World → Prop} : ∀ (ids : List ℕ) {w : World},
    (∀ i ∈ ids, i < w.db.refreshTokens.bound) →
    (∀ w', Rely t w w' → TokensLocked t w' ids → Q () w') → After t (lockTokens ids) Q w
  | [], w, _, h => h w (.refl t w) nofun
  | id :: ids, w, hb, h => by
    unfold lockTokens
    rw [After, wp_bind]
    refine wp_lockToken fun w₁ row h₁ _ hrow hl => ?_
    have hb₁ : ∀ i ∈ id :: ids, i < w₁.db.refreshTokens.bound := fun i hi =>
      lt_of_lt_of_le (hb i hi) h₁.keeps.grows.tokens.bound
    have hid : TokensLocked t w₁ [id] := fun i hi => by
      cases List.mem_singleton.mp hi
      exact ⟨hb₁ id List.mem_cons_self, hrow ▸ hl⟩
    refine wp_lockTokens ids (fun i hi => hb₁ i (List.mem_cons_of_mem _ hi)) fun w₂ h₂ hids => ?_
    refine h w₂ (h₁.trans h₂) fun i hi => ?_
    rcases List.mem_cons.mp hi with rfl | hi
    · exact hid.keeps h₂.keeps i List.mem_cons_self
    · exact hids i hi

/-- The update revokes what it has found, and nothing else stays found. -/
theorem wp_revokeUserTokens {Q : Tx → World → Prop}
    (h : ∀ w' ids, w'.sweeping t = some (userId, ids) → TokensLocked t w' ids →
      Q (.auth (.revoke ids)) w') : After t (revokeUserTokens userId) Q w := by
  unfold revokeUserTokens
  rw [After, wp_bind]
  refine wp_statement rfl fun w₁ _ _ w₂ he => ⟨trivial, ?_⟩
  cases he
  rw [wp_bind]
  refine wp_lockTokens _ (fun i hi => ?_) fun w₃ h₃ hlocked => ?_
  · obtain ⟨r, hr, -⟩ := Table.mem_select.mp hi
    exact Table.lt_bound hr
  · exact h w₃ _ (h₃.sweeping.trans (if_pos rfl)) hlocked

theorem TokensLocked.ready {ids : List ℕ} (h : TokensLocked t w ids) :
    Ready t (.auth (.revoke ids)) w := .intro fun w' hr _ _ i hi r hri =>
  (h.keeps hr.keeps i hi).2 (by rw [hri]; rfl)

/-- All tokens that `t` has found are revoked. -/
def Swept (t : ℕ) (w : World) (userId : ℕ) : Prop := w.sweeping t = some (userId, [])

/-- Once the found tokens are revoked none is left. -/
theorem swept_write {ids : List ℕ} (h : w.sweeping t = some (userId, ids)) :
    Swept t ((w.write (.auth (.revoke ids)) t).release t) userId := by
  simp [Swept, World.release, World.write, h]

theorem wp_reportSignOut {Q : Unit → World → Prop} (h : Swept t w userId)
    (hq : ∀ w', Q () w') : After t (reportSignOut userId) Q w :=
  wp_statement rfl fun _ hr _ _ _ => ⟨hr.sweeping.trans h, hq _⟩

theorem wp_revokeAllUserTokens {Q : Unit → World → Prop} (h : ∀ w', Swept t w' userId → Q () w') :
    After t (revokeAllUserTokens userId) Q w := by
  unfold revokeAllUserTokens
  refine wp_transaction_post ?_
  rw [After, wp_bind]
  exact wp_revokeUserTokens fun w₁ ids hs hlocked => ⟨hlocked.ready, fun w₂ hr _ _ _ =>
    h _ (swept_write (hr.sweeping.trans hs))⟩

theorem refresh_safe {refreshToken : Option ℕ} :
    Safe contract t (refresh b lifetime userId refreshToken) w := by
  unfold refresh
  rw [Safe, wp_bind]
  refine wp_mono (Q := fun result w' => result = none → Swept t w' userId) (E := fun _ _ => True)
    (fun result w' hs => ?_) (fun _ _ _ => trivial) (wp_transaction_post ?_)
  · cases result with
    | some secret => trivial
    | none =>
      dsimp only
      rw [wp_bind]
      exact wp_reportSignOut (hs rfl) fun _ => trivial
  -- Both ways of finding the token revoked end in the same update.
  have hsweep : ∀ w', After t (do
      let tx ← revokeUserTokens userId
      return (tx, (none : Option ℕ))) (fun r w' => Ready t r.1 w' ∧ ∀ w'', Rely t w' w'' →
        w''.lost t = false → Committing t w'' r.1 → Inv ((w''.write r.1 t).release t) →
          r.2 = none → Swept t ((w''.write r.1 t).release t) userId) w' := by
    intro w'
    rw [After, wp_bind]
    exact wp_revokeUserTokens fun w₁ ids hs hlocked => ⟨hlocked.ready, fun w₂ hr _ _ _ _ =>
      swept_write (hr.sweeping.trans hs)⟩
  rw [After, wp_bind]
  refine wp_query fun w₁ _ _ => ?_
  rw [wp_bind]
  refine wp_assert fun _ => ?_
  rw [wp_bind]
  refine wp_require fun presented _ => ?_
  rw [wp_bind]
  refine wp_findAndLockRefreshToken (fun w₂ id storedToken _ hrow howner hl => ?_) fun w₂ => ?_
  · rw [wp_bind]
    refine wp_require fun found hfound => ?_
    cases hfound
    dsimp only
    rw [wp_bind]
    refine wp_query fun w₃ h₃ _ => ?_
    rw [wp_bind]
    refine wp_assert fun _ => ?_
    cases hrev : storedToken.revoked with
    | true => exact hsweep w₃
    | false =>
      simp only [Bool.false_eq_true, if_false]
      rw [wp_bind]
      intro secret
      rw [wp_ret, wp_bind]
      intro salt
      rw [wp_ret, wp_bind]
      refine wp_lockToken fun w₄ current h₄ _ hcurrent _ => ?_
      have hk := (h₃.trans h₄).keeps
      split_ifs
      · refine ⟨.intro fun w₅ h₅ _ _ => ⟨storedToken, ?_⟩, fun w₅ _ _ _ _ hnone => absurd hnone (Option.some_ne_none _)⟩
        have hl₄ := hk.locks _ hl
        exact
          { row := h₅.keeps.tokens id storedToken hl₄ (hk.tokens id storedToken hl hrow)
            locked := h₅.keeps.locks _ hl₄
            live := hrev
            parent := rfl
            owner := howner.symm
            origin := rfl }
      · exact hsweep w₄
  · rw [wp_bind]
    exact wp_require fun found hfound => by cases hfound

/-- Only locked tokens are reached on the way. -/
theorem wp_lastReplacement {Q : Option (ℕ × RefreshToken) → World → Prop}
    (hsome : ∀ w' id r, w'.db.refreshTokens.get id = some r → w'.locks (.token id) = some t →
      Q (some (id, r)) w')
    (hnone : ∀ w', Q none w') : ∀ (n : ℕ) (visited : List ℕ) {w : World} {id : ℕ}
    {r : RefreshToken}, w.db.refreshTokens.get id = some r → w.locks (.token id) = some t →
      After t (lastReplacement userId n visited (id, r)) Q w
  | 0, _, _, _, _, _, _ => trivial
  | n + 1, visited, w, id, r, hr, hl => by
    unfold lastReplacement
    cases r.replacedBy with
    | none => exact hsome w id r hr hl
    | some hash =>
      dsimp only
      split_ifs
      · exact hnone w
      · rw [After, wp_bind]
        refine wp_query fun w₁ _ _ => ?_
        split
        · exact hnone w₁
        · rw [wp_bind]
          refine wp_lockToken fun w₂ row _ _ hrow hl₂ => ?_
          cases row with
          | none => exact hnone w₂
          | some next => exact wp_lastReplacement hsome hnone n _ hrow (hl₂ rfl)

theorem logout_safe {refreshToken : Option ℕ} :
    Safe contract t (logout b userId refreshToken) w := by
  unfold logout
  cases refreshToken with
  | none => trivial
  | some presented =>
    dsimp only
    rw [Safe, wp_bind]
    intro rounds
    refine wp_transaction ?_
    rw [After, wp_bind]
    refine wp_findAndLockRefreshToken (fun w₁ id r _ hr _ hl => ?_) fun w₁ => ?_
    · dsimp only
      rw [wp_bind]
      refine wp_lastReplacement (fun w₂ last r₂ _ hl₂ => ?_) (fun _ => .none) rounds []
        hr hl
      dsimp only
      split_ifs
      · exact .none
      · refine .intro fun w₃ h₃ _ _ i hi _ _ => ?_
        cases List.mem_singleton.mp hi
        exact h₃.keeps.locks _ hl₂
    · exact .none

theorem saveUser_safe {user : User} : Safe contract t (saveUser userId user) w := by
  unfold saveUser
  refine wp_transaction ?_
  rw [After, wp_bind]
  refine wp_query fun w₁ _ _ => ?_
  rw [wp_bind]
  refine wp_require fun row hrow => ?_
  rw [wp_bind]
  refine wp_lockUser fun w₂ locked h₂ _ hlocked hl => ?_
  have hthere : locked.isSome := hlocked ▸ h₂.keeps.grows.users userId (by rw [hrow]; rfl)
  exact .intro fun w₃ h₃ _ _ => h₃.keeps.locks _ (hl hthere)

theorem changePassword_safe {oldPassword newPassword : ℕ} :
    Safe contract t (changePassword b userId oldPassword newPassword) w := by
  unfold changePassword
  rw [Safe, wp_bind]
  refine wp_query fun w₁ _ _ => ?_
  rw [wp_bind]
  refine wp_require fun user _ => ?_
  rw [wp_bind]
  refine wp_assert fun _ => ?_
  rw [wp_bind]
  intro salt
  rw [wp_ret]
  refine Safe.bind saveUser_safe fun _ w₂ => ?_
  rw [Safe, wp_bind]
  exact wp_revokeAllUserTokens fun w₃ hs => wp_reportSignOut hs fun _ => trivial

end

end HomeCloud
