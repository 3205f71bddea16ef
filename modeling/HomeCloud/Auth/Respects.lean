import HomeCloud.Interference

/-!
# The sign-in operations respect the locks

What a sign-in operation has established when it commits, and that its writes disturb no other
transaction.

* `AuthTx.Ok`: what holds when the writes are committed.
* **`AuthTx.Ok.respects`**: writes with that property change locked rows only.
-/

namespace HomeCloud

open Concurrent

/-! ## What holds at a commit -/

/-- The token `id` is exchanged for `token`. -/
structure RotateOk (t : ℕ) (w : World) (id : ℕ) (token old : RefreshToken) : Prop where
  row : w.db.refreshTokens.get id = some old
  locked : w.locks (.token id) = some t
  live : old.revoked = false
  parent : token.parent = some id
  owner : token.userId = old.userId
  origin : token.origin = old.origin

/-- What `t` has established when it commits the writes. -/
def AuthTx.Ok (t : ℕ) (w : World) : AuthTx → Prop
  | .saveUser id _ => w.locks (.user id) = some t
  | .addToken token => token.parent = none
  | .rotate id token => ∃ old, RotateOk t w id token old
  | .revoke ids => ∀ i ∈ ids, ∀ r, w.db.refreshTokens.get i = some r →
      w.locks (.token i) = some t

/-! ## Tokens after the writes -/

section Tokens

variable {tokens : Table RefreshToken} {id i : ℕ} {token r : RefreshToken} {ids : List ℕ}

theorem get_revokeTokens :
    (revokeTokens tokens ids).get i =
      (tokens.get i).map fun r => if i ∈ ids then { r with revoked := true } else r :=
  Table.get_map ..

/-- A token after `rotate`: the new one, the revoked one, or one that stays. -/
theorem get_rotateToken_eq_some :
    (rotateToken tokens id token).get i = some r ↔
      (i = tokens.bound ∧ r = token) ∨ ∃ old, tokens.get i = some old ∧
        r = if i = id then { old with revoked := true, replacedBy := some token.tokenHash }
          else old := by
  unfold rotateToken
  rw [Table.get_insert, Table.bound_map, Table.get_map]
  by_cases hb : i = tokens.bound
  · have hnone : tokens.get i = none := hb ▸ Table.get_bound tokens
    simp only [hb, hb ▸ hnone, if_true, Option.some.injEq, true_and, reduceCtorEq, false_and,
      exists_false, or_false]
    exact eq_comm
  · rw [if_neg hb, Option.map_eq_some_iff]
    simp only [hb, false_and, false_or]
    exact exists_congr fun old => and_congr_right fun _ => eq_comm

theorem issued_rotateToken :
    tokens.Issued (fun r r' => r'.userId = r.userId) (rotateToken tokens id token) :=
  (Table.Issued.map tokens fun _ _ => by split_ifs <;> rfl).trans
    (fun _ _ _ h1 h2 => h2.trans h1) (.insert _ _)

end Tokens

/-! ## Respect -/

/-- **The writes of the sign-in operations respect the locks.** -/
theorem AuthTx.Ok.respects {t : ℕ} {w : World} {tx : AuthTx} (h : tx.Ok t w) (hi : Inv w) :
    Respects t w (tx.apply w.db) [] := by
  refine (Respects.unchanged hi).of_eq (fun u hu => ?_) ?_ ?_ ?_ ?_ ?_ fun k x hl _ hx => ?_
  · cases tx with
    | saveUser id patch => simpa [AuthTx.apply] using hu
    | _ => exact hu
  · cases tx <;> rfl
  · cases tx <;> rfl
  · cases tx with
    | saveUser id patch => exact .refl _
    | addToken token => exact .insert _ _
    | rotate id token => exact issued_rotateToken
    | revoke ids => exact .map _ fun _ _ => by split_ifs <;> rfl
  · cases tx <;> exact .refl t w
  · cases tx <;> exact .refl t w
  · cases tx with
    | saveUser id patch =>
      cases k with
      | user u =>
        obtain ⟨r, hr, rfl⟩ := Option.map_eq_some_iff.mp hx
        have hne : u ≠ id := fun he => hl (he ▸ h)
        exact row_user.mpr (by simp [AuthTx.apply, hr, hne])
      | _ => exact hx
    | addToken token =>
      cases k with
      | token i =>
        obtain ⟨r, hr, rfl⟩ := Option.map_eq_some_iff.mp hx
        exact row_token.mpr (Table.get_insert_of_some hr)
      | _ => exact hx
    | rotate id token =>
      obtain ⟨old, h⟩ := h
      cases k with
      | token i =>
        obtain ⟨r, hr, rfl⟩ := Option.map_eq_some_iff.mp hx
        have hne : i ≠ id := fun he => hl (he ▸ h.locked)
        exact row_token.mpr (get_rotateToken_eq_some.mpr (.inr ⟨r, hr, (if_neg hne).symm⟩))
      | _ => exact hx
    | revoke ids =>
      cases k with
      | token i =>
        obtain ⟨r, hr, rfl⟩ := Option.map_eq_some_iff.mp hx
        have hne : i ∉ ids := fun hm => hl (h i hm r hr)
        exact row_token.mpr (by simp only [AuthTx.apply, get_revokeTokens, hr, Option.map_some, if_neg hne])
      | _ => exact hx

end HomeCloud
