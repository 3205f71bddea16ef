import HomeCloud.Interference

/-!
# The sharing service respects the locks

* `SharingTx.Ok`: what holds when the writes are committed.
* **`SharingTx.Ok.respects`**: writes with that property change locked rows only.
-/

namespace HomeCloud

open Concurrent

/-- What `t` has established when it commits the writes. -/
def SharingTx.Ok (t : ℕ) (w : World) : SharingTx → Prop
  | .revokeLink id => w.locks (.link id) = some t
  | _ => True

/-- **The writes of the sharing service respect the locks.** -/
theorem SharingTx.Ok.respects {t : ℕ} {w : World} {tx : SharingTx} (h : tx.Ok t w) (hi : Inv w) :
    Respects t w (tx.apply w.db) [] := by
  have hw : Respects t w w.db [] := .unchanged hi
  cases tx with
  | addLink link =>
    refine hw.of_eq (fun _ hu => hu) rfl rfl (.refl _) hw.sessions hw.receipts fun k x _ _ hx => ?_
    cases k with
    | link i =>
      obtain ⟨r, hr, rfl⟩ := Option.map_eq_some_iff.mp hx
      simp only [Db.row, SharingTx.apply, Table.get_insert_of_some hr, Option.map_some]
    | _ => exact hx
  | revokeLink id =>
    refine hw.of_eq (fun _ hu => hu) rfl rfl (.refl _) hw.sessions hw.receipts fun k x hl _ hx => ?_
    cases k with
    | link i =>
      have hne : i ≠ id := fun he => hl (he ▸ h)
      obtain ⟨r, hr, rfl⟩ := Option.map_eq_some_iff.mp hx
      simp only [Db.row, SharingTx.apply, Table.get_map, hr, Option.map_some, if_neg hne]
    | _ => exact hx
  | dropReceipts ids =>
    refine hw.of_eq (fun _ hu => hu) rfl rfl (.refl _) hw.sessions (fun i r l hr _ _ => ?_)
      fun _ _ _ _ hx => hx
    exact ⟨r, (Table.get_eraseAll_eq_some.mp hr).2, .refl r⟩

end HomeCloud
