import HomeCloud.Schema
import Mathlib.Data.List.Nodup
import Mathlib.Data.List.Perm.Subperm
import Mathlib.Logic.Relation

/-!
# Folders below folders

The recursive queries of the file operations collect folders round by round until nothing new comes.

* `saturate`, `Db.descendants`: the rounds.
* **`saturate_closed`**: once enough rounds are allowed, another one adds nothing.
* **`Db.mem_descendants_of_parent`**: the folders collected are closed under children.
* `Db.Below`, **`Db.mem_descendants_of_below`**: the folders below another.
* `Db.ancestors`, `Db.rooted`, `Db.within`: the live folders from a target up to the root.
* **`Db.ancestors_mono`**: what keeps the live folders of a user keeps the paths.
-/

namespace HomeCloud

open Concurrent

/-- One round of collecting child folders. -/
def childStep (db : Db) (keep : Folder → Bool) (ids : List ℕ) : List ℕ :=
  db.folders.select fun i r => i ∈ ids || (keep r && r.parentId.any (· ∈ ids))

/-- Repeats `step` until the list grows no more, at most `n` times. -/
def saturate (step : List ℕ → List ℕ) : ℕ → List ℕ → List ℕ
  | 0, ids => ids
  | n + 1, ids => if (step ids).length ≤ ids.length then ids else saturate step n (step ids)

/-- The given folders and the folders below them that satisfy `keep`. -/
def Db.descendants (db : Db) (keep : Folder → Bool) (roots : Folder → ℕ → Bool) : List ℕ :=
  saturate (childStep db keep) (db.folders.bound + 1) (db.folders.select fun i r => roots r i)

/-! ## Saturation -/

/-- What every round keeps holds of the result. -/
theorem saturate_of_step {step : List ℕ → List ℕ} {P : List ℕ → Prop}
    (hstep : ∀ ids, P ids → P (step ids)) : ∀ (n : ℕ) {ids : List ℕ}, P ids → P (saturate step n ids)
  | 0, _, h => h
  | n + 1, ids, h => by
    unfold saturate
    split_ifs
    · exact h
    · exact saturate_of_step hstep n (hstep ids h)

theorem length_le_of_nodup_of_lt {ids : List ℕ} {b : ℕ} (hd : ids.Nodup) (hb : ∀ i ∈ ids, i < b) :
    ids.length ≤ b := by
  have hsub : ids ⊆ List.range b := fun i hi => List.mem_range.mpr (hb i hi)
  have := (hd.subperm hsub).length_le
  rwa [List.length_range] at this

/-- **Enough rounds reach a list that another round does not extend.** -/
theorem saturate_closed {step : List ℕ → List ℕ} {b : ℕ} (hd : ∀ ids, (step ids).Nodup)
    (hb : ∀ ids, ∀ i ∈ step ids, i < b) (hinc : ∀ ids, (∀ i ∈ ids, i ∈ step ids) →
      ∀ i ∈ step ids, i ∈ step (step ids)) :
    ∀ (n : ℕ) {ids : List ℕ}, ids.Nodup → (∀ i ∈ ids, i ∈ step ids) → b < n + ids.length →
      ∀ i ∈ step (saturate step n ids), i ∈ saturate step n ids
  | 0, ids, hids, hsub, hn => by
    have := length_le_of_nodup_of_lt hids fun i hi => hb ids i (hsub i hi)
    omega
  | n + 1, ids, hids, hsub, hn => by
    unfold saturate
    split_ifs with hlen
    · -- The round has all the old folders and is no longer, so it has no new ones.
      have hperm := (hids.subperm hsub).perm_of_length_le hlen
      exact fun i hi => hperm.symm.subset hi
    · exact saturate_closed hd hb hinc n (hd ids) (hinc ids hsub) (by omega)

/-! ## Descendants -/

section Descendants

variable {db : Db} {keep : Folder → Bool} {roots : Folder → ℕ → Bool}

theorem mem_childStep {ids : List ℕ} {i : ℕ} :
    i ∈ childStep db keep ids ↔ ∃ r, db.folders.get i = some r ∧
      (i ∈ ids ∨ keep r = true ∧ ∃ p ∈ ids, r.parentId = some p) := by
  simp only [childStep, Table.mem_select, Bool.or_eq_true, decide_eq_true_eq, Bool.and_eq_true,
    Option.any_eq_true]
  constructor
  · rintro ⟨r, hr, h | ⟨hk, p, hp, hm⟩⟩
    · exact ⟨r, hr, .inl h⟩
    · exact ⟨r, hr, .inr ⟨hk, p, hm, hp⟩⟩
  · rintro ⟨r, hr, h | ⟨hk, p, hm, hp⟩⟩
    · exact ⟨r, hr, .inl h⟩
    · exact ⟨r, hr, .inr ⟨hk, p, hp, hm⟩⟩

theorem nodup_descendants : (db.descendants keep roots).Nodup :=
  saturate_of_step (fun _ _ => Table.nodup_select ..) _ (Table.nodup_select ..)

/-- Every folder collected is a root or satisfies `keep`. -/
theorem Db.of_mem_descendants {i : ℕ} (h : i ∈ db.descendants keep roots) :
    ∃ r, db.folders.get i = some r ∧ (roots r i = true ∨ keep r = true) := by
  have hall : ∀ i ∈ db.descendants keep roots,
      ∃ r, db.folders.get i = some r ∧ (roots r i = true ∨ keep r = true) := by
    refine saturate_of_step (P := fun ids => ∀ i ∈ ids, ∃ r, db.folders.get i = some r ∧
      (roots r i = true ∨ keep r = true)) (fun ids hids i hi => ?_) _ fun i hi => ?_
    · obtain ⟨r, hr, h | ⟨hk, -⟩⟩ := mem_childStep.mp hi
      · exact hids i h
      · exact ⟨r, hr, .inr hk⟩
    · obtain ⟨r, hr, hroot⟩ := Table.mem_select.mp hi
      exact ⟨r, hr, .inl hroot⟩
  exact hall i h

theorem Db.root_mem_descendants {i : ℕ} {r : Folder} (hr : db.folders.get i = some r)
    (h : roots r i = true) : i ∈ db.descendants keep roots := by
  refine saturate_of_step (P := fun ids => i ∈ ids) (fun ids hi => ?_) _ ?_
  · exact mem_childStep.mpr ⟨r, hr, .inl hi⟩
  · exact Table.mem_select.mpr ⟨r, hr, h⟩

/-- **The folders collected are closed under children.** -/
theorem Db.mem_descendants_of_parent {i p : ℕ} {r : Folder} (hr : db.folders.get i = some r)
    (hk : keep r = true) (hp : r.parentId = some p) (hm : p ∈ db.descendants keep roots) :
    i ∈ db.descendants keep roots := by
  refine saturate_closed (b := db.folders.bound) (fun _ => Table.nodup_select ..)
    (fun ids i hi => ?_) (fun ids hids i hi => ?_) _ (Table.nodup_select ..) (fun i hi => ?_)
    (by omega) i (mem_childStep.mpr ⟨r, hr, .inr ⟨hk, p, hm, hp⟩⟩)
  · obtain ⟨r, hr, -⟩ := mem_childStep.mp hi
    exact Table.lt_bound hr
  · obtain ⟨r, hr, -⟩ := mem_childStep.mp hi
    exact mem_childStep.mpr ⟨r, hr, .inl hi⟩
  · obtain ⟨r, hr, -⟩ := Table.mem_select.mp hi
    exact mem_childStep.mpr ⟨r, hr, .inl hi⟩

end Descendants

/-- The folder `p` is the folder `id`, or below it. -/
def Db.Below (db : Db) (id p : ℕ) : Prop :=
  Relation.ReflTransGen (fun a b => ∃ r, db.folders.get b = some r ∧ r.parentId = some a) id p

/-- The folders below a folder are among its descendants. -/
theorem Db.mem_descendants_of_below {db : Db} {id p : ℕ} {r : Folder}
    (hr : db.folders.get id = some r) (h : db.Below id p) :
    p ∈ db.descendants (fun _ => true) fun _ i => i = id := by
  induction h with
  | refl => exact root_mem_descendants hr (decide_eq_true rfl)
  | tail _ hstep ih =>
    obtain ⟨q, hq, hp⟩ := hstep
    exact mem_descendants_of_parent hq rfl hp ih

/-! ## Live paths -/

/-- The folder is live, and so is its mirror. -/
def Db.liveFolder (db : Db) (userId id : ℕ) (r : Folder) : Bool :=
  r.userId = userId && !r.isDeleted &&
    (db.files.find fun _ m =>
      m.folderId = some id && m.userId = userId && m.isFolder && !m.isDeleted).isSome

/-- The live folders from `id` up with their parents, at most `n` of them and each once. -/
def Db.ancestors (db : Db) (userId : ℕ) : ℕ → List ℕ → ℕ → List (ℕ × Option ℕ)
  | 0, _, _ => []
  | n + 1, path, id =>
    match db.folders.get id with
    | some r =>
      if id ∉ path && db.liveFolder userId id r then
        (id, r.parentId) :: r.parentId.elim [] (db.ancestors userId n (id :: path))
      else []
    | none => []

/-- Live folders lead from the target to the root. -/
def Db.rooted (db : Db) (userId targetId : ℕ) : Bool :=
  (db.ancestors userId 128 [] targetId).any (·.2 = none)

/-- Live folders lead from the target to the root, among which is the folder `rootId`. -/
def Db.within (db : Db) (userId rootId targetId : ℕ) : Bool :=
  rootId ∈ (db.ancestors userId 128 [] targetId).map (·.1) && db.rooted userId targetId

section Paths

variable {db db' : Db} {userId : ℕ}

/-- **Paths stay while their folders are there and live.** -/
theorem Db.ancestors_mono (h : ∀ f r, db.folders.get f = some r → db.liveFolder userId f r = true →
    db'.folders.get f = some r ∧ db'.liveFolder userId f r = true) {x : ℕ × Option ℕ} :
    ∀ (n : ℕ) {path : List ℕ} {id : ℕ}, x ∈ db.ancestors userId n path id →
      x ∈ db'.ancestors userId n path id
  | 0, _, _, hx => nomatch hx
  | n + 1, path, id, hx => by
    unfold ancestors at hx ⊢
    cases hr : db.folders.get id with
    | none =>
      rw [hr] at hx
      cases hx
    | some r =>
      rw [hr] at hx
      dsimp only at hx
      split_ifs at hx with hlive
      · simp only [Bool.and_eq_true] at hlive
        obtain ⟨hr', hl'⟩ := h id r hr hlive.2
        rw [hr']
        dsimp only
        rw [if_pos (by simp only [hlive.1, hl', Bool.and_self])]
        rcases List.mem_cons.mp hx with rfl | hx
        · exact List.mem_cons_self
        · refine List.mem_cons_of_mem _ ?_
          cases hp : r.parentId with
          | none =>
            rw [hp] at hx
            cases hx
          | some p =>
            rw [hp] at hx
            exact ancestors_mono h n hx
      · cases hx

theorem Db.rooted_mono (h : ∀ f r, db.folders.get f = some r → db.liveFolder userId f r = true →
    db'.folders.get f = some r ∧ db'.liveFolder userId f r = true) {p : ℕ}
    (hr : db.rooted userId p = true) : db'.rooted userId p = true := by
  obtain ⟨x, hx, hn⟩ := List.any_eq_true.mp hr
  exact List.any_eq_true.mpr ⟨x, ancestors_mono h 128 hx, hn⟩

theorem Db.within_mono (h : ∀ f r, db.folders.get f = some r → db.liveFolder userId f r = true →
    db'.folders.get f = some r ∧ db'.liveFolder userId f r = true) {root p : ℕ}
    (hw : db.within userId root p = true) : db'.within userId root p = true := by
  simp only [within, Bool.and_eq_true, decide_eq_true_eq] at hw ⊢
  obtain ⟨⟨id, parent⟩, hx, rfl⟩ := List.mem_map.mp hw.1
  exact ⟨List.mem_map.mpr ⟨_, ancestors_mono h 128 hx, rfl⟩, rooted_mono h hw.2⟩

end Paths

end HomeCloud
