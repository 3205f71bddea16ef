import HomeCloud.Files.Tree
import Mathlib.Logic.Relation

/-!
# The tree that a link shares

The recursive queries that admit a download from a shared folder, with `UNION`, so that a row is
taken once.

* `Db.reach`, **`Db.mem_reach`**: what such a query collects.
* `Db.validRoot`, `Db.sharedFile`: the queries.
* `LiveRoot`, `LiveMember`, **`validRoot_iff`**, **`sharedFile_iff`**: what they say.
-/

namespace HomeCloud

open Concurrent Relation

/-! ## Queries with UNION -/

/-- The folders that the query collects from the folder `root` on, going from one to the next. -/
def Db.reach (db : Db) (next : ℕ → ℕ → Bool) (root : ℕ) : List ℕ :=
  saturate (fun ids => db.folders.select fun i _ => i ∈ ids || ids.any (next · i))
    (db.folders.bound + 1) (db.folders.select fun i _ => i = root)

section Reach

variable {db : Db} {next : ℕ → ℕ → Bool} {root i : ℕ}

theorem mem_reachStep {ids : List ℕ} : (i ∈ db.folders.select fun i _ => i ∈ ids || ids.any (next · i)) ↔
    (db.folders.get i).isSome ∧ (i ∈ ids ∨ ∃ c ∈ ids, next c i = true) := by
  rw [Table.mem_select, Option.isSome_iff_exists]
  simp only [Bool.or_eq_true, decide_eq_true_eq, List.any_eq_true]
  exact ⟨fun ⟨r, hr, h⟩ => ⟨⟨r, hr⟩, h⟩, fun ⟨⟨r, hr⟩, h⟩ => ⟨r, hr, h⟩⟩

/-- **The query collects the folders that are reached over folders.** -/
theorem Db.mem_reach : i ∈ db.reach next root ↔ (db.folders.get root).isSome ∧
    ReflTransGen (fun c i => (db.folders.get i).isSome ∧ next c i = true) root i := by
  constructor
  · intro h
    refine saturate_of_step (P := fun ids => ∀ i ∈ ids, (db.folders.get root).isSome ∧
      ReflTransGen (fun c i => (db.folders.get i).isSome ∧ next c i = true) root i)
      (fun ids hids i hi => ?_) _ (fun i hi => ?_) i h
    · obtain ⟨hsome, hi | ⟨c, hc, hnext⟩⟩ := mem_reachStep.mp hi
      · exact hids i hi
      · exact ⟨(hids c hc).1, (hids c hc).2.tail ⟨hsome, hnext⟩⟩
    · obtain ⟨r, hr, hroot⟩ := Table.mem_select.mp hi
      cases of_decide_eq_true hroot
      exact ⟨Option.isSome_iff_exists.mpr ⟨r, hr⟩, .refl⟩
  · rintro ⟨hroot, hpath⟩
    obtain ⟨r, hr⟩ := Option.isSome_iff_exists.mp hroot
    induction hpath with
    | refl =>
      refine saturate_of_step (P := fun ids => root ∈ ids) (fun ids hids => ?_) _ ?_
      · exact mem_reachStep.mpr ⟨hroot, .inl hids⟩
      · exact Table.mem_select.mpr ⟨r, hr, decide_eq_true rfl⟩
    | @tail c i _ hstep ih =>
      refine saturate_closed (b := db.folders.bound) (fun _ => Table.nodup_select ..)
        (fun ids i hi => ?_) (fun ids hids i hi => ?_) _ (Table.nodup_select ..) (fun i hi => ?_)
        (by omega) i (mem_reachStep.mpr ⟨hstep.1, .inr ⟨c, ih, hstep.2⟩⟩)
      · obtain ⟨r, hr, -⟩ := Table.mem_select.mp hi
        exact Table.lt_bound hr
      · exact mem_reachStep.mpr ⟨(mem_reachStep.mp hi).1, .inl hi⟩
      · obtain ⟨r, hr, -⟩ := Table.mem_select.mp hi
        exact mem_reachStep.mpr ⟨Option.isSome_iff_exists.mpr ⟨r, hr⟩, .inl hi⟩

end Reach

/-! ## The shared folder -/

section

variable (db : Db) (userId root : ℕ)

/-- The folder `i` is the parent of the folder `c`. -/
def Db.parentOf (c i : ℕ) : Bool := ((db.folders.get c).bind (·.parentId)) = some i

/-- The folder `i` is a live child of the folder `p`. -/
def Db.liveChild (p i : ℕ) : Bool :=
  (db.folders.get i).any fun r => r.parentId = some p && db.liveFolder userId i r

/-- The folder and those above it are live, up to one without a parent. -/
def Db.validRoot : Bool :=
  let ancestors := db.reach db.parentOf root
  root ∈ ancestors && ancestors.any (fun i => (db.folders.get i).any (·.parentId = none)) &&
    ancestors.all fun i => (db.folders.get i).all (db.liveFolder userId i)

/-- The file is live, and below a valid root. -/
def Db.sharedFile (fileId : ℕ) : Bool :=
  db.validRoot userId root && (db.files.get fileId).any fun r =>
    r.userId = userId && !r.isDeleted && !r.isFolder &&
      r.parentId.any (· ∈ db.reach (db.liveChild userId) root)

/-- Live folders lead from the folder to one without a parent. -/
inductive LiveRoot (db : Db) (userId : ℕ) : ℕ → Prop
  | top {i r} : db.folders.get i = some r → db.liveFolder userId i r = true → r.parentId = none →
      LiveRoot db userId i
  | up {i r p} : db.folders.get i = some r → db.liveFolder userId i r = true →
      r.parentId = some p → LiveRoot db userId p → LiveRoot db userId i

/-- The file is live and lies in the folder or, below it, in live folders. -/
structure LiveMember (fileId : ℕ) : Prop where
  liveRoot : LiveRoot db userId root
  file : ∃ r p, db.files.get fileId = some r ∧ r.userId = userId ∧ r.isDeleted = false ∧
    r.isFolder = false ∧ r.parentId = some p ∧
    ReflTransGen (fun p i => db.liveChild userId p i = true) root p

end

section

variable {db : Db} {userId root fileId : ℕ}

theorem parentOf_iff {c i : ℕ} : db.parentOf c i = true ↔
    ∃ r, db.folders.get c = some r ∧ r.parentId = some i := by
  rw [Db.parentOf, decide_eq_true_eq, Option.bind_eq_some_iff]

/-- Every folder above a live root is one. -/
theorem LiveRoot.of_path (h : LiveRoot db userId root) {i : ℕ}
    (hpath : ReflTransGen (fun c i => (db.folders.get i).isSome ∧ db.parentOf c i = true) root i) :
    LiveRoot db userId i := by
  induction hpath with
  | refl => exact h
  | tail _ hstep ih =>
    obtain ⟨r, hr, hp⟩ := parentOf_iff.mp hstep.2
    cases ih with
    | top hr' _ hn =>
      cases hr.symm.trans hr'
      cases hp.symm.trans hn
    | up hr' _ hp' hup =>
      cases hr.symm.trans hr'
      cases hp.symm.trans hp'
      exact hup

theorem LiveRoot.live (h : LiveRoot db userId root) :
    ∃ r, db.folders.get root = some r ∧ db.liveFolder userId root r = true := by
  cases h with
  | top hr hl _ => exact ⟨_, hr, hl⟩
  | up hr hl _ _ => exact ⟨_, hr, hl⟩

/-- The path of a live root ends at a folder without a parent. -/
theorem LiveRoot.top_reached (h : LiveRoot db userId root) : ∃ i r, db.folders.get i = some r ∧
    r.parentId = none ∧
    ReflTransGen (fun c i => (db.folders.get i).isSome ∧ db.parentOf c i = true) root i := by
  induction h with
  | top hr _ hn => exact ⟨_, _, hr, hn, .refl⟩
  | up hr _ hp hup ih =>
    obtain ⟨i, r, hi, hn, hpath⟩ := ih
    obtain ⟨rp, hrp, -⟩ := hup.live
    exact ⟨i, r, hi, hn, hpath.head ⟨by rw [hrp]; rfl, parentOf_iff.mpr ⟨_, hr, hp⟩⟩⟩

/-- A path to a folder without a parent, over which all folders are live. -/
theorem LiveRoot.of_live {i : ℕ} {top : Folder} (hi : db.folders.get i = some top)
    (hn : top.parentId = none)
    (hpath : ReflTransGen (fun c i => (db.folders.get i).isSome ∧ db.parentOf c i = true) root i)
    (hall : ∀ c, ReflTransGen (fun c i => (db.folders.get i).isSome ∧ db.parentOf c i = true) root c →
      ∀ r, db.folders.get c = some r → db.liveFolder userId c r = true) : LiveRoot db userId root := by
  induction hpath using ReflTransGen.head_induction_on with
  | refl => exact .top hi (hall i .refl top hi) hn
  | head hstep _ ih =>
    obtain ⟨r, hr, hp⟩ := parentOf_iff.mp hstep.2
    exact .up hr (hall _ .refl r hr) hp (ih fun c hc => hall c (hc.head hstep))

/-- **The query finds the root valid exactly when it is live.** -/
theorem validRoot_iff : db.validRoot userId root = true ↔ LiveRoot db userId root := by
  simp only [Db.validRoot, Bool.and_eq_true, decide_eq_true_eq, List.any_eq_true, List.all_eq_true,
    Db.mem_reach]
  constructor
  · rintro ⟨⟨⟨hroot, -⟩, i, ⟨-, hpath⟩, htop⟩, hlive⟩
    obtain ⟨top, hi, hn⟩ := (Option.any_eq_true ..).mp htop
    refine LiveRoot.of_live hi (of_decide_eq_true hn) hpath fun c hc r hr => ?_
    have hl := hlive c ⟨hroot, hc⟩
    rwa [hr, Option.all_some] at hl
  · intro h
    obtain ⟨r, hr, -⟩ := h.live
    have hroot : (db.folders.get root).isSome := by rw [hr]; rfl
    obtain ⟨i, top, hi, hn, hpath⟩ := h.top_reached
    refine ⟨⟨⟨hroot, .refl⟩, i, ⟨hroot, hpath⟩, ?_⟩, fun c hc => ?_⟩
    · rw [hi, Option.any_some]
      exact decide_eq_true hn
    · obtain ⟨rc, hrc, hl⟩ := (h.of_path hc.2).live
      rwa [hrc, Option.all_some]

/-- **The query finds exactly the live members of a live shared folder.** -/
theorem sharedFile_iff : db.sharedFile userId root fileId = true ↔
    LiveMember db userId root fileId := by
  have hpath : ∀ p, ReflTransGen (fun p i => (db.folders.get i).isSome ∧ db.liveChild userId p i = true)
      root p ↔ ReflTransGen (fun p i => db.liveChild userId p i = true) root p := by
    intro p
    have hsame : (fun p i => (db.folders.get i).isSome ∧ db.liveChild userId p i = true) =
        fun p i => db.liveChild userId p i = true := by
      funext p i
      refine propext ⟨And.right, fun h => ⟨?_, h⟩⟩
      obtain ⟨r, hr, -⟩ := (Option.any_eq_true ..).mp h
      rw [hr]
      rfl
    rw [hsame]
  rw [Db.sharedFile, Bool.and_eq_true, validRoot_iff]
  constructor
  · rintro ⟨hroot, hfile⟩
    obtain ⟨r, hr, hif⟩ := (Option.any_eq_true ..).mp hfile
    simp only [Bool.and_eq_true, decide_eq_true_eq, Bool.not_eq_true'] at hif
    obtain ⟨p, hp, hmem⟩ := (Option.any_eq_true ..).mp hif.2
    rw [decide_eq_true_eq, Db.mem_reach, hpath] at hmem
    exact ⟨hroot, r, p, hr, hif.1.1.1, hif.1.1.2, hif.1.2, hp, hmem.2⟩
  · rintro ⟨hroot, r, p, hr, hu, hd, hf, hp, hmem⟩
    obtain ⟨rr, hrr, -⟩ := hroot.live
    refine ⟨hroot, (Option.any_eq_true ..).mpr ⟨r, hr, ?_⟩⟩
    have hin : p ∈ db.reach (db.liveChild userId) root :=
      Db.mem_reach.mpr ⟨by rw [hrr]; rfl, (hpath p).mpr hmem⟩
    simp [hu, hd, hf, hp, hin]

end

end HomeCloud
