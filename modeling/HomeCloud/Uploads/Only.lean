import HomeCloud.Uploads.Service

/-!
# The statements that the upload operations run

* `Instr.quiet`: a statement that leaves the files and the locks on sessions alone, but for a rollback.
* `only_query`, `only_authorizeSession`, `only_publish`: what the building blocks run.
-/

namespace HomeCloud

open Concurrent

/-- A statement that leaves the files and the locks on sessions alone, but for a rollback. -/
def Instr.quiet : Instr → Bool
  | .read | .lock _ | .names _ | .check _ | .rollback => true
  | _ => false

section Only

variable {K : Instr → Prop} {α : Type}

theorem only_statement {i : Instr} {f : ℕ → World → α} (hi : K i) : (statement i f).Only K :=
  ⟨hi, fun t w => by
    dsimp only
    split_ifs <;> trivial⟩

theorem only_require {e : Err} {o : Option α} : (require e o).Only K := by
  cases o <;> trivial

theorem only_assert {e : Err} {b : Bool} : (assert e b).Only K := by
  cases b <;> trivial

theorem only_mayFail {e : Err} : (mayFail e).Only K := fun n => by
  dsimp only
  split_ifs <;> trivial

theorem only_parseDatabaseSize {message : String} {n : ℤ} :
    (parseDatabaseSize message n).Only K := by
  unfold parseDatabaseSize
  split_ifs <;> trivial

theorem only_onFiles {op : DiskOp} {f : World → α} (hop : K (.disk op)) :
    (onFiles op f).Only K :=
  .bind only_mayFail fun _ => .bind ⟨hop, fun _ _ => trivial⟩ fun _ => .bind only_mayFail fun _ => trivial

variable (hK : ∀ i : Instr, i.quiet = true → K i)

include hK

theorem only_query {f : World → α} : (query f).Only K := only_statement (hK _ rfl)

theorem only_selectForUpdate {k : LockKey} {f : Db → α} : (selectForUpdate k f).Only K :=
  only_statement (hK _ rfl)

theorem only_orRollback {p : Op α} (hp : p.Only K) : (orRollback p).Only K :=
  .tryCatch hp fun _ => .bind ⟨hK _ rfl, fun _ _ => trivial⟩ fun _ => trivial

theorem runs_orRollback {P : α → Prop} {p : Op α} (hp : p.Runs K P) : (orRollback p).Runs K P :=
  .tryCatch hp fun _ => .bind ⟨hK _ rfl, fun _ _ => trivial⟩ fun _ => trivial

theorem only_allocateNamespaceName {userId : ℕ} {parentId : Option ℕ} {requested : JsString}
    {kind : EntryKind} {excludeFile excludeFolder : Option ℕ} :
    (allocateNamespaceName userId parentId requested kind excludeFile excludeFolder).Only K := by
  have hread : (do
      let choice ← readNames ⟨⟨userId, parentId⟩, kind, requested, excludeFile, excludeFolder⟩
      require (.conflict "Destination name space exhausted") choice).Only K :=
    .bind (only_statement (hK _ rfl)) fun _ => only_require
  unfold allocateNamespaceName
  cases parentId with
  | none => exact hread
  | some p => exact .bind (only_selectForUpdate hK) fun _ => .bind only_assert fun _ => hread

theorem only_updateStorageUsed {id bytes : ℕ} : (updateStorageUsed id bytes).Only K := by
  unfold updateStorageUsed
  split_ifs
  · trivial
  · refine .bind (only_selectForUpdate hK) fun row => ?_
    split
    · split_ifs
      · trivial
      · exact .bind (only_query hK) fun _ => .bind only_require fun _ => by split_ifs <;> trivial
    · trivial

theorem only_lockFolders : ∀ ids, (lockFolders ids).Only K
  | [] => trivial
  | _ :: ids => .bind (only_selectForUpdate hK) fun _ => only_lockFolders ids

theorem only_livePath {userId targetId rootId : ℕ} : (livePath userId targetId rootId).Only K :=
  .bind (only_query hK) fun _ => .bind only_assert fun _ => trivial

theorem only_authorizeUpload {token parentId : ℕ} {proof : UploadProof} {lock : Bool} :
    (authorizeUpload token proof parentId lock).Only K := by
  refine .bind (.bind (only_statement (hK _ rfl)) fun _ => only_assert) fun _ => ?_
  split_ifs
  · refine .bind (.bind (only_query hK) fun _ => .bind only_require fun _ =>
      .bind (only_selectForUpdate hK) fun _ => only_require) fun _ => ?_
    exact .bind (only_livePath hK) fun _ => .bind (only_lockFolders hK _) fun _ =>
      .bind (only_livePath hK) fun _ => trivial
  · exact .bind (only_query hK) fun _ => .bind only_require fun _ =>
      .bind (only_livePath hK) fun _ => trivial

theorem only_authorizeSession {enabled : Bool} {s : UploadSession} {access : Option PublicAccess}
    {lock : Bool} : (authorizeSession enabled s access lock).Only K := by
  cases access with
  | none => trivial
  | some a =>
    exact .bind only_assert fun _ => .bind only_assert fun _ => .bind only_require fun _ =>
      only_authorizeUpload hK

theorem only_lockPublicationDestination {userId : ℕ} {parentId : Option ℕ} :
    (lockPublicationDestination userId parentId).Only K := by
  cases parentId with
  | none => trivial
  | some p =>
    exact .bind (only_query hK) fun _ => .bind only_assert fun _ => only_lockFolders hK _

theorem only_resolveSessionWorkspace {s : UploadSession} :
    (resolveSessionWorkspace s).Only K :=
  .bind (only_query hK) fun _ => .bind only_mayFail fun _ => only_assert

end Only

end HomeCloud
