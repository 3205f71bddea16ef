import HomeCloud.Faults
import HomeCloud.Statements

/-!
# Copying a file

One call of `copyFile`, in which any step may fail and the COMMIT may take effect at any time.

* `copyFile`: the call.
* `Compensated`: a call that fails leaves the copy with its charge and its object, or neither row nor charge.
* `Commits`: the call comes to its COMMIT.
* **`compensated_iff`**: when a call compensates; `not_compensated_of_late`.
-/

namespace HomeCloud

open Concurrent Faults

namespace Copying

/-! ## What may fail -/

/-- The steps of a call, without its COMMIT. -/
inductive Step where
  | source
  | user
  | folder
  | path
  | copy
  | runner
  | connect
  | begin
  | charge
  | parent
  | names
  | insert
  | lookup
  | remove
  deriving DecidableEq

/-- What becomes of a COMMIT: it takes effect and is acknowledged, it is refused, or the connection is lost; then
it takes effect before the copy is looked up, or later. -/
inductive Outcome where
  | acknowledged
  | refused
  | unacknowledged
  | late
  deriving DecidableEq

/-- What a call meets: the steps that fail, what a copy that fails leaves, the key of the copy, and what becomes of
the COMMIT. -/
structure Env where
  fails : Step → Bool
  left : Option Bytes
  fresh : ℕ
  outcome : Outcome

/-- The database and the objects. -/
structure Store where
  db : Db
  objects : Placement → Option Bytes

/-! ## The call -/

section Call

variable (env : Env) (S : Store) (userId id : ℕ) (targetParentId : Option ℕ)

/-- The place that `generatePath` makes up. -/
def Env.target : Placement := ⟨0, .object env.fresh⟩

/-- A statement on the database. -/
def Env.statement (step : Step) : Except Err Unit := attempt env.fails step (.database .connectionLost)

def findOne : Except Err File := do
  env.statement .source
  found (.notFound "File not found") ((S.db.files.get id).filter (·.userId = userId))

def assertFolderOwnership : Except Err Unit :=
  match targetParentId with
  | none | some 0 => .ok ()
  | some p => do
    env.statement .folder
    check (.forbidden "Target folder not found or access denied") ((S.db.folders.get p).any (·.userId = userId))

def parseDatabaseSize (message : String) (n : ℕ) : Except Err ℕ :=
  if n ≤ 9007199254740991 then .ok n else .error (.badRequest message)

/-- What precedes the copy of the object: the source, its object, the size and the name. -/
def prepare : Except Err (File × Placement × ℕ × JsString) := do
  let source ← findOne env S userId id
  env.statement .user
  let _ ← found (.forbidden "User not found") (S.db.users.get userId)
  assertFolderOwnership env S userId targetParentId
  let size ← parseDatabaseSize "Invalid file size metadata" source.size
  let displayName ← found (.badRequest "Invalid file name") (validateDisplayName source.name.val)
  attempt env.fails .path .filesystem
  let object ← found (.badRequest "Unknown or incomplete storage placement") source.placement
  return (source, object, size, displayName)

def updateStorageUsed (bytes : ℕ) : Except Err Unit :=
  if bytes = 0 then .ok ()
  else do
    env.statement .charge
    let user ← found (.notFound "User not found") (S.db.users.get userId)
    check (.forbidden "Storage quota exceeded") (user.storageUsed + bytes ≤ user.storageQuota)

def allocateNamespaceName (displayName : JsString) : Except Err NameChoice := do
  match targetParentId with
  | none => pure ()
  | some p =>
    env.statement .parent
    check (.notFound "Destination folder unavailable")
      ((S.db.folders.get p).any fun r => r.userId = userId && !r.isDeleted)
  env.statement .names
  found (.conflict "Destination name space exhausted")
    (NameQuery.choose ⟨⟨userId, targetParentId⟩, .file, displayName, none, none⟩ S.db)

/-- The row of the copy. -/
def copyOf (source : File) (size : ℕ) (choice : NameChoice) : File where
  name := .ofJs choice.chosen
  placement := some env.target
  size := size
  mimeType := source.mimeType
  checksum := none
  isFolder := false
  isDeleted := false
  deletedAt := none
  parentId := targetParentId
  folderId := none
  uploadId := none
  userId := userId

/-- The transaction up to its COMMIT, and what it writes. -/
def insertCopy (source : File) (size : ℕ) (displayName : JsString) : Except Err (File × FilesTx) := do
  attempt env.fails .runner (.database .connectionLost)
  env.statement .connect
  env.statement .begin
  updateStorageUsed env S userId size
  let choice ← allocateNamespaceName env S userId targetParentId displayName
  env.statement .insert
  let copy := copyOf env userId targetParentId source size choice
  check (.database .constraint) ((Tx.files (.addFile copy choice)).allowed S.db)
  return (copy, .addFile copy choice)

def cleanupDestination (S : Store) : Store :=
  if env.fails .remove then S else { S with objects := setAt S.objects env.target none }

/-- After a COMMIT that has failed, the object is removed unless the copy is found. -/
def reconcile (copyId : ℕ) (S : Store) : Store :=
  if env.fails .lookup then S
  else if (S.db.files.get copyId).any fun r => r.userId = userId && r.placement = some env.target then S
  else cleanupDestination env S

/-- The end of the call, once the COMMIT is decided. -/
def commitTransaction (copy : File) (tx : FilesTx) (S : Store) : Except Err File × Store :=
  let copyId := S.db.files.bound
  match env.outcome with
  | .acknowledged => (.ok copy, { S with db := tx.apply S.db })
  | .refused => (.error (.database .connectionLost), reconcile env userId copyId S)
  | .unacknowledged =>
    (.error (.database .connectionLost), reconcile env userId copyId { S with db := tx.apply S.db })
  | .late =>
    let S' := reconcile env userId copyId S
    (.error (.database .connectionLost), { S' with db := tx.apply S'.db })

/-- What a call returns, and the state once its COMMIT is decided. -/
def copyFile : Except Err File × Store :=
  match prepare env S userId id targetParentId with
  | .error e => (.error e, S)
  | .ok (source, object, size, displayName) =>
    match S.objects object, S.objects env.target with
    | some data, none =>
      if env.fails .copy then (.error .filesystem, { S with objects := setAt S.objects env.target env.left })
      else
        let S' := { S with objects := setAt S.objects env.target (some data) }
        match insertCopy env S' userId targetParentId source size displayName with
        | .error e => (.error e, cleanupDestination env S')
        | .ok (copy, tx) => commitTransaction env userId copy tx S'
    | _, _ => (.error .filesystem, S)

end Call

/-! ## What a call that fails leaves -/

section Spec

variable (env : Env) (S : Store) (userId id : ℕ) (targetParentId : Option ℕ)

/-- There are a copy of the file, its charge and its object. -/
def Made (S' : Store) : Prop :=
  ∃ source object copy target, S.db.files.get id = some source ∧ source.placement = some object ∧
    copy.userId = userId ∧ copy.size = source.size ∧ copy.placement = some target ∧
      S'.db = { S.db with files := S.db.files.insert copy }.charge userId copy.size ∧
        (S'.objects target).isSome ∧ S'.objects target = S.objects object

/-- **The call compensates**: if it fails, there are the row, its charge and its object, or neither row nor
charge. -/
def Compensated : Prop :=
  ∀ e S', copyFile env S userId id targetParentId = (.error e, S') → Made S userId id S' ∨ S'.db = S.db

/-- The call comes to its COMMIT. -/
structure Copies (source : File) (object : Placement) (data : Bytes) (displayName : JsString) (choice : NameChoice) :
    Prop where
  steps : ∀ step ∈ [Step.source, .user, .path, .copy, .runner, .connect, .begin, .names, .insert], env.fails step = false
  found : S.db.files.get id = some source
  owned : source.userId = userId
  known : (S.db.users.get userId).isSome
  folder : ∀ p, targetParentId = some p →
    (p ≠ 0 → env.fails .folder = false) ∧ env.fails .parent = false ∧
      ∃ r, S.db.folders.get p = some r ∧ r.userId = userId ∧ r.isDeleted = false
  size : source.size ≤ 9007199254740991
  name : validateDisplayName source.name.val = some displayName
  placement : source.placement = some object
  stored : S.objects object = some data
  free : S.objects env.target = none
  charge : source.size = 0 ∨ (env.fails .charge = false ∧
    ∃ user, S.db.users.get userId = some user ∧ user.storageUsed + source.size ≤ user.storageQuota)
  chosen : NameQuery.choose ⟨⟨userId, targetParentId⟩, .file, displayName, none, none⟩ S.db = some choice
  allowed : (Tx.files (.addFile (copyOf env userId targetParentId source source.size choice) choice)).allowed S.db = true

/-- The call comes to its COMMIT. -/
def Commits : Prop :=
  ∃ source object data displayName choice, Copies env S userId id targetParentId source object data displayName choice

end Spec

/-! ## Up to the COMMIT -/

section Steps

variable {env : Env} {S : Store} {userId id : ℕ} {targetParentId : Option ℕ}

theorem parseDatabaseSize_eq_ok {message : String} {n m : ℕ} :
    parseDatabaseSize message n = .ok m ↔ n ≤ 9007199254740991 ∧ n = m := by
  unfold parseDatabaseSize
  split
  next h => simp [h]
  next h => simp [h]

theorem filter_eq_some {source : File} : (S.db.files.get id).filter (·.userId = userId) = some source ↔
    S.db.files.get id = some source ∧ source.userId = userId := by
  rw [Option.filter_eq_some_iff, decide_eq_true_eq]

theorem assertFolderOwnership_eq_ok {u : Unit} : assertFolderOwnership env S userId targetParentId = .ok u ↔
    ∀ p, targetParentId = some p → p ≠ 0 →
      env.fails .folder = false ∧ ∃ r, S.db.folders.get p = some r ∧ r.userId = userId := by
  match targetParentId with
  | none => exact ⟨fun _ p hp => (nomatch hp), fun _ => rfl⟩
  | some 0 => exact ⟨fun _ p hp hne => absurd (Option.some.inj hp).symm hne, fun _ => rfl⟩
  | some (p + 1) =>
    have hfolder : assertFolderOwnership env S userId (some (p + 1)) = .ok u ↔
        env.fails .folder = false ∧ ∃ r, S.db.folders.get (p + 1) = some r ∧ r.userId = userId := by
      simp only [assertFolderOwnership, bind_eq_ok, Env.statement, attempt_eq_ok, check_eq_ok, Option.any_eq_true,
        decide_eq_true_eq, exists_const]
    rw [hfolder]
    refine ⟨fun h q hq _ => ?_, fun h => h (p + 1) rfl (Nat.succ_ne_zero p)⟩
    cases hq
    exact h

theorem prepare_eq_ok {source : File} {object : Placement} {size : ℕ} {displayName : JsString} :
    prepare env S userId id targetParentId = .ok (source, object, size, displayName) ↔
      (env.fails .source = false ∧ env.fails .user = false ∧ env.fails .path = false) ∧
      (S.db.files.get id = some source ∧ source.userId = userId) ∧ (S.db.users.get userId).isSome ∧
      (∀ p, targetParentId = some p → p ≠ 0 →
        env.fails .folder = false ∧ ∃ r, S.db.folders.get p = some r ∧ r.userId = userId) ∧
      (source.size ≤ 9007199254740991 ∧ source.size = size) ∧
      validateDisplayName source.name.val = some displayName ∧ source.placement = some object := by
  simp only [prepare, findOne, bind_eq_ok, Env.statement, attempt_eq_ok, found_eq_ok, filter_eq_some,
    assertFolderOwnership_eq_ok, parseDatabaseSize_eq_ok, Unique.exists_iff, pure_eq_ok, Prod.mk.injEq,
    Option.isSome_iff_exists]
  constructor
  · rintro ⟨s, ⟨hsource, hs, howned⟩, huser, user, hknown, hfolder, n, hn, name, hname, hpath, o, ho, rfl, rfl, rfl, rfl⟩
    exact ⟨⟨hsource, huser, hpath⟩, ⟨hs, howned⟩, ⟨user, hknown⟩, hfolder, hn, hname, ho⟩
  · rintro ⟨⟨hsource, huser, hpath⟩, ⟨hs, howned⟩, ⟨user, hknown⟩, hfolder, hn, hname, ho⟩
    exact ⟨source, ⟨hsource, hs, howned⟩, huser, user, hknown, hfolder, size, hn, displayName, hname, hpath, object, ho,
      rfl, rfl, rfl, rfl⟩

theorem updateStorageUsed_eq_ok {bytes : ℕ} {u : Unit} : updateStorageUsed env S userId bytes = .ok u ↔
    bytes = 0 ∨ (env.fails .charge = false ∧
      ∃ user, S.db.users.get userId = some user ∧ user.storageUsed + bytes ≤ user.storageQuota) := by
  unfold updateStorageUsed
  split
  next h => exact ⟨fun _ => .inl h, fun _ => rfl⟩
  next h =>
    simp only [bind_eq_ok, Env.statement, attempt_eq_ok, found_eq_ok, check_eq_ok, decide_eq_true_eq, exists_const, h,
      false_or]

theorem allocateNamespaceName_eq_ok {displayName : JsString} {choice : NameChoice} :
    allocateNamespaceName env S userId targetParentId displayName = .ok choice ↔
      (∀ p, targetParentId = some p →
        env.fails .parent = false ∧ ∃ r, S.db.folders.get p = some r ∧ r.userId = userId ∧ r.isDeleted = false) ∧
      env.fails .names = false ∧
      NameQuery.choose ⟨⟨userId, targetParentId⟩, .file, displayName, none, none⟩ S.db = some choice := by
  unfold allocateNamespaceName
  cases targetParentId with
  | none =>
    simp [bind_eq_ok, Env.statement, attempt_eq_ok, found_eq_ok]
  | some p =>
    simp only [bind_eq_ok, Env.statement, attempt_eq_ok, found_eq_ok, check_eq_ok, exists_const, Option.any_eq_true,
      Bool.and_eq_true, decide_eq_true_eq, Bool.not_eq_true', Option.some.injEq, forall_eq', and_assoc]

theorem insertCopy_eq_ok {source copy : File} {size : ℕ} {displayName : JsString} {tx : FilesTx} :
    insertCopy env S userId targetParentId source size displayName = .ok (copy, tx) ↔
      (env.fails .runner = false ∧ env.fails .connect = false ∧ env.fails .begin = false ∧ env.fails .insert = false) ∧
      updateStorageUsed env S userId size = .ok () ∧
      ∃ choice, allocateNamespaceName env S userId targetParentId displayName = .ok choice ∧
        (Tx.files (.addFile (copyOf env userId targetParentId source size choice) choice)).allowed S.db = true ∧
        copy = copyOf env userId targetParentId source size choice ∧ tx = .addFile copy choice := by
  simp only [insertCopy, bind_eq_ok, Env.statement, attempt_eq_ok, check_eq_ok, Unique.exists_iff, pure_eq_ok,
    Prod.mk.injEq]
  constructor
  · rintro ⟨hrunner, hconnect, hbegin, hcharge, choice, hchoice, hinsert, hallowed, rfl, rfl⟩
    exact ⟨⟨hrunner, hconnect, hbegin, hinsert⟩, hcharge, choice, hchoice, hallowed, rfl, rfl⟩
  · rintro ⟨⟨hrunner, hconnect, hbegin, hinsert⟩, hcharge, choice, hchoice, hallowed, rfl, rfl⟩
    exact ⟨hrunner, hconnect, hbegin, hcharge, choice, hchoice, hinsert, hallowed, rfl, rfl⟩

/-- What the transaction writes does not depend on the objects. -/
theorem insertCopy_objects {source : File} {size : ℕ} {displayName : JsString} (objects : Placement → Option Bytes) :
    insertCopy env { S with objects := objects } userId targetParentId source size displayName =
      insertCopy env S userId targetParentId source size displayName := rfl

/-- The call comes to its COMMIT when the steps before it succeed. -/
theorem copies_iff {source : File} {object : Placement} {data : Bytes} {displayName : JsString} {choice : NameChoice} :
    Copies env S userId id targetParentId source object data displayName choice ↔
      prepare env S userId id targetParentId = .ok (source, object, source.size, displayName) ∧
      S.objects object = some data ∧ S.objects env.target = none ∧ env.fails .copy = false ∧
      insertCopy env S userId targetParentId source source.size displayName =
        .ok (copyOf env userId targetParentId source source.size choice,
          .addFile (copyOf env userId targetParentId source source.size choice) choice) := by
  simp only [prepare_eq_ok, insertCopy_eq_ok, updateStorageUsed_eq_ok, allocateNamespaceName_eq_ok]
  constructor
  · intro h
    have hsteps (step : Step) (hstep : step ∈ [Step.source, .user, .path, .copy, .runner, .connect, .begin, .names,
        .insert]) : env.fails step = false := h.steps step hstep
    refine ⟨⟨⟨hsteps _ (by decide), hsteps _ (by decide), hsteps _ (by decide)⟩, ⟨h.found, h.owned⟩, h.known,
      fun p hp hne => ?_, ⟨h.size, trivial⟩, h.name, h.placement⟩, h.stored, h.free, hsteps _ (by decide),
      ⟨hsteps _ (by decide), hsteps _ (by decide), hsteps _ (by decide), hsteps _ (by decide)⟩, h.charge, choice,
      ⟨fun p hp => (h.folder p hp).2, hsteps _ (by decide), h.chosen⟩, h.allowed, rfl, rfl⟩
    obtain ⟨hfolder, -, r, hr, howned, -⟩ := h.folder p hp
    exact ⟨hfolder hne, r, hr, howned⟩
  · rintro ⟨⟨⟨hsource, huser, hpath⟩, ⟨hfound, howned⟩, hknown, hfolder, ⟨hsize, -⟩, hname, hplacement⟩, hstored, hfree, hcopy,
      ⟨hrunner, hconnect, hbegin, hinsert⟩, hcharge, choice', ⟨hparent, hnames, hchosen⟩, hallowed, -, htx⟩
    obtain ⟨-, rfl⟩ := FilesTx.addFile.inj htx
    refine ⟨?_, hfound, howned, hknown, fun p hp => ⟨fun hne => (hfolder p hp hne).1, hparent p hp⟩, hsize, hname,
      hplacement, hstored, hfree, hcharge, hchosen, hallowed⟩
    simp only [List.forall_mem_cons, hsource, huser, hpath, hcopy, hrunner, hconnect, hbegin, hnames, hinsert, true_and]
    exact fun step h => absurd h List.not_mem_nil

/-- **How far a call gets**: it fails and leaves the database, or it comes to its COMMIT. -/
theorem copyFile_cases (env : Env) (S : Store) (userId id : ℕ) (targetParentId : Option ℕ) :
    (¬Commits env S userId id targetParentId ∧
      ∃ e S', copyFile env S userId id targetParentId = (.error e, S') ∧ S'.db = S.db) ∨
    ∃ source object data displayName choice,
      Copies env S userId id targetParentId source object data displayName choice ∧
      copyFile env S userId id targetParentId =
        commitTransaction env userId (copyOf env userId targetParentId source source.size choice)
          (.addFile (copyOf env userId targetParentId source source.size choice) choice)
          { S with objects := setAt S.objects env.target (some data) } := by
  unfold copyFile
  cases hprepare : prepare env S userId id targetParentId with
  | error e =>
    refine .inl ⟨?_, e, S, rfl, rfl⟩
    rintro ⟨source, object, data, displayName, choice, h⟩
    cases hprepare.symm.trans (copies_iff.mp h).1
  | ok x =>
    obtain ⟨source, object, size, displayName⟩ := x
    obtain rfl : source.size = size := (prepare_eq_ok.mp hprepare).2.2.2.2.1.2
    have hrest : Commits env S userId id targetParentId → (∃ data, S.objects object = some data) ∧
        S.objects env.target = none ∧ env.fails .copy = false ∧
        ∃ copy tx, insertCopy env S userId targetParentId source source.size displayName = .ok (copy, tx) := by
      rintro ⟨source', object', data, displayName', choice, h⟩
      obtain ⟨hprepare', hstored, hfree, hcopy, hinsert⟩ := copies_iff.mp h
      cases hprepare.symm.trans hprepare'
      exact ⟨⟨data, hstored⟩, hfree, hcopy, _, _, hinsert⟩
    dsimp only
    cases hstored : S.objects object with
    | none =>
      refine .inl ⟨fun h => ?_, _, S, rfl, rfl⟩
      obtain ⟨⟨data, hdata⟩, -⟩ := hrest h
      cases hstored.symm.trans hdata
    | some data =>
      cases hfree : S.objects env.target with
      | some other => exact .inl ⟨fun h => (nomatch hfree.symm.trans (hrest h).2.1), _, S, rfl, rfl⟩
      | none =>
        dsimp only
        by_cases hcopy : env.fails .copy = true
        · rw [if_pos hcopy]
          exact .inl ⟨fun h => (nomatch hcopy.symm.trans (hrest h).2.2.1), _, _, rfl, rfl⟩
        · rw [if_neg hcopy, insertCopy_objects]
          cases hinsert : insertCopy env S userId targetParentId source source.size displayName with
          | error e =>
            refine .inl ⟨fun h => ?_, e, _, rfl, ?_⟩
            · obtain ⟨copy, tx, hok⟩ := (hrest h).2.2.2
              cases hinsert.symm.trans hok
            · unfold cleanupDestination
              split
              · rfl
              · rfl
          | ok y =>
            obtain ⟨copy, tx⟩ := y
            obtain ⟨-, -, choice, -, -, rfl, rfl⟩ := insertCopy_eq_ok.mp hinsert
            have hcopies : Copies env S userId id targetParentId source object data displayName choice :=
              copies_iff.mpr ⟨hprepare, hstored, hfree, Bool.not_eq_true _ ▸ hcopy, hinsert⟩
            exact .inr ⟨source, object, data, displayName, choice, hcopies, rfl⟩

end Steps

/-! ## When a call compensates -/

section Main

variable {env : Env} {S S' : Store} {userId id : ℕ} {targetParentId : Option ℕ} {source : File} {object : Placement}
  {data : Bytes} {displayName : JsString} {choice : NameChoice}

/-- The row that a COMMIT which takes effect inserts. -/
theorem get_bound_apply (copy : File) (choice : NameChoice) (db : Db) :
    ((FilesTx.addFile copy choice).apply db).files.get db.files.bound = some copy := by
  simp [FilesTx.apply, Db.charge, Table.insert]

theorem apply_ne (copy : File) (choice : NameChoice) (db : Db) : (FilesTx.addFile copy choice).apply db ≠ db := by
  intro h
  have hrow : ((FilesTx.addFile copy choice).apply db).files.get db.files.bound = some copy :=
    get_bound_apply copy choice db
  rw [h, db.files.absent _ le_rfl] at hrow
  cases hrow

/-- The copy is there when its COMMIT has taken effect and its object has not been removed. -/
theorem made_of_copies (h : Copies env S userId id targetParentId source object data displayName choice)
    (hdb : S'.db =
      (FilesTx.addFile (copyOf env userId targetParentId source source.size choice) choice).apply S.db)
    (hobjects : S'.objects env.target = some data) : Made S userId id S' :=
  ⟨source, object, copyOf env userId targetParentId source source.size choice, env.target, h.found, h.placement, rfl,
    rfl, rfl, hdb, by rw [hobjects]; rfl, hobjects.trans h.stored.symm⟩

/-- It is not there when its object has been removed. -/
theorem not_made {copy : File} (choice : NameChoice) (hdb : S'.db = (FilesTx.addFile copy choice).apply S.db)
    (hplacement : copy.placement = some env.target) (hobjects : S'.objects env.target = none) :
    ¬Made S userId id S' := by
  rintro ⟨source, object, copy', target, -, -, -, -, htarget, hdb', hsome, -⟩
  have hrow : S'.db.files.get S.db.files.bound = some copy := by
    rw [hdb]
    exact get_bound_apply copy choice S.db
  have hrow' : S'.db.files.get S.db.files.bound = some copy' := by
    rw [hdb']
    simp [Db.charge, Table.insert]
  cases hrow.symm.trans hrow'
  cases hplacement.symm.trans htarget
  rw [hobjects] at hsome
  cases hsome

theorem cleanupDestination_db : (cleanupDestination env S).db = S.db := by
  unfold cleanupDestination
  split
  · rfl
  · rfl

theorem reconcile_db {copyId : ℕ} : (reconcile env userId copyId S).db = S.db := by
  unfold reconcile
  split
  · rfl
  split
  · rfl
  · exact cleanupDestination_db

/-- The object stays when the copy is found. -/
theorem reconcile_found {copyId : ℕ} {copy : File} (hrow : S.db.files.get copyId = some copy)
    (howned : copy.userId = userId) (hplacement : copy.placement = some env.target) :
    reconcile env userId copyId S = S := by
  unfold reconcile
  split
  · rfl
  · rw [hrow, Option.any_some, howned, hplacement, decide_eq_true rfl, decide_eq_true rfl]
    exact if_pos rfl

/-- The object is removed when the copy is not found. -/
theorem reconcile_missing {copyId : ℕ} (hrow : S.db.files.get copyId = none) :
    reconcile env userId copyId S = if env.fails .lookup then S else cleanupDestination env S := by
  unfold reconcile
  rw [hrow]
  rfl

/-- **A call compensates** unless its COMMIT takes effect after the copy has been looked up in vain and its object
removed. -/
theorem compensated_iff (env : Env) (S : Store) (userId id : ℕ) (targetParentId : Option ℕ) :
    Compensated env S userId id targetParentId ↔ ¬(Commits env S userId id targetParentId ∧ env.outcome = .late ∧
      env.fails .lookup = false ∧ env.fails .remove = false) := by
  rcases copyFile_cases env S userId id targetParentId with
    ⟨hnot, e, S', heq, hdb⟩ | ⟨source, object, data, displayName, choice, h, heq⟩
  · refine ⟨fun _ hlate => hnot hlate.1, fun _ e' S'' heq' => .inr ?_⟩
    cases heq.symm.trans heq'
    exact hdb
  have hcommits : Commits env S userId id targetParentId := ⟨source, object, data, displayName, choice, h⟩
  have hstored : setAt S.objects env.target (some data) env.target = some data := setAt_self _ _ _
  have hmissing : S.db.files.get S.db.files.bound = none := S.db.files.absent _ le_rfl
  cases houtcome : env.outcome with
  | acknowledged =>
    refine ⟨fun _ hlate => (nomatch hlate.2.1), fun _ e S' heq' => ?_⟩
    rw [heq, commitTransaction, houtcome] at heq'
    cases heq'
  | refused =>
    refine ⟨fun _ hlate => (nomatch hlate.2.1), fun _ e S' heq' => .inr ?_⟩
    rw [heq, commitTransaction, houtcome] at heq'
    cases heq'
    exact reconcile_db
  | unacknowledged =>
    refine ⟨fun _ hlate => (nomatch hlate.2.1), fun _ e S' heq' => .inl ?_⟩
    rw [heq, commitTransaction, houtcome] at heq'
    have hfound : reconcile env userId S.db.files.bound
        { db := (FilesTx.addFile (copyOf env userId targetParentId source source.size choice) choice).apply S.db
          objects := setAt S.objects env.target (some data) } =
        { db := (FilesTx.addFile (copyOf env userId targetParentId source source.size choice) choice).apply S.db
          objects := setAt S.objects env.target (some data) } :=
      reconcile_found (get_bound_apply (copyOf env userId targetParentId source source.size choice) choice S.db) rfl rfl
    dsimp only at heq'
    rw [hfound] at heq'
    cases heq'
    exact made_of_copies h rfl hstored
  | late =>
    have hlate : copyFile env S userId id targetParentId = (.error (.database .connectionLost),
        { db := (FilesTx.addFile (copyOf env userId targetParentId source source.size choice) choice).apply S.db
          objects := (reconcile env userId S.db.files.bound
            { S with objects := setAt S.objects env.target (some data) }).objects }) := by
      rw [heq, commitTransaction, houtcome]
      dsimp only
      rw [reconcile_db]
    have hreconcile : reconcile env userId S.db.files.bound { S with objects := setAt S.objects env.target (some data) } =
        if env.fails .lookup then { S with objects := setAt S.objects env.target (some data) }
        else cleanupDestination env { S with objects := setAt S.objects env.target (some data) } :=
      reconcile_missing hmissing
    rw [hreconcile, cleanupDestination] at hlate
    by_cases hlookup : env.fails .lookup = true
    · rw [if_pos hlookup] at hlate
      refine ⟨fun _ hcond => (nomatch hlookup.symm.trans hcond.2.2.1), fun _ e S' heq' => .inl ?_⟩
      cases hlate.symm.trans heq'
      exact made_of_copies h rfl hstored
    by_cases hremove : env.fails .remove = true
    · rw [if_neg hlookup, if_pos hremove] at hlate
      refine ⟨fun _ hcond => (nomatch hremove.symm.trans hcond.2.2.2), fun _ e S' heq' => .inl ?_⟩
      cases hlate.symm.trans heq'
      exact made_of_copies h rfl hstored
    · rw [if_neg hlookup, if_neg hremove] at hlate
      refine ⟨fun hcompensated _ => ?_, fun hnot => ?_⟩
      · rcases hcompensated _ _ hlate with hmade | hdb
        · exact not_made choice rfl rfl (setAt_self _ _ _) hmade
        · exact apply_ne _ choice S.db hdb
      · exact absurd ⟨hcommits, rfl, Bool.eq_false_of_not_eq_true hlookup, Bool.eq_false_of_not_eq_true hremove⟩ hnot

end Main

/-! ## A COMMIT that comes late -/

/-- A file of one byte of the user `1`, with its object. -/
def oneFile : Store where
  db :=
    { Db.empty (Table.empty.insert
        { email := 0, password := 0, isActive := true, storageUsed := 1, storageQuota := 100 }) with
      files := Table.empty.insert
        { name := .ofJs [97], placement := some ⟨0, .object 0⟩, size := 1, mimeType := none, checksum := none,
          isFolder := false, isDeleted := false, deletedAt := none, parentId := none, folderId := none,
          uploadId := none, userId := 1 } }
  objects := setAt (fun _ => none) ⟨0, .object 0⟩ (some [0])

/-- Nothing fails but the acknowledgement of the COMMIT, which takes effect after the copy has been looked up. -/
def lateCommit : Env where
  fails _ := false
  left := none
  fresh := 1
  outcome := .late

/-- The row of the copy stays, and its object is gone. -/
theorem not_compensated_of_late :
    ¬∀ env S userId id targetParentId, Compensated env S userId id targetParentId := by
  intro hall
  have hfailed : (copyFile lateCommit oneFile 1 1 none).1.toOption = none := by decide +kernel
  have hrow : ((copyFile lateCommit oneFile 1 1 none).2.db.files.get 2).map (·.placement) =
      some (some ⟨0, .object 1⟩) := by decide +kernel
  have hobject : (copyFile lateCommit oneFile 1 1 none).2.objects ⟨0, .object 1⟩ = none := by decide +kernel
  have hcall : Compensated lateCommit oneFile 1 1 none := hall lateCommit oneFile 1 1 none
  unfold Compensated at hcall
  generalize copyFile lateCommit oneFile 1 1 none = out at hfailed hrow hobject hcall
  obtain ⟨outcome, S'⟩ := out
  cases outcome with
  | ok copy => cases hfailed
  | error e =>
    rcases hcall e S' rfl with ⟨source, object, copy, target, -, -, -, -, htarget, hdb, hsome, -⟩ | hdb
    · have hcopy : S'.db.files.get 2 = some copy := by
        rw [hdb]
        simp [Db.charge, oneFile, Table.insert, Table.empty]
      dsimp only at hrow hobject
      rw [hcopy, Option.map_some, htarget] at hrow
      cases hrow
      rw [hobject] at hsome
      cases hsome
    · dsimp only at hrow
      rw [hdb] at hrow
      cases hrow

end Copying

end HomeCloud
