import HomeCloud.Auth.Verified
import HomeCloud.Concurrent.Pool
import HomeCloud.Files.Verified
import HomeCloud.Sharing.PublicUploads

/-!
# The server

The calls of all services, interleaved statement by statement, with crashes and broken connections.

* `Call`, `Call.prog`: the requests and their programs.
* `system`: the server.
* **`verified`**: every program fulfils the contract.
* **`Reachable.invariant`**: what all commits preserve holds in every reachable state.
* `after`, `exists_reachable`: runs on given moves.
-/

namespace HomeCloud

open Concurrent

/-! ## Calls -/

/-- What the server is set up with. -/
structure Settings where
  bcrypt : Bcrypt
  refreshLifetime : ℕ
  nfc : JsString → JsString
  uploadLimits : UploadLimits
  shareLimits : ShareLimits
  detectMimeType : Bytes → JsString

/-- A request for an upload of a user. -/
inductive UploadCall where
  | create (filename : JsString) (totalSize chunkSize : ℤ) (parentId expectedSha256 : Option ℕ)
  | chunk (id index : ℕ) (data : Bytes)
  | reconcile (id : ℕ)
  | complete (id : ℕ)
  | abort (id : ℕ)

/-- A request for an upload with an upload link. -/
inductive PublicUploadCall where
  | create (key parentId : ℕ) (filename : JsString) (totalSize chunkSize : ℤ)
      (expectedSha256 : Option ℕ)
  | chunk (id index : ℕ) (data : Bytes)
  | status (id : ℕ)
  | complete (id : ℕ)
  | abort (id : ℕ)

/-- A request, or a run of a cleanup. `ssd` says whether the process that serves it has uploads to the
SSD enabled. -/
inductive Call where
  | createFile (userId : ℕ) (name : JsString) (size : ℤ) (mimeType : Option JsString)
      (parentId : Option ℕ)
  | createFolder (userId : ℕ) (name : JsString) (parentId : Option ℕ)
  | copyFile (userId id : ℕ) (targetParentId : Option ℕ)
  | updateFile (userId id : ℕ) (name : Option JsString) (parentId : Option (Option ℕ))
  | updateFolder (userId id : ℕ) (name : Option JsString) (parentId : Option (Option ℕ))
  | moveFile (userId id : ℕ) (targetParentId : Option ℕ)
  | restoreFile (userId id : ℕ)
  | restoreFolder (userId id : ℕ)
  | removeFile (userId id : ℕ)
  | removeFolder (userId id : ℕ)
  | deleteFilePermanently (userId id : ℕ)
  | deleteFolderPermanently (userId id : ℕ)
  | emptyTrash (userId : ℕ)
  | upload (ssd : Bool) (userId : ℕ) (request : UploadCall)
  | cleanupUploads (ssd : Bool)
  | createShare (userId fileId : ℕ) (options : ShareOptions)
  | revokeShare (userId shareId : ℕ)
  | publicMkdir (token : ℕ) (proof : UploadProof) (key parentId : ℕ) (name : JsString)
  | publicUpload (ssd : Bool) (token : ℕ) (proof : UploadProof) (request : PublicUploadCall)
  | cleanupReceipts
  | login (email password : ℕ)
  | refresh (userId : ℕ) (refreshToken : Option ℕ)
  | logout (userId : ℕ) (refreshToken : Option ℕ)
  | changePassword (userId oldPassword newPassword : ℕ)

/-- The user a request is made for. -/
def Call.userId : Call → Option ℕ
  | .createFile u .. | .createFolder u .. | .copyFile u .. | .updateFile u .. | .updateFolder u ..
  | .moveFile u .. | .restoreFile u _ | .restoreFolder u _ | .removeFile u _ | .removeFolder u _
  | .deleteFilePermanently u _ | .deleteFolderPermanently u _ | .emptyTrash u | .upload _ u _
  | .createShare u .. | .revokeShare u _ => some u
  | .publicMkdir _ proof .. | .publicUpload _ _ proof _ => some proof.userId
  | .login .. | .cleanupUploads _ | .cleanupReceipts => none
  | .refresh u _ | .logout u _ | .changePassword u .. => some u

/-- An operation whose response is not looked at. -/
def silent {α : Type} (p : Op α) : Op Unit := do
  let _ ← p

def UploadCall.prog (s : Settings) (ssd : Bool) (u : ℕ) : UploadCall → Op Unit
  | .create filename totalSize chunkSize p sha =>
    silent (createUploadSession ssd s.uploadLimits u filename totalSize chunkSize p sha none)
  | .chunk id index data => uploadChunk ssd u id index data none
  | .reconcile id => silent (reconcileUploadSession ssd u id none)
  | .complete id => completeUpload ssd s.detectMimeType u id none
  | .abort id => abortUpload ssd u id none

def PublicUploadCall.prog (s : Settings) (ssd : Bool) (token : ℕ) (proof : UploadProof) :
    PublicUploadCall → Op Unit
  | .create key p filename totalSize chunkSize sha =>
    silent (PublicUploads.create ssd s.nfc s.uploadLimits token proof key p filename totalSize
      chunkSize sha)
  | .chunk id index data => PublicUploads.chunk ssd token proof id index data
  | .status id => silent (PublicUploads.status ssd token proof id)
  | .complete id => PublicUploads.complete ssd s.detectMimeType token proof id
  | .abort id => PublicUploads.abort ssd token proof id

/-- The program of a request. -/
def Call.prog (s : Settings) : Call → Op Unit
  | .createFile u name size mimeType p => silent (HomeCloud.createFile u name size mimeType p)
  | .createFolder u name p => HomeCloud.createFolder u name p
  | .copyFile u id p => silent (HomeCloud.copyFile u id p)
  | .updateFile u id name p => silent (HomeCloud.updateFile u id name p)
  | .updateFolder u id name p => silent (HomeCloud.updateFolder u id name p)
  | .moveFile u id p => silent (HomeCloud.moveFile u id p)
  | .restoreFile u id => silent (HomeCloud.restoreFile u id)
  | .restoreFolder u id => HomeCloud.restoreFolder u id
  | .removeFile u id => HomeCloud.removeFile u id
  | .removeFolder u id => HomeCloud.removeFolder u id
  | .deleteFilePermanently u id => HomeCloud.deleteFilePermanently u id
  | .deleteFolderPermanently u id => HomeCloud.deleteFolderPermanently u id
  | .emptyTrash u => HomeCloud.emptyTrash u
  | .upload ssd u request => request.prog s ssd u
  | .cleanupUploads _ => cleanupExpiredSessions
  | .createShare u fileId options =>
    silent (createShareLink s.bcrypt s.shareLimits u fileId options)
  | .revokeShare u shareId => HomeCloud.revokeShare u shareId
  | .publicMkdir token proof key p name =>
    silent (PublicFolder.createFolder s.nfc token proof key p name)
  | .publicUpload ssd token proof request => request.prog s ssd token proof
  | .cleanupReceipts => HomeCloud.cleanupReceipts
  | .login email password => silent (HomeCloud.login s.bcrypt s.refreshLifetime email password)
  | .refresh u token => silent (HomeCloud.refresh s.bcrypt s.refreshLifetime u token)
  | .logout u token => HomeCloud.logout s.bcrypt u token
  | .changePassword u old new => HomeCloud.changePassword s.bcrypt u old new

/-! ## The server -/

/-- What happens around the server: time passes, or the connection of a thread breaks. -/
inductive Event where
  | tick (time : ℕ)
  | lose (t : ℕ)

/-- The connection of `t` breaks. -/
def World.lose (w : World) (t : ℕ) : World :=
  { w.disconnect t with lost := setAt w.lost t true }

/-- The process that runs `t` ends, and with it its lock on the SSD. -/
def World.kill (w : World) (t : ℕ) : World :=
  { (w.disconnect t).onDisk .unlockSsd t with lost := setAt w.lost t false }

def Event.apply : Event → World → World
  | .tick time, w => { w with now := w.now + time }
  | .lose t, w => w.lose t

/-- The server. Requests are made for users there are. -/
def system (s : Settings) : System World Instr Err Unit Call Event where
  exec := Instr.exec
  abort t w := w.kill t
  event e w := some (e.apply w)
  accepts c w := c.userId.all fun u => (w.db.users.get u).isSome
  prog := Call.prog s

/-! ## The contract -/

section Verified

variable {t t' : ℕ} {w : World} {s : Settings}

theorem silent_safe {α : Type} {p : Op α} (h : Safe contract t p w) :
    Safe contract t (silent p) w := Safe.bind h fun _ _ => trivial

theorem UploadCall.prog_safe (c : UploadCall) {ssd : Bool} {u : ℕ} :
    Safe contract t (c.prog s ssd u) w := by
  cases c with
  | create => exact silent_safe createUploadSession_safe
  | chunk => exact uploadChunk_safe
  | reconcile => exact silent_safe reconcileUploadSession_safe
  | complete => exact completeUpload_safe
  | abort => exact abortUpload_safe

theorem PublicUploadCall.prog_safe (c : PublicUploadCall) {ssd : Bool} {token : ℕ}
    {proof : UploadProof} : Safe contract t (c.prog s ssd token proof) w := by
  cases c with
  | create => exact silent_safe PublicUploads.create_safe
  | chunk => exact PublicUploads.chunk_safe
  | status => exact silent_safe PublicUploads.status_safe
  | complete => exact PublicUploads.complete_safe
  | abort => exact PublicUploads.abort_safe

theorem Call.prog_safe (c : Call) (hu : ∀ u, c.userId = some u → (w.db.users.get u).isSome) :
    Safe contract t (c.prog s) w := by
  cases c with
  | createFile u name size mimeType p => exact silent_safe (createFile_safe (hu u rfl))
  | createFolder u name p => exact createFolder_safe (hu u rfl)
  | copyFile u id p => exact silent_safe (copyFile_safe (hu u rfl))
  | updateFile u id name p => exact silent_safe (updateFile_safe (hu u rfl))
  | updateFolder u id name p => exact silent_safe (updateFolder_safe (hu u rfl))
  | moveFile u id p => exact silent_safe (moveFile_safe (hu u rfl))
  | restoreFile u id => exact silent_safe (restoreFile_safe (hu u rfl))
  | restoreFolder u id => exact restoreFolder_safe (hu u rfl)
  | removeFile u id => exact removeFile_safe
  | removeFolder u id => exact removeFolder_safe (hu u rfl)
  | deleteFilePermanently u id => exact deleteFilePermanently_safe (hu u rfl)
  | deleteFolderPermanently u id => exact deleteFolderPermanently_safe (hu u rfl)
  | emptyTrash u => exact emptyTrash_safe (hu u rfl)
  | upload ssd u request => exact request.prog_safe
  | cleanupUploads => exact cleanupExpiredSessions_safe
  | createShare => exact silent_safe createShareLink_safe
  | revokeShare => exact revokeShare_safe
  | publicMkdir token proof key p name =>
    exact silent_safe (PublicFolder.createFolder_safe (hu proof.userId rfl))
  | publicUpload ssd token proof request => exact request.prog_safe
  | cleanupReceipts => exact cleanupReceipts_safe
  | login email password => exact silent_safe login_safe
  | refresh u token => exact silent_safe refresh_safe
  | logout u token => exact logout_safe
  | changePassword u old new => exact changePassword_safe

theorem setAt_false {lost : ℕ → Bool} {t' : ℕ} (h : setAt lost t false t' = true) :
    lost t' = true := by
  by_cases hne : t' = t
  · rw [hne, setAt_self] at h
    cases h
  · rwa [setAt_ne _ _ hne] at h

theorem World.inv_lose (hi : Inv w) : Inv (w.lose t) := by
  have hd := hi.disconnect (t := t)
  refine hd.of_db_eq rfl rfl hd.window (hd.disk.of_eq rfl rfl rfl rfl (fun t' s ht => ?_)
    hd.disk.sole fun s a ha => ⟨(hd.disk.assembling s a ha).1, ha⟩)
  by_cases hne : t' = t
  · rw [hne]
    exact World.unfenced_disconnect s
  · exact hd.disk.detached t' s ((setAt_ne _ _ hne).symm.trans ht)

theorem World.inv_kill (hi : Inv w) : Inv (w.kill t) := by
  have hd : Inv ((w.disconnect t).onDisk .unlockSsd t) := (hi.disconnect (t := t)).onDisk trivial
  exact hd.of_db_eq rfl rfl hd.window
    (hd.disk.of_fences_eq rfl rfl rfl rfl rfl fun _ ht => setAt_false ht)

theorem World.attached_lose : Attached t w (w.lose t') := by
  have hlost : Follows t (w.disconnect t') (w.lose t') :=
    .of_db_eq rfl rfl (fun _ h => h) rfl rfl (fun _ h => h) ⟨le_rfl, rfl, rfl, rfl, rfl, rfl⟩
      fun h => by
        by_cases hne : t = t'
        · rw [hne]
          exact setAt_self ..
        · exact (setAt_ne _ _ hne).trans h
  by_cases hne : t = t'
  · subst hne
    refine ⟨fun _ => setAt_self .., fun hl => ?_, World.persists_disconnect.trans hlost.persists⟩
    cases (setAt_self w.lost t true).symm.trans hl
  · exact ((World.rely_disconnect hne).trans ⟨hlost, rfl⟩).attached

theorem World.attached_kill (hi : Inv w) (hne : t ≠ t') : Attached t w (w.kill t') := by
  have hd := hi.disconnect (t := t')
  have hdisk : Rely t (w.disconnect t') ((w.disconnect t').onDisk .unlockSsd t') :=
    World.rely_onDisk hd.disk trivial hne
  refine Rely.attached (((World.rely_disconnect hne).trans hdisk).trans ?_)
  exact .of_db_eq rfl rfl (fun _ h => h) rfl rfl (fun _ h => h) ⟨le_rfl, rfl, rfl, rfl, rfl, rfl⟩ rfl
    fun h => (setAt_ne _ _ hne).trans h

theorem Event.inv (e : Event) (hi : Inv w) : Inv (e.apply w) := by
  cases e with
  | tick time =>
    exact hi.of_db_eq rfl rfl hi.window (hi.disk.of_fences_eq rfl rfl rfl rfl rfl fun _ ht => ht)
  | lose t => exact World.inv_lose hi

theorem Event.attached (e : Event) : Attached t w (e.apply w) := by
  cases e with
  | lose t' => exact World.attached_lose
  | tick time =>
    exact Rely.attached (.of_db_eq rfl rfl (fun _ h => h) rfl rfl (fun _ h => h)
      ⟨Nat.le_add_right .., rfl, rfl, rfl, rfl, rfl⟩ rfl fun h => h)

/-- **The server is verified**: every request fulfils the contract, whatever it runs against. -/
theorem verified (s : Settings) : Verified (system s) contract where
  safe c t w ha _ := c.prog_safe fun u hu => by
    simp only [system, hu, Option.all_some] at ha
    exact ha
  inv_abort t w hi := World.inv_kill hi
  rely_abort w hi hne := World.attached_kill hi hne
  inv_event hi he := by
    cases he
    exact Event.inv _ hi
  rely_event t _ he := by
    cases he
    exact Event.attached _

end Verified

/-! ## Invariants -/

/-- A reachable configuration of the server, from an empty store with the given users, whose
statements all meet `cond`. -/
abbrev Reachable (s : Settings) (cond : Instr → ℕ → World → Prop) (users : Table User)
    (c : Config World Instr Err Unit) : Prop :=
  Reach (system s) cond (World.initial (.empty users)) c

section Invariants

variable {s : Settings} {cond : Instr → ℕ → World → Prop} {users : Table User}
  {c : Config World Instr Err Unit}

theorem inv_initial : Inv (World.initial (.empty users)) := .initial users

theorem Reachable.inv (h : Reachable s cond users c) : Inv c.state :=
  (Reach.safe (verified s) inv_initial h).1

/-- What a commit of a run that takes effect has met. -/
structure Commits (cond : Instr → ℕ → World → Prop) (t : ℕ) (w : World) (tx : Tx) : Prop
    extends Committing t w tx where
  lost : w.lost t = false
  cond : cond (.commit tx) t w

/-- The database and the files are the same, but for the lock on the SSD. -/
structure Calm (w w' : World) : Prop where
  db : w'.db = w.db
  seen : w'.seen = w.seen
  erased : w'.erased = w.erased
  admitted : w'.admitted = w.admitted
  torn : w'.torn = w.torn
  disk : ∃ f, w'.disk = { w.disk with flock := f }
  now : w.now ≤ w'.now

/-- What a step of a run does: nothing of note, a step on the files, or the writes of a commit. -/
inductive Change (cond : Instr → ℕ → World → Prop) (w : World) : World → Prop
  | calm {w'} : Calm w w' → Change cond w w'
  | disk {t op} : op.Pre t w → cond (.disk op) t w → Change cond w (w.onDisk op t)
  | commit {t tx} : Commits cond t w tx → Change cond w ((w.write tx t).release t)

theorem Effect.change {w w' : World} (hi : Inv w) (he : Effect (system s) contract cond w w') :
    Change cond w w' := by
  have hcalm : ∀ {w' : World}, w'.db = w.db → w'.seen = w.seen → w'.erased = w.erased →
      w'.admitted = w.admitted → w'.torn = w.torn → w'.disk = w.disk → w.now ≤ w'.now →
      Change cond w w' := fun hdb hs he ha ht hd hn =>
    .calm ⟨hdb, hs, he, ha, ht, ⟨w.disk.flock, hd⟩, hn⟩
  cases he with
  | none => exact hcalm rfl rfl rfl rfl rfl rfl le_rfl
  | @instr i t w' hp hc hx =>
    change i.exec t w = some w' at hx
    unfold Instr.exec at hx
    split_ifs at hx with hlost
    · cases hx
      cases i with
      | disk op => exact .disk (hp (.inr rfl)) hc
      | _ => exact hcalm rfl rfl rfl rfl rfl rfl le_rfl
    · have hl : w.lost t = false := by simpa using hlost
      cases i with
      | lock k =>
        obtain ⟨-, rfl⟩ | ⟨-, rfl⟩ := Instr.perform_lock hx
        · have hf := World.lock_sameFiles (w := w) (t := t) k
          exact hcalm (World.lock_db k) (World.lock_seen k) hf.erased (World.lock_admitted k) hf.torn
            hf.disk hf.now
        · exact hcalm rfl rfl rfl rfl rfl rfl le_rfl
      | fence session exclusive =>
        obtain ⟨fences, hf⟩ := World.takeFence_eq (w := w) (t := t) session exclusive
        cases (Option.some.inj hx).symm.trans hf
        exact hcalm rfl rfl rfl rfl rfl rfl le_rfl
      | disk op =>
        cases hx
        exact .disk (hp (.inl hl)) hc
      | commit tx =>
        obtain ⟨ha, hw, rfl⟩ | ⟨-, rfl⟩ := Instr.perform_commit hx
        · exact .commit ⟨⟨hi, ha, hw, hp (.inl hl) ha⟩, hl, hc⟩
        · exact hcalm rfl rfl rfl rfl rfl rfl le_rfl
      | _ =>
        cases hx
        exact hcalm rfl rfl rfl rfl rfl rfl le_rfl
  | abort t =>
    refine .calm ⟨rfl, rfl, rfl, rfl, ?_, ?_, le_rfl⟩
    · funext s
      change (w.torn s || (DiskOp.tears .unlockSsd = some s && _)) = w.torn s
      simp [DiskOp.tears]
    · change ∃ f, DiskOp.unlockSsd.apply t w.disk = { w.disk with flock := f }
      simp only [DiskOp.apply]
      split_ifs
      · exact ⟨none, rfl⟩
      · exact ⟨_, rfl⟩
  | @event e w' hx =>
    cases hx
    cases e with
    | tick time => exact hcalm rfl rfl rfl rfl rfl rfl (Nat.le_add_right ..)
    | lose t => exact hcalm rfl rfl rfl rfl rfl rfl le_rfl

/-- What a step does to the database: nothing, or the writes of a commit. -/
theorem Effect.db {w w' : World} (hi : Inv w) (he : Effect (system s) contract cond w w') :
    w'.db = w.db ∧ w'.seen = w.seen ∨
      ∃ t tx, Commits cond t w tx ∧ w' = (w.write tx t).release t := by
  cases Effect.change hi he with
  | calm h => exact .inl ⟨h.db, h.seen⟩
  | disk => exact .inl ⟨rfl, rfl⟩
  | commit h => exact .inr ⟨_, _, h, rfl⟩

/-- A file comes in by a commit. -/
theorem Effect.committed {w w' : World} (hi : Inv w)
    (he : Effect (system s) contract cond w w') {i : ℕ} {r : File} (hn : w.seen i = none)
    (hr : w'.seen i = some r) : ∃ t tx, Commits cond t w tx ∧ w' = (w.write tx t).release t := by
  rcases Effect.db hi he with ⟨-, hs⟩ | hcommit
  · rw [hs, hn] at hr
    cases hr
  · exact hcommit

/-- **What all steps preserve holds in every reachable state.** -/
theorem Reachable.world_invariant {P : World → Prop} (h0 : P (World.initial (.empty users)))
    (hstep : ∀ w w', Inv w → Change cond w w' → P w → P w') (h : Reachable s cond users c) :
    P c.state :=
  Reach.invariant (verified s) inv_initial (P := P) h0
    (fun w w' hi hp he => hstep w w' hi (Effect.change hi he) hp) h

/-- **What all commits preserve holds in every reachable state.** The property is one of the
database and of the rows seen. -/
theorem Reachable.invariant {P : Db → (ℕ → Option File) → Prop}
    (h0 : P (.empty users) fun _ => none)
    (hstep : ∀ t w tx, Commits cond t w tx → P w.db w.seen →
      P (tx.apply w.db) ((w.write tx t).seen))
    (h : Reachable s cond users c) : P c.state.db c.state.seen := by
  refine Reach.invariant (verified s) inv_initial (P := fun w => P w.db w.seen) h0
    (fun w w' hi hp he => ?_) h
  obtain ⟨hdb, hs⟩ | ⟨t, tx, hc, rfl⟩ := Effect.db hi he
  · rw [hdb, hs]
    exact hp
  · exact hstep t w tx hc hp

/-- The same for a property of the database. -/
theorem Reachable.db_invariant {P : Db → Prop} (h0 : P (.empty users))
    (hstep : ∀ t w tx, Commits cond t w tx → P w.db → P (tx.apply w.db))
    (h : Reachable s cond users c) : P c.state.db :=
  h.invariant (P := fun db _ => P db) h0 hstep

/-- At most one file of an upload has ever been there. -/
theorem Reachable.published (h : Reachable s cond users c) :
    Published c.state.db c.state.seen := h.inv.published

/-- The thread has chosen no name and revokes no tokens. -/
def World.Idle (w : World) (t : ℕ) : Prop := w.window t = none ∧ w.sweeping t = none

theorem World.Idle.disconnect {w : World} {t : ℕ} (h : w.Idle t) (t' : ℕ) : (w.disconnect t').Idle t := by
  obtain ⟨hw, hs⟩ := h
  simp only [World.Idle, World.disconnect, World.unfence, World.release, hw, hs, ite_self, and_self]

theorem World.Idle.exec {w w' : World} {t t' : ℕ} {i : Instr} (hi : Inv w) (hpre : contract.pre i t' w)
    (hx : i.exec t' w = some w') (hne : t ≠ t') (h : w.Idle t) : w'.Idle t := by
  have hr := (rely_step hi hpre hx hne).toFollows
  rw [World.Idle, hr.window, hr.sweeping]
  exact h

theorem World.Idle.event {w : World} {t : ℕ} (h : w.Idle t) (e : Event) : (e.apply w).Idle t := by
  cases e with
  | tick => exact h
  | lose t' => exact h.disconnect t'

/-- A thread that has not been started has chosen no name and revokes no tokens. -/
theorem Reachable.idle (h : Reachable s cond users c) :
    ∀ t, c.threads.bound ≤ t → c.state.window t = none ∧ c.state.sweeping t = none :=
  Reach.unstarted (verified s) inv_initial (P := fun t w => w.Idle t) (fun _ => ⟨rfl, rfl⟩)
    (fun hi hpre hx hne hw => hw.exec hi hpre hx hne) (fun t' hw => hw.disconnect t')
    (fun he hw => by
      cases he
      exact hw.event _) h

end Invariants

/-! ## Runs -/

/-- A check of the instruction that a thread runs next. -/
abbrev Check := Instr → ℕ → Config World Instr Err Unit → Bool

/-- The configuration after moves that pass the check, from an empty store with the given users. -/
def after (s : Settings) (users : Table User) (ok : Check) (moves : List (Move Call Event)) :
    Option (Config World Instr Err Unit) :=
  Config.nexts (system s) ok ⟨World.initial (.empty users), .empty⟩ moves

/-- `n` instructions of the thread `t`. -/
def steps (t n : ℕ) : List (Move Call Event) := List.replicate n (.run t 0)

theorem exists_reachable (s : Settings) (users : Table User)
    {cond : Instr → ℕ → World → Prop} {ok : Check}
    (hok : ∀ c, Reachable s cond users c → ∀ i t, ok i t c = true → cond i t c.state)
    (moves : List (Move Call Event)) (p : Config World Instr Err Unit → Bool)
    (h : (after s users ok moves).any p = true) : ∃ c, Reachable s cond users c ∧ p c = true := by
  obtain ⟨c, hc, hp⟩ := (Option.any_eq_true ..).mp h
  exact ⟨c, Reach.start.nexts hok hc, hp⟩

/-- A check that all instructions pass. -/
def unchecked : Check := fun _ _ _ => true

theorem unchecked_ok {s : Settings} {users : Table User} (c : Config World Instr Err Unit)
    (_ : Reachable s anyStep users c) (i : Instr) (t : ℕ) (_ : unchecked i t c = true) :
    anyStep i t c.state := trivial

/-- A server whose passwords are their own hashes. -/
def plainSettings : Settings where
  bcrypt := ⟨fun secret _ => secret, fun secret hash => secret == hash⟩
  refreshLifetime := 1000
  nfc := id
  uploadLimits := ⟨0, 0, 8, 8, 1000⟩
  shareLimits := ⟨1000, []⟩
  detectMimeType := fun _ => []

/-- One user, with the number `1`. -/
def oneUser : Table User := Table.empty.insert ⟨0, 0, true, 0, 1000⟩

/-- An upload of one byte, completed but for its commit and what comes after. -/
def upToCommit : List (Move Call Event) :=
  .call (.upload false 1 (.create [102] 1 1 none none)) :: steps 1 12 ++
    .call (.upload false 1 (.chunk 1 0 [7])) :: steps 2 17 ++
    .call (.upload false 1 (.complete 1)) :: steps 3 37

end HomeCloud
