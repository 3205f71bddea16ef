import HomeCloud.Concurrent.Later
import HomeCloud.System
import HomeCloud.Uploads.FinalizerVerified

/-!
# The server with uploads on the SSD

The calls of the server, and next to them the uploads whose chunks are on the SSD and what brings them to the
storage.

* `Request`, `Request.prog`: the requests; an upload of a user goes to the service whose workspace it is on.
* `server`, **`verified_server`**: every program fulfils the contract, also with finalizations and recoveries.
* **`ServerReachable.invariant`**: what all commits preserve holds in every reachable state.
* **`ServerReachable.monotone`**: what all commits keep to, a run keeps to.
-/

namespace HomeCloud

open Concurrent

/-! ## Uploads of a user -/

/-- A request for an upload of a user. A chunk comes in memory or as a file. -/
inductive OwnerUpload where
  | create (filename : JsString) (totalSize chunkSize : ℤ) (parentId expectedSha256 : Option ℕ)
  | chunk (id index : ℕ) (data : Bytes) (buffered : Bool)
  | reconcile (id : ℕ)
  | complete (id : ℕ)
  | abort (id : ℕ)

namespace SsdUploads

/-- The rows of the chunks, once the session is known to be there. -/
def reconcileUploadSession (enabled : Bool) (limits : SsdLimits) (userId id : ℕ) :
    Op (List UploadChunk × Option (ℕ × File)) := do
  let session ← ownedSession enabled userId id
  if session.status = .completed then
    let found ← query fun w => w.db.files.find fun _ r => r.userId = userId && r.uploadId = some id
    let file ← require (.notFound "Completed upload file not found") found
    return ([], some file)
  else if session.status = .aborted then return ([], none)
  else
    let _ ← getUploadSession enabled userId id
    active session
    let chunks ← query fun w => (w.db.uploadSessions.get id).elim [] fun s =>
      (s.chunks.mergeSort fun c c' => c.chunkIndex ≤ c'.chunkIndex).take limits.maxChunks
    return (chunks, none)

end SsdUploads

/-- Whether the session of the user is on the SSD. -/
def isSsdSession (enabled : Bool) (userId id : ℕ) : Op Bool :=
  if !enabled then pure false
  else query fun w => (w.db.uploadSessions.get id).any fun s =>
    s.userId = userId && s.origin = .owner && s.workspaceId = .ssd

/-- Goes to the service that has the session. -/
def dispatch (enabled : Bool) (userId id : ℕ) (ssd legacy : Op Unit) : Op Unit := do
  let onSsd ← isSsdSession enabled userId id
  if onSsd then ssd else legacy

/-- What the uploads on the SSD are set up with. -/
structure SsdSettings where
  limits : SsdLimits
  host : SsdHost

/-- An upload of a user, by a process that has uploads to the SSD enabled or not. -/
def OwnerUpload.prog (s : Settings) (ssd : SsdSettings) (enabled : Bool) (u : ℕ) : OwnerUpload → Op Unit
  | .create filename totalSize chunkSize p sha =>
    if enabled then
      silent (SsdUploads.createUploadSession enabled ssd.limits u filename totalSize chunkSize p sha)
    else (UploadCall.create filename totalSize chunkSize p sha).prog s enabled u
  | .chunk id index data buffered =>
    dispatch enabled u id (SsdUploads.uploadChunk enabled ssd.limits u id index data buffered)
      ((UploadCall.chunk id index data).prog s enabled u)
  | .reconcile id =>
    dispatch enabled u id (silent (SsdUploads.reconcileUploadSession enabled ssd.limits u id))
      ((UploadCall.reconcile id).prog s enabled u)
  | .complete id =>
    dispatch enabled u id (silent (SsdUploads.completeUpload enabled ssd.host s.detectMimeType u id))
      ((UploadCall.complete id).prog s enabled u)
  | .abort id =>
    dispatch enabled u id (SsdUploads.abortUpload enabled ssd.limits u id false)
      ((UploadCall.abort id).prog s enabled u)

/-! ## Requests -/

/-- A request to the server, a run of the cleanup or the start of a process. -/
inductive Request where
  | call (c : Call)
  | upload (enabled : Bool) (userId : ℕ) (request : OwnerUpload)
  | cleanupSessions (enabled : Bool)
  | init (enabled : Bool)

/-- The user a request is made for. -/
def Request.userId : Request → Option ℕ
  | .call c => c.userId
  | .upload _ u _ => some u
  | .cleanupSessions _ | .init _ => none

/-- The program of a request. -/
def Request.prog (s : Settings) (ssd : SsdSettings) : Request → Op Unit
  | .call c => c.prog s
  | .upload enabled u request => request.prog s ssd enabled u
  | .cleanupSessions enabled => do
    HomeCloud.cleanupExpiredSessions
    SsdUploads.cleanupExpiredSessions enabled ssd.limits
  | .init enabled => SsdUploads.onModuleInit enabled ssd.host s.detectMimeType

/-- The server. Requests are made for users there are. -/
def server (s : Settings) (ssd : SsdSettings) : System World Instr Err Unit Request Event where
  exec := Instr.exec
  abort t w := w.kill t
  event e w := some (e.apply w)
  accepts r w := r.userId.all fun u => (w.db.users.get u).isSome
  prog := Request.prog s ssd

/-! ## The contract -/

section Verified

variable {t : ℕ} {w : World} {s : Settings} {ssd : SsdSettings} {enabled : Bool} {u id : ℕ}

theorem SsdUploads.reconcileUploadSession_safe {limits : SsdLimits} :
    Safe contract t (SsdUploads.reconcileUploadSession enabled limits u id) w := by
  unfold SsdUploads.reconcileUploadSession
  refine Safe.bind SsdUploads.ownedSession_safe fun session w₁ => ?_
  split_ifs
  · rw [Safe, wp_bind]
    refine wp_query fun _ _ _ => ?_
    rw [wp_bind]
    exact wp_require fun _ _ => trivial
  · trivial
  · refine Safe.bind SsdUploads.getUploadSession_safe fun _ w₂ => ?_
    rw [Safe, wp_bind]
    refine SsdUploads.wp_active fun w₃ _ _ _ => ?_
    rw [wp_bind]
    exact wp_query fun _ _ _ => trivial

theorem dispatch_safe {p q : Op Unit} (hp : ∀ w, Safe contract t p w) (hq : ∀ w, Safe contract t q w) :
    Safe contract t (dispatch enabled u id p q) w := by
  unfold dispatch isSsdSession
  split_ifs
  · exact hq w
  · rw [Safe, wp_bind]
    refine wp_query fun w₁ _ _ => ?_
    split_ifs
    · exact hp w₁
    · exact hq w₁

theorem OwnerUpload.prog_safe (r : OwnerUpload) : Safe contract t (r.prog s ssd enabled u) w := by
  cases r with
  | create =>
    unfold OwnerUpload.prog
    split_ifs
    · exact silent_safe SsdUploads.createUploadSession_safe
    · exact UploadCall.prog_safe _
  | chunk => exact dispatch_safe (fun _ => SsdUploads.uploadChunk_safe) fun _ => UploadCall.prog_safe _
  | reconcile =>
    exact dispatch_safe (fun _ => silent_safe SsdUploads.reconcileUploadSession_safe)
      fun _ => UploadCall.prog_safe _
  | complete =>
    exact dispatch_safe (fun _ => silent_safe SsdUploads.completeUpload_safe) fun _ => UploadCall.prog_safe _
  | abort => exact dispatch_safe (fun _ => SsdUploads.abortUpload_safe) fun _ => UploadCall.prog_safe _

theorem Request.prog_safe (r : Request) (hu : ∀ u, r.userId = some u → (w.db.users.get u).isSome) :
    Safe contract t (r.prog s ssd) w := by
  cases r with
  | call c => exact c.prog_safe hu
  | upload enabled u request => exact request.prog_safe
  | cleanupSessions enabled =>
    exact Safe.bind cleanupExpiredSessions_safe fun _ _ => SsdUploads.cleanupExpiredSessions_safe
  | init enabled => exact SsdUploads.onModuleInit_safe

/-- **The server with the SSD is verified**: finalizations and recoveries fulfil the contract too. -/
theorem verified_server (s : Settings) (ssd : SsdSettings) : Verified (server s ssd) contract where
  safe r t w ha _ := r.prog_safe fun u hu => by
    simp only [server, hu, Option.all_some] at ha
    exact ha
  inv_abort t w hi := World.inv_kill hi
  rely_abort w hi hne := World.attached_kill hi hne
  inv_event hi he := by
    cases he
    exact Event.inv _ hi
  rely_event t _ he := by
    cases he
    exact Event.attached _

end Verified

/-! ## Invariants -/

/-- A reachable configuration of the server, from an empty store with the given users, whose statements all meet
`cond`. -/
abbrev ServerReachable (s : Settings) (ssd : SsdSettings) (cond : Instr → ℕ → World → Prop)
    (users : Table User) (c : Config World Instr Err Unit) : Prop :=
  Reach (server s ssd) cond (World.initial (.empty users)) c

section Invariants

variable {s : Settings} {ssd : SsdSettings} {cond : Instr → ℕ → World → Prop} {users : Table User}
  {c c' : Config World Instr Err Unit}

theorem ServerReachable.inv (h : ServerReachable s ssd cond users c) : Inv c.state :=
  (Reach.safe (verified_server s ssd) inv_initial h).1

/-- The server changes the state as the one without the SSD may. -/
theorem Effect.of_server {w w' : World} (he : Effect (server s ssd) contract cond w w') :
    Effect (system s) contract cond w w' := by
  cases he with
  | none => exact .none
  | instr hp hc hx => exact .instr hp hc hx
  | abort t => exact .abort t
  | event hx => exact .event hx

/-- **What all steps preserve holds in every reachable state.** -/
theorem ServerReachable.world_invariant {P : World → Prop} (h0 : P (World.initial (.empty users)))
    (hstep : ∀ w w', Inv w → Change cond w w' → P w → P w') (h : ServerReachable s ssd cond users c) :
    P c.state :=
  Reach.invariant (verified_server s ssd) inv_initial (P := P) h0
    (fun w w' hi hp he => hstep w w' hi (Effect.change hi (Effect.of_server he)) hp) h

/-- **What all commits preserve holds in every reachable state.** -/
theorem ServerReachable.invariant {P : Db → Prop} (h0 : P (.empty users))
    (hstep : ∀ t w tx, Commits cond t w tx → P w.db → P (tx.apply w.db))
    (h : ServerReachable s ssd cond users c) : P c.state.db :=
  h.world_invariant (P := fun w => P w.db) h0 fun w w' hi hw hp => by
    cases hw with
    | calm hcalm =>
      rw [hcalm.db]
      exact hp
    | disk => exact hp
    | commit hc => exact hstep _ w _ hc hp

/-- A thread that has not been started has chosen no name and revokes no tokens. -/
theorem ServerReachable.idle (h : ServerReachable s ssd cond users c) :
    ∀ t, c.threads.bound ≤ t → c.state.Idle t :=
  Reach.unstarted (verified_server s ssd) inv_initial (P := fun t w => w.Idle t) (fun _ => ⟨rfl, rfl⟩)
    (fun hi hpre hx hne hw => hw.exec hi hpre hx hne) (fun t' hw => hw.disconnect t')
    (fun he hw => by
      cases he
      exact hw.event _) h

/-- **What all steps keep to, a run keeps to.** -/
theorem ServerReachable.world_monotone {R : World → World → Prop} (hrefl : ∀ w, R w w)
    (htrans : ∀ {w₁ w₂ w₃}, R w₁ w₂ → R w₂ w₃ → R w₁ w₃)
    (hstep : ∀ c w', ServerReachable s ssd cond users c → Change cond c.state w' → R c.state w')
    (h : ServerReachable s ssd cond users c) (hl : Later (server s ssd) cond c c') : R c.state c'.state :=
  Later.monotone (verified_server s ssd) inv_initial hrefl htrans
    (fun c w' hr he => hstep c w' hr (Effect.change (ServerReachable.inv hr) (Effect.of_server he))) h hl

/-- **What all commits keep to, a run keeps to.** -/
theorem ServerReachable.monotone {R : Db → Db → Prop} (hrefl : ∀ db, R db db)
    (htrans : ∀ {db₁ db₂ db₃}, R db₁ db₂ → R db₂ db₃ → R db₁ db₃)
    (hstep : ∀ t c tx, ServerReachable s ssd cond users c → Commits cond t c.state tx →
      R c.state.db (tx.apply c.state.db)) (h : ServerReachable s ssd cond users c)
    (hl : Later (server s ssd) cond c c') : R c.state.db c'.state.db :=
  h.world_monotone (R := fun w w' => R w.db w'.db) (fun w => hrefl w.db) htrans (fun c w' hr hw => by
    cases hw with
    | calm hcalm =>
      rw [hcalm.db]
      exact hrefl c.state.db
    | disk => exact hrefl c.state.db
    | commit hc => exact hstep _ c _ hr hc) hl

end Invariants

/-! ## Runs -/

/-- The configuration after moves that pass the check, from an empty store with the given users. -/
def serverAfter (s : Settings) (ssd : SsdSettings) (users : Table User) (ok : Check)
    (moves : List (Move Request Event)) : Option (Config World Instr Err Unit) :=
  Config.nexts (server s ssd) ok ⟨World.initial (.empty users), .empty⟩ moves

theorem exists_serverReachable (s : Settings) (ssd : SsdSettings) (users : Table User)
    {cond : Instr → ℕ → World → Prop} {ok : Check}
    (hok : ∀ c, ServerReachable s ssd cond users c → ∀ i t, ok i t c = true → cond i t c.state)
    (moves : List (Move Request Event)) (p : Config World Instr Err Unit → Bool)
    (h : (serverAfter s ssd users ok moves).any p = true) :
    ∃ c, ServerReachable s ssd cond users c ∧ p c = true := by
  obtain ⟨c, hc, hp⟩ := (Option.any_eq_true ..).mp h
  exact ⟨c, Reach.start.nexts hok hc, hp⟩

theorem unchecked_server {s : Settings} {ssd : SsdSettings} {users : Table User}
    (c : Config World Instr Err Unit) (_ : ServerReachable s ssd anyStep users c) (i : Instr) (t : ℕ)
    (_ : unchecked i t c = true) : anyStep i t c.state := trivial

/-- A server that takes all files to be of any bytes. -/
def mimeSettings : Settings := { plainSettings with detectMimeType := fun _ => octetStream }

/-- Two disks. -/
def ssdSettings : SsdSettings where
  limits := ⟨8, 0, 0, 100, 1000⟩
  host := ⟨⟨1, 0⟩, ⟨2, 0⟩, fun _ => ⟨1, 1⟩, fun _ => ⟨2, 1⟩⟩

/-- An upload of one byte to the SSD, and `n` steps of its completion. -/
def uploadOnSsd (n : ℕ) : List (Move Request Event) :=
  .call (.upload true 1 (.create [102] 1 1 none (some (Sha256.sha256 [7])))) ::
    List.replicate 17 (.run 1 0) ++
    .call (.upload true 1 (.chunk 1 0 [7] true)) :: List.replicate 41 (.run 2 0) ++
    .call (.upload true 1 (.complete 1)) :: List.replicate n (.run 3 0)

end HomeCloud
