import HomeCloud.Uploads.Only
import HomeCloud.Uploads.Verified

/-!
# The assembly of an upload fulfils the contract

* `Assembling`: what holds of the attempt until it is committed, also when the connection breaks.
* **`wp_assembleChunks`**: the file of the attempt has the chunks, as they were received.
* **`wp_publish`**, **`wp_assembleAndPublish`**: the file can be published.
-/

namespace HomeCloud

open Concurrent Sha256

section

variable {t n : ℕ} {w w' : World} {id : ℕ} {s : UploadSession} {enabled : Bool} {userId : ℕ}
  {access : Option PublicAccess}

/-! ## The attempt -/

/-- The statements of an assembly: the quiet ones, and steps on the file of its attempt and its object. -/
def Instr.Assembles (id n : ℕ) (i : Instr) : Prop :=
  i.quiet = true ∨ i = .disk .look ∨ i = .disk (.removeAttempt id n) ∨ i = .disk (.link id n) ∨
    i = .disk (.unlink id (some n)) ∨ ∃ data, i = .disk (.appendAttempt id n data)

/-- The attempt `n` of `t` has not been committed, and while `t` has the session to assemble it, the
other attempts are cleared. -/
structure Assembling (t : ℕ) (w : World) (id n : ℕ) : Prop where
  inv : Inv w
  own : w.Own t id n
  unpublished : w.Unpublished id (some n)
  fenced : w.Unfenced t id ∨
    (w.fences id).exclusive = some t ∧ (w.fences id).attempt = some n ∧ w.Tidy id (· = n)

theorem World.controls_of_exclusive (h : (w.fences id).exclusive = some t) :
    w.controls id t = true := by
  simp only [World.controls, h, decide_true, Bool.true_or]

theorem World.Unfenced.controls (h : w.Unfenced t id) : w.controls id t = false := by
  simp only [World.controls, h.1, h.2, decide_false, Bool.false_and, Bool.or_self]

theorem Assembling.attached (h : Assembling t w id n) (ha : Attached t w w') (hi : Inv w') :
    Assembling t w' id n where
  inv := hi
  own := ha.persists.own _ _ h.own
  unpublished := ha.persists.unpublished id (some n) (fun m hm => Option.some.inj hm ▸ h.own)
    h.unpublished
  fenced := by
    rcases h.fenced with hu | ⟨hx, hatt, htidy⟩
    · exact .inl (ha.persists.unfenced id hu)
    cases hl : w'.lost t with
    | true => exact .inl (hi.disk.detached t id hl)
    | false =>
      have hc := ha.continues hl
      obtain ⟨hx', hatt'⟩ := hc.held.exclusive id hx
      exact .inr ⟨hx', hatt'.trans hatt,
        htidy.continues h.inv.disk (World.controls_of_exclusive hx) hc⟩

/-- The database, the files and the locks on the session are the same. -/
theorem Assembling.of_eq (h : Assembling t w id n) (hi : Inv w') (hd : w'.disk = w.disk)
    (hs : w'.seen = w.seen) (he : w'.erased = w.erased) (hstray : w'.stray = w.stray)
    (hx : (w'.fences id).exclusive = (w.fences id).exclusive)
    (ha : (w'.fences id).attempt = (w.fences id).attempt)
    (hsh : t ∉ (w.fences id).shared → t ∉ (w'.fences id).shared) : Assembling t w' id n where
  inv := hi
  own := by
    rw [World.Own, hd, hx, ha]
    exact h.own
  unpublished := by
    rw [World.Unpublished, hs, he]
    exact h.unpublished
  fenced := by
    refine h.fenced.imp (fun hu => ⟨hx ▸ hu.1, hsh hu.2⟩) fun hf => ⟨hx ▸ hf.1, ha ▸ hf.2.1, ?_⟩
    rw [World.Tidy, hd, hstray]
    refine hf.2.2.imp_right fun ht a data hmem => (ht a data hmem).imp_right fun hc => ?_
    rw [World.Cleared, hd, World.Committed, hs]
    exact hc

/-- A step on the own attempt leaves the others as they are. -/
theorem Assembling.onDisk {op : DiskOp} (h : Assembling t w id n) (hop : op.plain = true)
    (hp : op.Pre t w)
    (hattempts : ∀ a data', (a, data') ∈ (op.apply t w.disk).attempts id →
      ∃ data, (a, data) ∈ w.disk.attempts id)
    (hobjects : ∀ a, a ≠ n → w.disk.objects (finalPlacement id (some a)) = none →
      (op.apply t w.disk).objects (finalPlacement id (some a)) = none) :
    Assembling t (w.onDisk op t) id n where
  inv := h.inv.onDisk hp
  own := (World.goes_onDisk hop hp).persists.own _ _ h.own
  unpublished := h.unpublished
  fenced := by
    rw [World.Unfenced, World.onDisk_fences_plain hop]
    refine h.fenced.imp_right fun hf => ⟨hf.1, hf.2.1, ?_⟩
    obtain ⟨-, -, ht⟩ := hf
    refine ht.imp (fun hs => Bool.or_eq_true_iff.mpr (.inl hs)) fun ht a data' hmem => ?_
    obtain ⟨data, hd⟩ := hattempts a data' hmem
    by_cases han : a = n
    · exact .inl han
    · exact .inr (((ht a data hd).resolve_left han).imp_left (hobjects a han))

/-- A quiet statement leaves the attempt alone. -/
theorem Assembling.quiet {i : Instr} (h : Assembling t w id n) (hq : i.quiet = true)
    (hi : Inv w') (he : i.exec t w = some w') : Assembling t w' id n := by
  unfold Instr.exec at he
  split_ifs at he with hlost
  · cases he
    cases i with
    | rollback => exact h.of_eq hi rfl rfl rfl rfl rfl rfl fun hs => hs
    | disk op => cases hq
    | _ => exact h
  · cases i with
    | lock k =>
      obtain ⟨-, rfl⟩ | ⟨-, rfl⟩ := Instr.perform_lock he
      · have hf := World.lock_sameFiles (w := w) (t := t) k
        have hfid := congrFun hf.fences id
        exact h.of_eq hi hf.disk (World.lock_seen k) hf.erased hf.stray (by rw [hfid]) (by rw [hfid])
          fun hs => by rwa [hfid]
      · exact h
    | read =>
      cases he
      exact h
    | names q | check expires =>
      cases he
      exact h.of_eq hi rfl rfl rfl rfl rfl rfl fun hs => hs
    | rollback =>
      cases he
      exact h.of_eq hi rfl rfl rfl rfl rfl rfl fun hs hm => hs (List.mem_of_mem_filter hm)
    | _ => cases hq

/-- **What holds of the attempt is kept by the assembly.** -/
theorem Assembling.step {i : Instr} (h : Assembling t w id n) (hK : i.Assembles id n)
    (hp : i.Due t w) (he : i.exec t w = some w') : Assembling t w' id n := by
  have hdisk : ∀ op : DiskOp, i = .disk op → w' = w.onDisk op t ∧ op.Pre t w := by
    rintro op rfl
    refine ⟨?_, hp (.inr rfl)⟩
    unfold Instr.exec at he
    split_ifs at he <;> exact (Option.some.inj he).symm
  -- Only the object of the own attempt is changed.
  have hobjects : ∀ op : DiskOp, (∀ a, op.changesObject id (some a) → a = n) → ∀ a, a ≠ n →
      w.disk.objects (finalPlacement id (some a)) = none →
      (op.apply t w.disk).objects (finalPlacement id (some a)) = none := by
    intro op hop a ha hn
    rw [op.objects_eq fun hc => ha (hop a hc), hn]
  rcases hK with hq | hop | hop | hop | hop | ⟨data, hop⟩
  · exact h.quiet hq (inv_step h.inv hp he) he
  · rw [(hdisk _ hop).1, World.onDisk_look]
    exact h
  · obtain ⟨rfl, hpre⟩ := hdisk _ hop
    refine h.onDisk rfl hpre (fun a data' hmem => ?_) (hobjects _ ?_)
    · simp only [DiskOp.apply, setAt_self] at hmem
      exact ⟨data', List.mem_of_mem_filter hmem⟩
    · rintro a (⟨m, -, hl⟩ | hl) <;> cases hl
  · obtain ⟨rfl, hpre⟩ := hdisk _ hop
    refine h.onDisk rfl hpre (fun a data' hmem => ?_) (hobjects _ ?_)
    · rcases DiskOp.attempt_apply _ hmem with ⟨old, hold, -⟩ | ⟨hcreate, -⟩
      · exact ⟨old, hold⟩
      · cases hcreate
    · rintro a (⟨m, hm, hl⟩ | hl)
      · cases hl
        exact Option.some.inj hm
      · cases hl
  · obtain ⟨rfl, hpre⟩ := hdisk _ hop
    refine h.onDisk rfl hpre (fun a data' hmem => ⟨data', hmem⟩) (hobjects _ ?_)
    rintro a (⟨m, -, hl⟩ | hl)
    · cases hl
    · cases hl
      rfl
  · obtain ⟨rfl, hpre⟩ := hdisk _ hop
    refine h.onDisk rfl hpre (fun a data' hmem => ?_) (hobjects _ ?_)
    · rcases DiskOp.attempt_apply _ hmem with ⟨old, hold, -⟩ | ⟨hcreate, -⟩
      · exact ⟨old, hold⟩
      · cases hcreate
    · rintro a (⟨m, -, hl⟩ | hl) <;> cases hl

/-- The programs of an assembly keep what holds of the attempt. -/
theorem wp_assembling {α : Type} {p : Op α} {Q : α → World → Prop} {E : Err → World → Prop}
    (hp : p.Only (Instr.Assembles id n)) (h : wp contract t p Q E w) (hw : Assembling t w id n) :
    wp contract t p (fun a w' => Q a w' ∧ Assembling t w' id n)
      (fun e w' => E e w' ∧ Assembling t w' id n) w :=
  wp_keep hp (fun _ _ ha hi hs => hs.attached ha hi) (fun _ _ _ hK _ hpre he hs => hs.step hK hpre he)
    h hw

/-- What has to hold before the file of the attempt is removed. -/
theorem Assembling.removable (h : Assembling t w id n) :
    (DiskOp.removeAttempt id n).Pre t w := by
  refine ⟨h.own, ?_⟩
  rcases h.fenced with hu | ⟨-, ha, -⟩
  · exact .inl hu.controls
  · exact .inr (.inr (.inl ha))

/-- **An attempt that has not been committed can be removed**, whatever became of the connection. -/
theorem discardAttempt_safe (h : Assembling t w id n) :
    Safe contract t (discardAttempt id n) w := by
  unfold discardAttempt
  rw [Safe, wp_bind]
  have hunlink : After t (onFiles (.unlink id (some n)) fun _ => ()) (fun _ _ => True) w := by
    refine wp_onFiles fun w₁ ha hi₁ => ⟨?_, trivial⟩
    have h₁ := h.attached ha hi₁
    exact ⟨fun m hm => Option.some.inj hm ▸ h₁.own, h₁.unpublished⟩
  have honly : (onFiles (.unlink id (some n)) fun _ => () : Op Unit).Only (Instr.Assembles id n) :=
    only_onFiles (.inr (.inr (.inr (.inr (.inl rfl)))))
  refine wp_ignoreFailure (wp_mono (fun _ w₁ h₁ => ?_) (fun _ w₁ h₁ => ?_)
    (wp_assembling honly hunlink h)) <;>
  exact wp_ignoreFailure (wp_mono (fun _ _ _ => trivial) (fun _ _ _ => trivial)
    (wp_onFiles (Q := fun _ _ => True) fun w₂ ha hi₂ =>
      ⟨(h₁.2.attached ha hi₂).removable, trivial⟩))

/-! ## The chunks -/

/-- While `t` has the session to assemble it, the file of the attempt has the chunks in `parts`, which
are those that the chunk rows describe. -/
structure Gathered (t : ℕ) (w : World) (id n : ℕ) (parts : List Bytes) : Prop where
  exclusive : (w.fences id).exclusive = some t
  attempt : (w.fences id).attempt = some n
  content : ∀ data, (n, data) ∈ w.disk.attempts id → data = parts.flatten
  records : ∀ q, w.db.uploadSessions.get id = some q → ∀ i part, parts[i]? = some part →
    ∀ c, q.chunk i = some c → c.byteSize = part.length ∧ c.sha256 = sha256 part

/-- The chunks of the session as they were received, from the first on. -/
def Received (w : World) (id : ℕ) (s : UploadSession) (parts : List Bytes) : Prop :=
  ∀ i part, parts[i]? = some part → (id, i, part) ∈ w.disk.received ∧ part.length = s.chunkLength i

theorem Received.persists {parts : List Bytes} (h : Received w id s parts) (hp : Persists t w w') :
    Received w' id s parts := fun i part hpart =>
  ⟨hp.received _ (h i part hpart).1, (h i part hpart).2⟩

theorem UploadSession.chunk_of_chunks {q q' : UploadSession} (h : q'.chunks = q.chunks) (i : ℕ) :
    q'.chunk i = q.chunk i := by
  rw [UploadSession.chunk, UploadSession.chunk, h]

theorem Gathered.continues {parts : List Bytes} (h : w.lost t = false → Gathered t w id n parts)
    (hk : Known w id s) (hlegacy : s.workspaceId = .legacy) (hl : w'.lost t = false)
    (hr : Continues t w w') : Gathered t w' id n parts := by
  obtain ⟨hx, ha, hcontent, hrecords⟩ := h (hr.live hl)
  obtain ⟨hx', ha'⟩ := hr.held.exclusive id hx
  refine ⟨hx', ha'.trans ha, fun data hd => hcontent data ((hr.held.attempt id n hx ha).1 data hd), ?_⟩
  intro q' hq' i part hpart c hc
  obtain ⟨q, hq, -⟩ := hr.keeps.grows.sessions.old id q' hk.bound hq'
  have hws : q.workspaceId = .legacy := (hk.same q hq).workspaceId.trans hlegacy
  rw [UploadSession.chunk_of_chunks (hr.held.chunks id q q' hx hq hws hq')] at hc
  exact hrecords q hq i part hpart c hc

/-- One chunk more. -/
theorem getElem?_snoc {parts : List Bytes} {data part : Bytes} {i : ℕ}
    (h : (parts ++ [data])[i]? = some part) :
    parts[i]? = some part ∨ i = parts.length ∧ part = data := by
  rw [List.getElem?_append] at h
  split_ifs at h with hi
  · exact .inl h
  · obtain ⟨hlt, heq⟩ := List.getElem?_eq_some_iff.mp h
    rw [List.length_singleton] at hlt
    have h0 : i - parts.length = 0 := by omega
    simp only [h0, List.getElem_cons_zero] at heq
    exact .inr ⟨by omega, heq.symm⟩

theorem Received.snoc {parts : List Bytes} {data : Bytes} (h : Received w id s parts)
    (hd : (id, parts.length, data) ∈ w.disk.received)
    (hl : data.length = s.chunkLength parts.length) : Received w id s (parts ++ [data]) := by
  intro i part hpart
  rcases getElem?_snoc hpart with hold | ⟨rfl, rfl⟩
  · exact h i part hold
  · exact ⟨hd, hl⟩

/-- The next chunk is written to the file of the attempt. -/
theorem Gathered.append {parts : List Bytes} {data : Bytes} (h : Gathered t w id n parts)
    (hrow : ∀ q, w.db.uploadSessions.get id = some q → ∀ c, q.chunk parts.length = some c →
      c.byteSize = data.length ∧ c.sha256 = sha256 data) :
    Gathered t (w.onDisk (.appendAttempt id n data) t) id n (parts ++ [data]) where
  exclusive := h.exclusive
  attempt := h.attempt
  content data' hd := by
    simp only [World.onDisk, DiskOp.apply, setAt_self, List.mem_map] at hd
    obtain ⟨⟨a, x⟩, hx, heq⟩ := hd
    split_ifs at heq with ha
    · cases heq
      rw [h.content x hx, List.flatten_append, List.flatten_singleton]
    · cases heq
      exact absurd rfl ha
  records q hq i part hpart c hc := by
    rcases getElem?_snoc hpart with hold | ⟨rfl, rfl⟩
    · exact h.records q hq i part hold c hc
    · exact hrow q hq c hc

/-- **The chunks that are assembled are those that were received**, and match their rows. -/
theorem wp_assembleChunks {Q : List Bytes → World → Prop} (hlegacy : s.workspaceId = .legacy) :
    ∀ (m : ℕ) (done : List Bytes) {w : World}, Inv w → Known w id s → w.Own t id n →
    Received w id s done → (w.lost t = false → Gathered t w id n done) →
    (∀ w' parts, Goes t w w' → Inv w' → parts.length = m → Received w' id s (done ++ parts) →
      (w'.lost t = false → Gathered t w' id n (done ++ parts)) → Q parts w') →
    After t (assembleChunks id n s m done.length) Q w
  | 0, done, w, hi, _, _, hrec, hg, h => by
    refine h w [] (.refl t w) hi rfl ?_ fun hl => ?_
    · rwa [List.append_nil]
    · rw [List.append_nil]
      exact hg hl
  | m + 1, done, w, hi, hk, hown, hrec, hg, h => by
    unfold assembleChunks
    rw [After, wp_bind]
    refine wp_look fun w₁ h₁ hi₁ => ?_
    rw [wp_bind]
    refine wp_require fun data hdata => ?_
    rw [wp_bind]
    refine wp_assert fun hlength => ?_
    rw [wp_bind]
    refine wp_query_attached fun w₂ h₂ hl₂ hi₂ => ?_
    rw [wp_bind]
    refine wp_onFiles_goes rfl fun w₃ h₃ hi₃ => ⟨?_, fun hg₄ hi₄ => ?_⟩
    · exact ((h₁.trans h₂).trans h₃).persists.own _ _ hown
    rw [wp_bind]
    refine wp_assert fun hmatch => ?_
    rw [wp_bind]
    have hgo₂ := (h₁.trans h₂).goes
    have hgo := hgo₂.trans hg₄
    have hnew : Received (w₃.onDisk (.appendAttempt id n data) t) id s (done ++ [data]) :=
      (hrec.persists hgo.persists).snoc
        ((h₂.goes.trans hg₄).persists.received _ (hi₁.disk.received id _ data hdata))
        (of_decide_eq_true hlength)
    have hgather : w₃.lost t = false →
        Gathered t (w₃.onDisk (.appendAttempt id n data) t) id n (done ++ [data]) := by
      intro hl₃
      have hc₃ := h₃.continues hl₃
      have hg₂ := Gathered.continues hg hk hlegacy hl₂ ((h₁.trans h₂).continues hl₂)
      have hk₂ := hk.persists hgo₂.persists
      refine (Gathered.continues (fun _ => hg₂) hk₂ hlegacy hl₃ hc₃).append fun q hq c hc => ?_
      -- The row of the chunk has been the same when it was looked up.
      obtain ⟨q₂, hq₂, -⟩ := hc₃.keeps.grows.sessions.old id q hk₂.bound hq
      have hws : q₂.workspaceId = .legacy := (hk₂.same q₂ hq₂).workspaceId.trans hlegacy
      rw [UploadSession.chunk_of_chunks (hc₃.held.chunks id q₂ q hg₂.exclusive hq₂ hws hq)] at hc
      rw [hq₂, Option.bind_some, hc] at hmatch
      simpa using hmatch
    have hrest := wp_assembleChunks hlegacy m (done ++ [data]) hi₄ (hk.persists hgo.persists)
      (hgo.persists.own _ _ hown) hnew hgather (Q := fun parts w' => wp contract t
        (pure (data :: parts) : Op (List Bytes)) Q (fun _ _ => True) w')
      fun w' parts hg' hi' hlen hrec' hgath' => h w' (data :: parts) (hgo.trans hg') hi'
        (by rw [List.length_cons, hlen]) (by rwa [List.append_cons]) (by rwa [List.append_cons])
    rwa [List.length_append] at hrest

/-! ## The publication -/

/-- What a request with an upload link has been found to be allowed, for the session `s`. -/
def Authorized (t : ℕ) (w : World) (access : Option PublicAccess) (s : UploadSession) : Prop :=
  ∀ a, access = some a → ∃ p, s.parentId = some p ∧ sessionWhere a.proof.userId access s = true ∧
    SharedOk t w a.proof.shareId a.proof.rootId a.proof.userId p ∧ ProofChecked t w a.proof.expires

theorem wp_authorizeSession_locked {lock : Bool} {Q : Unit → World → Prop}
    (hlock : lock = true ∨ (w.lost t = false → ∀ a, access = some a →
      w.locks (.link a.proof.shareId) = some t))
    (h : ∀ w', Follows t w w' → Authorized t w' access s → Q () w') :
    After t (authorizeSession enabled s access lock) Q w := by
  cases access with
  | none => exact h w (.refl t w) fun a ha => nomatch ha
  | some a =>
    unfold authorizeSession
    rw [After, wp_bind]
    refine wp_assert fun _ => ?_
    rw [wp_bind]
    refine wp_assert fun hwhere => ?_
    rw [wp_bind]
    refine wp_require fun p hp => ?_
    refine wp_authorizeUpload_locked (hlock.imp_right fun hl hlost => hl hlost a rfl)
      fun w₁ h₁ _ hc hs => h w₁ h₁ fun b hb => ?_
    cases hb
    exact ⟨p, hp, hwhere, hs, hc⟩

theorem wp_lockPublicationDestination {parentId : Option ℕ} {Q : Unit → World → Prop}
    (h : ∀ w₁ w', Rely t w w₁ → (∀ p, parentId = some p → w₁.db.rooted userId p = true) →
      Rely t w₁ w' → Q () w') :
    After t (lockPublicationDestination userId parentId) Q w := by
  cases parentId with
  | none => exact h w w (.refl t w) (fun p hp => nomatch hp) (.refl t w)
  | some p =>
    unfold lockPublicationDestination
    rw [After, wp_bind]
    refine wp_query fun w₁ h₁ _ => ?_
    rw [wp_bind]
    refine wp_assert fun hpath => wp_lockFolders _ fun w₂ h₂ => h w₁ w₂ h₁ (fun p' hp' => ?_) h₂
    cases hp'
    exact hpath

theorem Keeps.rooted (h : Keeps t w w') (hi : Intact w'.db) (hl : w.locks (.user userId) = some t)
    {p : ℕ} (hr : w.db.rooted userId p = true) : w'.db.rooted userId p = true :=
  Db.rooted_mono (fun f r hr hlive => h.live hi hl f r hr hlive) hr

/-- What is locked for a publication: the owner, the session and the link if there is one. -/
structure PublicationLocks (t : ℕ) (w : World) (userId id : ℕ) (current : UploadSession)
    (access : Option PublicAccess) : Prop where
  inv : Inv w
  user : w.locks (.user userId) = some t
  row : w.db.uploadSessions.get id = some current
  session : w.locks (.session id) = some t
  path : ∀ p, current.parentId = some p → w.db.rooted userId p = true
  link : ∀ a, access = some a → w.locks (.link a.proof.shareId) = some t

theorem PublicationLocks.keeps {current : UploadSession}
    (h : PublicationLocks t w userId id current access) (hk : Keeps t w w') (hi : Inv w') :
    PublicationLocks t w' userId id current access where
  inv := hi
  user := hk.locks _ h.user
  row := hk.sessions _ _ h.session h.row
  session := hk.locks _ h.session
  path p hp := hk.rooted hi.intact h.user (h.path p hp)
  link a ha := hk.locks _ (h.link a ha)

/-- The object of the attempt has the chunks, and a name has been chosen for the file. -/
structure Linked (t : ℕ) (w : World) (userId id n : ℕ) (current : UploadSession)
    (access : Option PublicAccess) (parts : List Bytes) (c : NameChoice) : Prop where
  locks : PublicationLocks t w userId id current access
  gathered : Gathered t w id n parts
  object : w.disk.objects (finalPlacement id (some n)) = some parts.flatten
  chosen : Chosen t w ⟨userId, current.parentId⟩ (.ofJs c.chosen) c []

theorem Linked.follows {current : UploadSession} {parts : List Bytes} {c : NameChoice}
    (h : w.lost t = false → Linked t w userId id n current access parts c) (hk : Known w id s)
    (hlegacy : s.workspaceId = .legacy) (hl : w'.lost t = false) (hr : Follows t w w')
    (hi : Inv w') : Linked t w' userId id n current access parts c where
  locks := (h (hr.live hl)).locks.keeps hr.keeps hi
  gathered := Gathered.continues (fun h₀ => (h h₀).gathered) hk hlegacy hl hr.toContinues
  object := by
    have hg := (h (hr.live hl)).gathered
    rw [(hr.held.attempt id n hg.exclusive hg.attempt).2, (h (hr.live hl)).object]
  chosen := (h (hr.live hl)).chosen.follows hr

theorem SharedOk.of_checked {linkId rootId p : ℕ} (h : SharedOk t w linkId rootId userId p)
    (hk : Keeps t w w') (hi : Intact w'.db) (hu : w.locks (.user userId) = some t)
    (hc : w'.checked t = w.checked t) : SharedOk t w' linkId rootId userId p where
  link := by
    obtain ⟨l, hl, hactive, howner, hexpires⟩ := h.link
    exact ⟨l, hk.links h.locked hl, hactive, howner, hc ▸ hexpires⟩
  checked := hc ▸ h.checked
  locked := hk.locks _ h.locked
  within := hk.within hi hu h.within

/-- **The writes of a publication are in order.** -/
theorem Linked.publishOk {current : UploadSession} {parts : List Bytes} {c : NameChoice}
    {mimeType : JsString} {checksum : Option ℕ}
    (h : Linked t w userId id n current access parts c) (hk : Known w id s)
    (hlegacy : s.workspaceId = .legacy) (hrec : Received w id s parts) (hlen : parts.length = s.totalChunks)
    (hactive : current.active = true) (hwhere : sessionWhere userId access current = true)
    (hsha : s.expectedSha256.all (· = sha256 parts.flatten) = true)
    (hsize : parts.flatten.length = s.totalSize)
    (hcharged : Charged t w userId parts.flatten.length) (hauth : Authorized t w access current) :
    PublishOk t w id (current.complete parts.flatten)
      (uploadedFile userId id n current c parts.flatten mimeType checksum) c current n := by
  have hsame := hk.same current h.locks.row
  have howner : current.userId = userId := by
    simp only [sessionWhere, Bool.and_eq_true, decide_eq_true_eq] at hwhere
    exact hwhere.1
  have hfence := And.intro h.gathered.exclusive h.gathered.attempt
  exact
    { row := h.locks.row
      locked := h.locks.session
      user := howner ▸ h.locks.user
      active := hactive
      workspace := hsame.workspaceId.trans hlegacy
      same := ⟨rfl, rfl, rfl, rfl, rfl, rfl, rfl, rfl, rfl⟩
      completed := rfl
      chunks := rfl
      added :=
        { plain := ⟨rfl, rfl⟩
          live := rfl
          charged := hcharged
          chosen := h.chosen
          placed := by
            refine ⟨fun s' a hp => ?_, fun s' hs' => ?_⟩
            · obtain ⟨rfl, rfl⟩ := finalPlacement_inj.mp (Option.some.inj hp)
              exact ⟨n, rfl, hfence.2, hfence.1, rfl⟩
            · cases hs'
              exact ⟨current, h.locks.row, howner.symm⟩ }
      owner := howner.symm
      size := hsize.trans hsame.totalSize.symm
      upload := rfl
      parent := rfl
      fence := hfence
      placement := rfl
      object := by
        refine ⟨parts.flatten, h.object, ⟨parts, rfl, hlen.trans hsame.totalChunks.symm, ?_⟩, ?_⟩
        · intro i part hpart
          obtain ⟨hin, hl⟩ := hrec i part hpart
          exact ⟨hin, hl.trans (hsame.chunkLength i).symm,
            h.gathered.records current h.locks.row i part hpart⟩
        · rw [hsame.expectedSha256]
          exact hsha
      path := fun p hp => howner ▸ h.locks.path p hp
      shared := fun hpublic => by
        cases access with
        | none =>
          simp only [sessionWhere, Bool.and_eq_true, decide_eq_true_eq] at hwhere
          exact nomatch hpublic.symm.trans hwhere.2
        | some a =>
          obtain ⟨p, hp, hw, hshared, now, hchecked, hlt, -⟩ := hauth a rfl
          simp only [sessionWhere, Bool.and_eq_true, decide_eq_true_eq] at hw
          refine ⟨a.proof.shareId, a.proof.rootId, p, hw.2.1.2, hw.2.2, hp, hw.1 ▸ hshared,
            fun now' expires hne => ?_⟩
          cases hchecked.symm.trans hne
          exact hlt }

/-- A link gives the object what the file of the attempt has. -/
theorem World.object_link {data : Bytes} (hlinked : (((w.disk.attempts id).find? (·.1 = n)).isSome &&
      (w.disk.objects (finalPlacement id (some n))).isNone) = true)
    (h : ∀ data', (n, data') ∈ w.disk.attempts id → data' = data) :
    (w.onDisk (.link id n) t).disk.objects (finalPlacement id (some n)) = some data := by
  simp only [Bool.and_eq_true, Option.isNone_iff_eq_none] at hlinked
  obtain ⟨⟨a, x⟩, hfind⟩ := Option.isSome_iff_exists.mp hlinked.1
  have ha : a = n := by simpa using List.find?_some hfind
  subst ha
  simp only [World.onDisk, DiskOp.apply, hfind, hlinked.2, setAt_self]
  rw [h x (List.mem_of_find?_eq_some hfind)]

/-- A link leaves the file of the attempt as it is. -/
theorem Gathered.link {parts : List Bytes} (h : Gathered t w id n parts) :
    Gathered t (w.onDisk (.link id n) t) id n parts where
  exclusive := h.exclusive
  attempt := h.attempt
  content data hd := by
    rcases DiskOp.attempt_apply _ hd with ⟨old, hold, heq⟩ | ⟨hc, -⟩
    · exact heq (fun _ => nofun) ▸ h.content old hold
    · cases hc
  records := h.records

/-- The writes publish the object of the attempt. -/
def Tx.Places (id n : ℕ) (tx : Tx) : Prop := ∃ session file c,
  tx = .uploads (.publish id session file c) ∧ file.placement = some (finalPlacement id (some n))

/-- **The file can be published.** -/
theorem wp_publish {parts : List Bytes} {mimeType : JsString} {Q : Tx → World → Prop}
    (hk : Known w id s) (hlegacy : s.workspaceId = .legacy) (hpos : 0 < s.totalSize)
    (hown : w.Own t id n) (hrec : Received w id s parts) (hlen : parts.length = s.totalChunks)
    (hsha : s.expectedSha256.all (· = sha256 parts.flatten) = true)
    (hsize : parts.flatten.length = s.totalSize)
    (hg : w.lost t = false → Gathered t w id n parts)
    (h : ∀ w' tx, Ready t tx w' → tx.Places id n → Q tx w') :
    After t (publish enabled userId id n s parts.flatten mimeType access) Q w := by
  unfold publish
  rw [After, wp_bind]
  refine wp_lockUser fun w₁ row h₁ hi₁ hrow hl => ?_
  rw [wp_bind]
  refine wp_require fun user huser => ?_
  have huser₁ : w₁.locks (.user userId) = some t := by
    obtain ⟨hsome, -⟩ := Option.filter_eq_some_iff.mp huser
    exact hl (hsome ▸ rfl)
  rw [wp_bind]
  refine wp_authorizeSession_locked (.inl rfl) fun w₂ h₂ hauth => ?_
  rw [wp_bind]
  refine wp_lockPublicationDestination fun w₃ w₄ h₃ hpath h₄ => ?_
  rw [wp_bind]
  refine wp_lockSession fun w₅ row h₅ hi₅ hcurrent hl₅ => ?_
  rw [wp_bind]
  refine wp_require fun current hrow₅ => ?_
  obtain ⟨hsome, hwhere⟩ := Option.filter_eq_some_iff.mp hrow₅
  rw [hsome] at hcurrent hl₅
  rw [wp_bind]
  refine wp_assert fun hsame => ?_
  simp only [Bool.and_eq_true, decide_eq_true_eq] at hsame
  obtain ⟨⟨⟨⟨⟨⟨hparent, -⟩, -⟩, -⟩, -⟩, -⟩, hactive⟩ := hsame
  have h₁₂ := h₂.toContinues
  have h₂₅ : Continues t w₂ w₅ := (h₃.trans (h₄.trans h₅)).toContinues
  have hlocks₅ : PublicationLocks t w₅ userId id current access :=
    { inv := hi₅
      user := (h₁₂.trans h₂₅).keeps.locks _ huser₁
      row := hcurrent
      session := hl₅ rfl
      path := fun p hp => by
        have hk₃ := (h₂.trans h₃.toFollows).keeps
        exact (h₄.trans h₅).keeps.rooted hi₅.intact (hk₃.locks _ huser₁) (hpath p (hparent ▸ hp))
      link := fun a ha => by
        obtain ⟨p, -, -, hshared, -⟩ := hauth a ha
        exact h₂₅.keeps.locks _ hshared.locked }
  rw [wp_bind]
  refine wp_query fun w₆ h₆ _ => ?_
  rw [wp_bind]
  refine wp_assert fun _ => ?_
  rw [wp_bind]
  refine wp_assertLegacyUnreserved fun w₇ h₇ _ => ?_
  rw [wp_bind]
  refine wp_resolveSessionWorkspace fun w₈ h₈ _ _ => ?_
  rw [wp_bind]
  refine wp_query fun w₉ h₉ _ => ?_
  rw [wp_bind]
  refine wp_parseDatabaseSize fun _ _ => ?_
  rw [wp_bind]
  refine wp_parseDatabaseSize fun _ _ => ?_
  rw [wp_bind]
  refine wp_parseDatabaseSize fun _ _ => ?_
  rw [wp_bind]
  refine wp_parseDatabaseSize fun _ _ => ?_
  rw [wp_bind]
  refine wp_assert fun _ => ?_
  rw [wp_bind]
  refine wp_allocateNamespaceName_continues fun w₁₀ c h₁₀ hi₁₀ hchosen => ?_
  have h₅₁₀ : Continues t w₅ w₁₀ := (h₆.trans (h₇.trans (h₈.trans h₉))).toContinues.trans h₁₀
  have hlocks₁₀ := hlocks₅.keeps h₅₁₀.keeps hi₁₀
  have hall : Continues t w w₁₀ := (h₁.toContinues.trans (h₁₂.trans h₂₅)).trans h₅₁₀
  rw [wp_bind]
  refine wp_onFiles_goes rfl fun w₁₁ h₁₁ hi₁₁ =>
    ⟨(hall.persists.trans h₁₁.persists).own _ _ hown, fun hg₁₂ hi₁₂ => ?_⟩
  rw [wp_bind]
  refine wp_assert fun hlinked => ?_
  have hgo₁₂ : Goes t w (w₁₁.onDisk (.link id n) t) := hall.goes.trans hg₁₂
  have hk₁₂ := hk.persists hgo₁₂.persists
  -- While the connection holds, the object is that of the attempt.
  have hlink : (w₁₁.onDisk (.link id n) t).lost t = false →
      Linked t (w₁₁.onDisk (.link id n) t) userId id n current access parts c := by
    intro hl
    have hl₁₁ : w₁₁.lost t = false := hl
    have hc₁₁ := (h₁₁.rely hl₁₁).toFollows
    have hg₁₁ := Gathered.continues hg hk hlegacy hl₁₁ (hall.trans hc₁₁.toContinues)
    have hlocks₁₁ := hlocks₁₀.keeps hc₁₁.keeps hi₁₁
    have hchosen₁₁ := hchosen.follows hc₁₁
    exact
      { locks := hlocks₁₁.keeps (.of_db_eq rfl rfl fun _ hk => hk) hi₁₂
        gathered := hg₁₁.link
        object := World.object_link hlinked hg₁₁.content
        chosen := ⟨hchosen₁₁.slot, hchosen₁₁.name, hchosen₁₁.window, hchosen₁₁.settled,
          hchosen₁₁.fresh⟩ }
  rw [wp_bind]
  refine wp_authorizeSession_locked (.inr fun hl => (hlink hl).locks.link) fun w₁₃ h₁₃ _ => ?_
  rw [wp_bind]
  refine wp_updateStorageUsed (.inl (by omega)) fun w₁₄ h₁₄ hcharged => ?_
  have h₁₂₁₄ := h₁₃.trans h₁₄.toFollows
  rw [wp_bind]
  refine wp_authorizeSession_locked (.inr fun hl a ha => ?_) fun w₁₅ h₁₅ hauth₁₅ => ?_
  · exact h₁₂₁₄.keeps.locks _ ((hlink (h₁₂₁₄.live hl)).locks.link a ha)
  refine h w₁₅ _ (fun w' ha hl hi' _ => ⟨current, n, ?_⟩) ⟨_, _, c, rfl, rfl⟩
  have h₁₂₁₅ := h₁₂₁₄.trans h₁₅
  have hr' := ha.rely hl
  have hlinked' := Linked.follows hlink hk₁₂ hlegacy hl (h₁₂₁₅.trans hr'.toFollows) hi'
  have hpersists := hgo₁₂.persists.trans (h₁₂₁₅.trans hr'.toFollows).persists
  refine hlinked'.publishOk (hk.persists hpersists) hlegacy (hrec.persists hpersists) hlen hactive hwhere
    hsha hsize (hcharged.keeps (h₁₅.trans hr'.toFollows).keeps) fun a haccess => ?_
  obtain ⟨p, hp, hw, hshared, hproof⟩ := hauth₁₅ a haccess
  refine ⟨p, hp, hw, hshared.of_checked hr'.keeps hi'.intact ?_ hr'.checked, hproof.rely hr'⟩
  -- The link is one of the owner.
  have howner : a.proof.userId = userId := by
    simp only [sessionWhere, Bool.and_eq_true, decide_eq_true_eq] at hw hwhere
    exact hw.1.symm.trans hwhere.1
  rw [howner]
  exact h₁₂₁₅.keeps.locks _ (hlink (h₁₂₁₅.live (hr'.live hl))).locks.user

/-! ## The assembly -/

theorem only_assembleChunks : ∀ m i, (assembleChunks id n s m i).Only (Instr.Assembles id n)
  | 0, _ => trivial
  | m + 1, i => .bind (only_onFiles (.inr (.inl rfl))) fun _ => .bind only_require fun _ =>
    .bind only_assert fun _ => .bind (only_query fun _ => .inl) fun _ =>
    .bind (only_onFiles (.inr (.inr (.inr (.inr (.inr ⟨_, rfl⟩)))))) fun _ =>
    .bind only_assert fun _ => .bind (only_assembleChunks m (i + 1)) fun _ => trivial

theorem runs_publish {data : Bytes} {mimeType : JsString} {P : Tx → Prop}
    (hP : ∀ session file c, P (.uploads (.publish id session file c))) :
    (publish enabled userId id n s data mimeType access).Runs (Instr.Assembles id n) P := by
  have hK : ∀ i : Instr, i.quiet = true → i.Assembles id n := fun _ => .inl
  refine .bind (only_selectForUpdate hK) fun _ => .bind only_require fun _ =>
    .bind (only_authorizeSession hK) fun _ => .bind (only_lockPublicationDestination hK) fun _ =>
    .bind (only_selectForUpdate hK) fun _ => .bind only_require fun _ => .bind only_assert fun _ =>
    .bind (only_query hK) fun _ => .bind only_assert fun _ =>
    .bind (.bind (only_query hK) fun _ => only_assert) fun _ =>
    .bind (only_resolveSessionWorkspace hK) fun _ => .bind (only_query hK) fun _ =>
    .bind only_parseDatabaseSize fun _ => .bind only_parseDatabaseSize fun _ =>
    .bind only_parseDatabaseSize fun _ => .bind only_parseDatabaseSize fun _ =>
    .bind only_assert fun _ => .bind (only_allocateNamespaceName hK) fun _ =>
    .bind (only_onFiles (.inr (.inr (.inr (.inl rfl))))) fun _ => .bind only_assert fun _ =>
    .bind (only_authorizeSession hK) fun _ => .bind (only_updateStorageUsed hK) fun _ =>
    .bind (only_authorizeSession hK) fun _ => hP _ _ _

theorem runs_assembleAndPublish {detect : Bytes → JsString} {there : Bool} {P : Tx → Prop}
    (hP : ∀ session file c, P (.uploads (.publish id session file c))) :
    (assembleAndPublish enabled detect userId id n there s access).Runs (Instr.Assembles id n) P := by
  have hremove : ∀ e : Err, (do
      onFiles (.removeAttempt id n) fun _ => ()
      throw e : Op (List Bytes)).Only (Instr.Assembles id n) := fun e =>
    .bind (only_onFiles (.inr (.inr (.inl rfl)))) fun _ => trivial
  refine .bind only_mayFail fun _ => .bind only_assert fun _ =>
    .bind (.tryCatch (only_assembleChunks _ _) hremove) fun parts => ?_
  dsimp only
  have hrest : (do
      assert (.badRequest "Whole-file integrity mismatch")
        (s.expectedSha256.all (· = sha256 parts.flatten))
      mayFail .filesystem
      orRollback (publish enabled userId id n s parts.flatten (detect parts.flatten) access) :
      Op Tx).Runs (Instr.Assembles id n) P :=
    .bind only_assert fun _ => .bind only_mayFail fun _ => runs_orRollback (fun _ => .inl) (runs_publish hP)
  split_ifs
  · exact .bind (only_onFiles (.inr (.inr (.inl rfl)))) fun _ => trivial
  · exact hrest

/-- **The assembly gets the publication ready**, or fails with the attempt as it was. -/
theorem wp_assembleAndPublish {detect : Bytes → JsString} {there : Bool}
    (hw : Assembling t w id n) (hk : Known w id s) (hlegacy : s.workspaceId = .legacy)
    (hpos : 0 < s.totalSize) (hg : w.lost t = false → Gathered t w id n []) :
    wp contract t (assembleAndPublish enabled detect userId id n there s access)
      (fun tx w' => (Ready t tx w' ∧ tx.Places id n) ∧ Assembling t w' id n)
      (fun _ w' => True ∧ Assembling t w' id n) w := by
  refine wp_assembling (runs_assembleAndPublish (P := fun _ => True) fun _ _ _ => trivial).only ?_ hw
  unfold assembleAndPublish
  rw [wp_bind]
  refine wp_mayFail ?_
  rw [wp_bind]
  refine wp_assert fun _ => ?_
  rw [wp_bind, wp_tryCatch]
  have hremove : ∀ {α : Type} {Q : α → World → Prop} w₁, Assembling t w₁ id n → ∀ e : Err,
      After t (do
        onFiles (.removeAttempt id n) fun _ => ()
        throw e : Op α) Q w₁ := fun w₁ h₁ e => by
    rw [After, wp_bind]
    exact wp_onFiles fun w₂ ha hi₂ => ⟨(h₁.attached ha hi₂).removable, trivial⟩
  refine wp_mono (fun parts w₁ h₁ => ?_) (fun e w₁ h₁ => hremove w₁ h₁.2 e)
    (wp_assembling (only_assembleChunks _ _) (wp_assembleChunks hlegacy s.totalChunks [] hw.inv hk
      hw.own (fun i part hp => by simp at hp) hg (Q := fun parts w' => Goes t w w' ∧
        parts.length = s.totalChunks ∧ Received w' id s parts ∧
        (w'.lost t = false → Gathered t w' id n parts))
      fun w' parts hgo _ hlen hrec hgather => ⟨hgo, hlen, hrec, hgather⟩) hw)
  obtain ⟨⟨hgo, hlen, hrec, hgather⟩, h₁⟩ := h₁
  dsimp only
  split_ifs with hsize
  · exact hremove w₁ h₁ _
  · rw [wp_bind]
    refine wp_assert fun hsha => ?_
    rw [wp_bind]
    refine wp_mayFail (wp_orRollback ?_)
    exact wp_publish (hk.persists hgo.persists) hlegacy hpos h₁.own hrec hlen hsha
      (not_not.mp hsize) hgather fun w' tx hready hplaces => ⟨hready, hplaces⟩

end

end HomeCloud
