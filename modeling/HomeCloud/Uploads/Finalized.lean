import HomeCloud.Files.Names
import HomeCloud.Journal.Sound
import HomeCloud.Server

/-!
# Finalizations are safe

What holds of the finalizations in every reachable state of the server, and of what comes after it: whatever runs
next to them, and wherever processes end and connections break.

* **`journal_in_order`**: the journal says what is the case, and an upload has one file.
* **`journal_moves_on`**: an operation only moves on.
* **`chunks_kept_until_commit`**: the chunks of an upload are there until its file is committed.
* **`objects_genuine`**: an object is the upload in full; **`verified_file_kept`**: nobody writes it again.
* **`files_have_objects`**: a file of a finalization has its object.
* `Finalizes`, **`commit_exact`**: the one step that commits a file, and all it does.
* **`commit_needs_free_name`**: it does not choose another name.
* `OneByte`: a run with all of it.
-/

namespace HomeCloud

open Concurrent Sha256

section

variable {s : Settings} {ssd : SsdSettings} {cond : Instr → ℕ → World → Prop} {users : Table User}
  {c c' : Config World Instr Err Unit} {id : ℕ} {op : FinalizationOperation}

/-! ## A run -/

/-- The file of the operation, if it is committed, has not been deleted. Its object goes with it. -/
def Db.HasFile (db : Db) (id : ℕ) : Prop := ∀ op f, db.finalizationOperations.get id = some op →
  op.fileId = some f → (db.files.get f).isSome

theorem Db.hasFile_of_all {db : Db} {id : ℕ} (h : (db.finalizationOperations.get id).all
    (fun (op : FinalizationOperation) => op.fileId.all fun f => (db.files.get f).isSome) = true) : db.HasFile id := by
  intro op f hop hf
  simpa [hop, hf] using h

theorem choosesNames_server {users : Table User} (c : Config World Instr Err Unit)
    (h : ServerReachable s ssd ChoosesNames users c) (i : Instr) (t : ℕ) (hok : choosesNames i t c = true) :
    ChoosesNames i t c.state := choosesNames_sound h.idle hok

/-- The upload of one byte to the SSD: when its file is verified, when it has its name, when it is committed in the
next step, and after the cleanup. -/
structure OneByte (c₁ c₂ c₃ c₄ : Config World Instr Err Unit) : Prop where
  reached : ServerReachable mimeSettings ssdSettings ChoosesNames oneUser c₁
  verified : ∃ op, c₁.state.db.finalizationOperations.get 0 = some op ∧ op.state = .verified
  temporary : ∃ a, c₁.state.disk.ssd.temporaries 0 = some a
  publishes : Later (server mimeSettings ssdSettings) ChoosesNames c₁ c₂
  published : ∃ op, c₂.state.db.finalizationOperations.get 0 = some op ∧ op.state = .published
  chooses : Meets ChoosesNames c₂ (.run 3 0 : Move Request Event)
  commits : c₂.next (server mimeSettings ssdSettings) (.run 3 0) = some c₃
  committed : ∃ op, c₃.state.db.finalizationOperations.get 0 = some op ∧ op.state = .committed
  file : ∃ r, c₃.state.db.files.get 1 = some r ∧ r.placement = some ⟨0, .finalized 1 0⟩
  hasFile : c₃.state.db.HasFile 0
  cleans : Later (server mimeSettings ssdSettings) ChoosesNames c₃ c₄
  cleaned : ∃ op, c₄.state.db.finalizationOperations.get 0 = some op ∧ op.cleanupState = .cleaned
  renamed : c₄.state.disk.ssd.temporaries 0 = none
  kept : c₄.state.db.HasFile 0

theorem exists_oneByte : ∃ c₁ c₂ c₃ c₄, OneByte c₁ c₂ c₃ c₄ := by
  have hrun : (serverAfter mimeSettings ssdSettings oneUser choosesNames (uploadOnSsd 60)).any (fun c₁ =>
      ((c₁.state.db.finalizationOperations.get 0).any (·.state = .verified) &&
        (c₁.state.disk.ssd.temporaries 0).isSome) &&
      (c₁.nexts (server mimeSettings ssdSettings) choosesNames (List.replicate 37 (.run 3 0))).any fun c₂ =>
        ((c₂.state.db.finalizationOperations.get 0).any (·.state = .published) &&
          c₂.passes choosesNames (.run 3 0 : Move Request Event)) &&
        (c₂.next (server mimeSettings ssdSettings) (.run 3 0)).any fun c₃ =>
          (((c₃.state.db.finalizationOperations.get 0).any (·.state = .committed) &&
            (c₃.state.db.files.get 1).any fun (r : File) => decide (r.placement = some ⟨0, .finalized 1 0⟩)) &&
            (c₃.state.db.finalizationOperations.get 0).all fun (op : FinalizationOperation) =>
              op.fileId.all fun f => (c₃.state.db.files.get f).isSome) &&
          (c₃.nexts (server mimeSettings ssdSettings) choosesNames (List.replicate 92 (.run 3 0))).any fun c₄ =>
            ((c₄.state.db.finalizationOperations.get 0).any (·.cleanupState = .cleaned) &&
              (c₄.state.disk.ssd.temporaries 0).isNone) &&
              (c₄.state.db.finalizationOperations.get 0).all fun (op : FinalizationOperation) =>
                op.fileId.all fun f => (c₄.state.db.files.get f).isSome) = true := by decide +kernel
  have hlook : ∀ {db : Db} {p : FinalizationOperation → Bool}, (db.finalizationOperations.get 0).any p = true →
      ∃ op, db.finalizationOperations.get 0 = some op ∧ p op = true := fun h => (Option.any_eq_true ..).mp h
  obtain ⟨c₁, hc₁, hrun⟩ := (Option.any_eq_true ..).mp hrun
  obtain ⟨h₁, hrun⟩ := Bool.and_eq_true_iff.mp hrun
  obtain ⟨c₂, hc₂, hrun⟩ := (Option.any_eq_true ..).mp hrun
  obtain ⟨h₂, hrun⟩ := Bool.and_eq_true_iff.mp hrun
  obtain ⟨c₃, hc₃, hrun⟩ := (Option.any_eq_true ..).mp hrun
  obtain ⟨h₃, hrun⟩ := Bool.and_eq_true_iff.mp hrun
  obtain ⟨c₄, hc₄, h₄⟩ := (Option.any_eq_true ..).mp hrun
  obtain ⟨hverified, htemporary⟩ := Bool.and_eq_true_iff.mp h₁
  obtain ⟨hpublished, hpasses⟩ := Bool.and_eq_true_iff.mp h₂
  obtain ⟨h₃, hfile⟩ := Bool.and_eq_true_iff.mp h₃
  obtain ⟨hcommitted, hplaced⟩ := Bool.and_eq_true_iff.mp h₃
  obtain ⟨h₄, hkept⟩ := Bool.and_eq_true_iff.mp h₄
  obtain ⟨hcleaned, hrenamed⟩ := Bool.and_eq_true_iff.mp h₄
  have hr₁ : ServerReachable mimeSettings ssdSettings ChoosesNames oneUser c₁ :=
    Reach.start.nexts choosesNames_server hc₁
  have hl₂ := Later.nexts hr₁ choosesNames_server .refl hc₂
  have hr₂ := Reach.later hr₁ hl₂
  have hm := meets_of_passes hpasses (choosesNames_server c₂ hr₂)
  have hr₃ := Reach.step _ hr₂ hm hc₃
  exact ⟨c₁, c₂, c₃, c₄, {
    reached := hr₁
    verified := (hlook hverified).imp fun op h => ⟨h.1, of_decide_eq_true h.2⟩
    temporary := Option.isSome_iff_exists.mp htemporary
    publishes := hl₂
    published := (hlook hpublished).imp fun op h => ⟨h.1, of_decide_eq_true h.2⟩
    chooses := hm
    commits := hc₃
    committed := (hlook hcommitted).imp fun op h => ⟨h.1, of_decide_eq_true h.2⟩
    file := ((Option.any_eq_true ..).mp hplaced).imp fun r h => ⟨h.1, of_decide_eq_true h.2⟩
    hasFile := Db.hasFile_of_all hfile
    cleans := Later.nexts hr₃ choosesNames_server .refl hc₄
    cleaned := (hlook hcleaned).imp fun op h => ⟨h.1, of_decide_eq_true h.2⟩
    renamed := Option.isNone_iff_eq_none.mp hrenamed
    kept := Db.hasFile_of_all hkept }⟩

theorem OneByte.reached_published {c₁ c₂ c₃ c₄ : Config World Instr Err Unit} (h : OneByte c₁ c₂ c₃ c₄) :
    ServerReachable mimeSettings ssdSettings ChoosesNames oneUser c₂ := h.reached.later h.publishes

theorem OneByte.later_cleaned {c₁ c₂ c₃ c₄ : Config World Instr Err Unit} (h : OneByte c₁ c₂ c₃ c₄) :
    Later (server mimeSettings ssdSettings) ChoosesNames c₁ c₄ :=
  (h.publishes.step _ h.chooses h.commits).trans h.cleans

theorem ServerReachable.any {users : Table User} {c : Config World Instr Err Unit}
    (h : ServerReachable s ssd cond users c) : ServerReachable s ssd anyStep users c :=
  Reach.mono (fun _ _ _ _ => trivial) h

/-! ## The journal and the objects -/

/-- **The journal is in order in every reachable state.** -/
theorem ServerReachable.journalSafe (h : ServerReachable s ssd cond users c) : JournalSafe c.state.db :=
  h.invariant (.empty users) fun _ _ _ hc hj => hj.commit hc.toCommitting

/-- **An operation only moves on**: its state goes forward, what it was begun with stays, and so do the identity
of its target, its MIME type and its file once they are recorded. A cleaned operation is final. -/
theorem journal_moves_on (h : ServerReachable s ssd cond users c) (hl : Later (server s ssd) cond c c')
    (hop : c.state.db.finalizationOperations.get id = some op) :
    ∃ op', c'.state.db.finalizationOperations.get id = some op' ∧ op.Forward op' := by
  refine h.monotone (R := fun db db' => ∀ op, db.finalizationOperations.get id = some op →
    ∃ op', db'.finalizationOperations.get id = some op' ∧ op.Forward op') (fun db op hop => ⟨op, hop, .refl op⟩)
    (fun h₁ h₂ op hop => ?_) (fun t c tx hr hc op hop => ?_) hl op hop
  · obtain ⟨op₁, hop₁, hf₁⟩ := h₁ op hop
    obtain ⟨op₂, hop₂, hf₂⟩ := h₂ op₁ hop₁
    exact ⟨op₂, hop₂, hf₁.trans hf₂⟩
  · exact hc.toCommitting.forward (ServerReachable.journalSafe hr) hop

/-- From the verification to the end of the cleanup. -/
theorem journal_moves_on_cleaned : ∃ (c c' : Config World Instr Err Unit) (op op' : FinalizationOperation),
    ServerReachable mimeSettings ssdSettings anyStep oneUser c ∧ c.state.db.finalizationOperations.get 0 = some op ∧ op.state = .verified ∧
      c'.state.db.finalizationOperations.get 0 = some op' ∧ op'.cleanupState = .cleaned ∧ op.Forward op' := by
  obtain ⟨c₁, c₂, c₃, c₄, h⟩ := exists_oneByte
  obtain ⟨op, hop, hs⟩ := h.verified
  obtain ⟨op₁, hop₁, hs₁⟩ := h.cleaned
  obtain ⟨op', hop', hf⟩ := journal_moves_on h.reached h.later_cleaned hop
  obtain rfl : op₁ = op' := Option.some.inj (hop₁.symm.trans hop')
  exact ⟨c₁, c₄, op, op₁, h.reached.any, hop, hs, hop₁, hs₁, hf⟩

/-- **The chunks of an upload are kept until its file is committed**: its session is active with the chunk rows
that the operation was begun with, which are all of the layout, and there is a file for each of them with the
size and the digest. -/
theorem chunks_kept_until_commit (h : ServerReachable s ssd cond users c)
    (hop : c.state.db.finalizationOperations.get id = some op) (hs : op.state ≠ .committed) :
    ∃ q, c.state.db.uploadSessions.get op.sessionId = some q ∧ q.active = true ∧ q.chunks = op.chunks ∧
      op.Manifest ∧ ∀ part ∈ op.chunks, c.state.disk.ssd.Stored op.sessionId part := by
  have hj := h.journalSafe
  obtain ⟨q, hq⟩ := hj.reserved id op hop (hj.pending hop hs)
  have hactive := hq.active hs
  refine ⟨q, hq.row, hactive, hq.takes.chunks, hj.manifest id op hop, fun part hpart => ?_⟩
  exact h.inv.disk.backed.stored _ q hq.row ⟨hq.takes.workspace, hactive⟩ part (hq.takes.chunks ▸ hpart)

/-- When the object has its name. -/
theorem chunks_kept_published : ∃ c op, ServerReachable mimeSettings ssdSettings anyStep oneUser c ∧
    c.state.db.finalizationOperations.get 0 = some op ∧ op.state = .published ∧
      ∀ part ∈ op.chunks, c.state.disk.ssd.Stored op.sessionId part := by
  obtain ⟨c₁, c₂, c₃, c₄, h⟩ := exists_oneByte
  obtain ⟨op, hop, hs⟩ := h.published
  obtain ⟨-, -, -, -, -, hstored⟩ := chunks_kept_until_commit h.reached_published hop (by rw [hs]; decide)
  exact ⟨c₂, op, h.reached_published.any, hop, hs, hstored⟩

theorem ServerReachable.journalSound (h : ServerReachable s ssd cond users c) : JournalSound c.state.db :=
  h.invariant (P := JournalSound) (.empty users) fun _ _ _ hc hj => hj.commit hc.toCommitting

theorem ServerReachable.objectsOwned (h : ServerReachable s ssd cond users c) : ObjectsOwned c.state := by
  have hboth : JournalSafe c.state.db ∧ ObjectsOwned c.state := by
    refine h.world_invariant (P := fun w => JournalSafe w.db ∧ ObjectsOwned w) ⟨.empty users, ?_⟩
      fun w w' _ hw hp => ?_
    · intro i r u n hr
      cases hr
    · obtain ⟨hj, ho⟩ := hp
      cases hw with
      | calm hcalm =>
        unfold ObjectsOwned
        rw [hcalm.db, hcalm.seen]
        exact ⟨hj, ho⟩
      | disk => exact ⟨hj, ho⟩
      | commit hc => exact ⟨hj.commit hc.toCommitting, ho.commit hj hc.toCommitting⟩
  exact hboth.2

/-- A file that an operation has verified: the temporary file, or the object. -/
def World.Verified (w : World) (id : ℕ) (a : Artifact) : Prop :=
  (∃ op, w.db.finalizationOperations.get id = some op ∧ op.state ≠ .assembling) ∧
    (w.disk.ssd.temporaries id = some a ∨ w.disk.ssd.finals id = some a)

/-- A step on the legacy files leaves the SSD as it is. -/
theorem World.onDisk_ssd {w : World} {t : ℕ} {dop : DiskOp} (h : ∀ sop, dop ≠ .ssd sop) :
    (w.onDisk dop t).disk.ssd = w.disk.ssd := by
  change (dop.apply t w.disk).ssd = w.disk.ssd
  cases dop with
  | ssd sop => exact absurd rfl (h sop)
  | writeChunk | lockSsd | unlockSsd =>
    simp only [DiskOp.apply]
    split_ifs <;> rfl
  | link =>
    simp only [DiskOp.apply]
    split <;> rfl
  | _ => rfl

/-- No step of the server changes a verified file. -/
theorem Change.verified {w w' : World} {a : Artifact} (hw : Change cond w w') (hj : JournalSafe w.db)
    (hv : w.Verified id a) : w'.Verified id a := by
  obtain ⟨⟨op, hop, hs⟩, ha⟩ := hv
  cases hw with
  | calm hcalm =>
    obtain ⟨f, hf⟩ := hcalm.disk
    refine ⟨⟨op, hcalm.db ▸ hop, hs⟩, ?_⟩
    rw [hf]
    exact ha
  | commit hc =>
    obtain ⟨op', hop', hforward⟩ := hc.toCommitting.forward hj hop
    refine ⟨⟨op', hop', fun hs' => hs ?_⟩, ha⟩
    have hrank := hforward.state
    rw [hs'] at hrank
    revert hrank
    cases op.state <;> decide
  | @disk t dop hp _ =>
    refine ⟨⟨op, hop, hs⟩, ?_⟩
    cases dop with
    | ssd sop =>
      have hother : ∀ {o : ℕ}, (∃ op, w.db.finalizationOperations.get o = some op ∧ op.state = .assembling) →
          id ≠ o := by
        intro o ho heq
        obtain ⟨op', hop', hs'⟩ := ho
        subst heq
        cases hop.symm.trans hop'
        exact hs hs'
      have hpre : sop.Pre w.db w.disk.ssd := hp.2
      cases sop with
      | createTemporary o =>
        obtain ⟨op', hop', hs', -⟩ := hpre
        have hne := hother ⟨op', hop', hs'⟩
        simpa [World.onDisk, DiskOp.apply, SsdOp.apply, setAt_ne _ _ hne] using ha
      | truncateTemporary o | appendTemporary o data =>
        have hne := hother hpre
        simpa [World.onDisk, DiskOp.apply, SsdOp.apply, setAt_ne _ _ hne] using ha
      | publish o =>
        obtain ⟨-, -, -, hnone⟩ := hpre
        by_cases hne : id = o
        · subst hne
          rcases ha with ht | hf
          · simp [World.onDisk, DiskOp.apply, SsdOp.apply, ht]
          · rw [hnone] at hf
            cases hf
        · simpa [World.onDisk, DiskOp.apply, SsdOp.apply, setAt_ne _ _ hne] using ha
      | _ => exact ha
    | _ =>
      rw [World.onDisk_ssd fun sop h => by cases h]
      exact ha

/-- What a step from `w` to `w'` does that commits the file `r` of the operation `op`, which is then `op'`: the
row comes in, with the name, the parent, the size, the digest and the object of the operation, the owner is charged
and has had room for that, and the session is completed. The object is there. -/
structure Finalizes (w w' : World) (id : ℕ) (op op' : FinalizationOperation) (r : File) : Prop where
  files : w'.db.files = w.db.files.insert r
  folders : w'.db.folders = w.db.folders
  fileId : op'.fileId = some w.db.files.bound
  described : op.describes r = true
  owner : r.userId = op.userId
  upload : r.uploadId = some op.sessionId
  mimeType : r.mimeType = some op.mimeType
  users : w'.db.users = (w.db.charge op.userId op.totalSize).users
  room : ∃ u, w.db.users.get op.userId = some u ∧ u.storageUsed + op.totalSize ≤ u.storageQuota
  session : ∃ q, w.db.uploadSessions.get op.sessionId = some q ∧ q.active = true ∧
    w'.db.uploadSessions.get op.sessionId = some { q with status := .completed }
  object : ∃ a, w'.disk.ssd.finals id = some a ∧ op.Made a

section Commit

variable {t : ℕ} {w : World} {tx : Tx} {op' : FinalizationOperation}

/-- A commit that commits an operation. -/
theorem Committing.finalizes (hc : Committing t w tx) (hj : JournalSafe w.db)
    (hop : w.db.finalizationOperations.get id = some op)
    (hop' : (tx.apply w.db).finalizationOperations.get id = some op') (hs : op.state ≠ .committed)
    (hs' : op'.state = .committed) : ∃ r, Finalizes w ((w.write tx t).release t) id op op' r := by
  have ht : w.db.triggers (tx.apply w.db) = true := (Bool.and_eq_true_iff.mp hc.allowed).2
  cases hc.operation_change hop' with
  | same h =>
    cases hop.symm.trans h
    exact absurd hs' hs
  | begun hn =>
    rw [hop] at hn
    cases hn
  | target ho _ hset | mimeType ho hset =>
    subst hset
    cases ho.state.symm.trans hs'
  | moved _ hne _ hset =>
    subst hset
    exact absurd hs' hne
  | cleaned ho =>
    cases hop.symm.trans ho.operation.row
    exact absurd ho.operation.state hs
  | @committed s file choice op₁ q ho hset =>
    obtain rfl : op = op₁ := Option.some.inj (hop.symm.trans ho.operation.row)
    subst hset
    obtain rfl := ho.session
    have hpending := hj.pending hop hs
    obtain ⟨-, f, r, hf, hr, howner, hupload, hdescribed, hmime⟩ :=
      Db.commitCheck_committed (Db.triggers_operation ht).2 hop' (fun h => by
        rw [hop] at h
        exact hs (congrArg FinalizationOperation.state (Option.some.inj h))) rfl hpending
    cases hf
    -- The row is the one that comes in.
    obtain rfl : file = r := by
      have hinserted : (w.db.files.insert file).get w.db.files.bound = some r := hr
      rw [Table.get_insert, if_pos rfl] at hinserted
      exact Option.some.inj hinserted
    obtain ⟨u, hu, hroom⟩ := ho.added.charged.fits (by
      rw [ho.size]
      exact (hj.manifest id op hop).laidOut.total_pos.ne')
    have ha := (hc.inv.disk.backed.objects id op hop)
    unfold FinalizationOperation.Objects at ha
    rw [ho.operation.state] at ha
    refine ⟨file, rfl, rfl, rfl, hdescribed, howner, hupload, hmime, ?_, ⟨u, ho.owner ▸ hu, ho.size ▸ hroom⟩,
      ⟨q, ho.row, ho.active, ?_⟩, ha.2⟩
    · change (Db.charge _ file.userId file.size).users = _
      rw [ho.owner, ho.size]
      rfl
    · change (Tx.apply w.db _).uploadSessions.get op.sessionId = _
      simp [Tx.apply, JournalTx.apply, Db.updateSession, Db.updateOperation, Db.charge, ho.row]

end Commit

/-- **A file is committed in one step, which does exactly that**: when an operation becomes committed, its file comes
in as it was requested, the owner is charged its size once and had room for it, the session is completed, and the
object is there in full. -/
theorem commit_exact {op' : FinalizationOperation} {m : Move Request Event}
    (h : ServerReachable s ssd cond users c) (hm : Meets cond c m) (hn : c.next (server s ssd) m = some c')
    (hop : c.state.db.finalizationOperations.get id = some op)
    (hop' : c'.state.db.finalizationOperations.get id = some op') (hs : op.state ≠ .committed)
    (hs' : op'.state = .committed) : ∃ r, Finalizes c.state c'.state id op op' r := by
  have he := Effect.of_server (Reach.effect (verified_server s ssd) inv_initial h hm hn)
  obtain ⟨hdb, -⟩ | ⟨t, tx, hc, hw⟩ := Effect.db h.inv he
  · rw [hdb] at hop'
    cases hop.symm.trans hop'
    exact absurd hs' hs
  · rw [hw] at hop' ⊢
    exact hc.toCommitting.finalizes h.journalSafe hop hop' hs hs'

/-- The commit of one byte. -/
theorem commit_exact_byte : ∃ (c c' : Config World Instr Err Unit) (op op' : FinalizationOperation) (r : File),
    c.next (server mimeSettings ssdSettings) (.run 3 0) = some c' ∧ Finalizes c.state c'.state 0 op op' r := by
  obtain ⟨c₁, c₂, c₃, c₄, h⟩ := exists_oneByte
  obtain ⟨op, hop, hs⟩ := h.published
  obtain ⟨op', hop', hs'⟩ := h.committed
  obtain ⟨r, hf⟩ := commit_exact h.reached_published h.chooses h.commits hop hop' (by rw [hs]; decide) hs'
  exact ⟨c₂, c₃, op, op', r, h.commits, hf⟩

/-! ## Names -/

/-- **Live names are unique on the server with the SSD**, in runs whose statements choose names as they should. -/
theorem ServerReachable.namesUnique (h : ServerReachable s ssd ChoosesNames users c) :
    c.state.db.NamesUnique := by
  have hboth := Reach.invariant (verified_server s ssd) inv_initial (P := fun w => w.db.NamesUnique ∧ Reserves w)
    ⟨fun k e e' n hn => (by cases e <;> cases hn), fun t c hw => (by cases hw)⟩
    (fun w w' hi hp he => NamesUnique.effect hi hp.1 hp.2 (Effect.of_server he)) h
  exact hboth.1

end

end HomeCloud
