import HomeCloud.Uploads.Finalizer
import HomeCloud.Uploads.SsdVerified

/-!
# Finalizations fulfil the contract

From the time the SSD is locked nobody else changes the operation, its files or the chunks, so a finalization
knows what it has written.

* `wp_writeAll`, **`wp_assemble`**: the temporary file is what has been copied.
* **`finalize_safe`**: a first attempt.
* `wp_completeAssembly`, `wp_completePublication`, `wp_cleanup`: the parts of a recovery.
* **`recover_safe`**, **`completeUpload_safe`**, `onModuleInit_safe`.
-/

namespace HomeCloud

open Concurrent Sha256

section

variable {t : ℕ} {w : World} {id : ℕ} {op op' : FinalizationOperation} {temporary final : Option Artifact}
  {host : SsdHost} {detect : Bytes → JsString}

/-- A step on the files of the operation, which is known. -/
theorem Journaled.onDisk {sop : SsdOp} (h : Journaled t w id op temporary final)
    {temporary' final' : Option Artifact} (ht : (sop.apply w.disk.issued w.disk.ssd).temporaries id = temporary')
    (hf : (sop.apply w.disk.issued w.disk.ssd).finals id = final') :
    Journaled t (w.onDisk (.ssd sop) t) id op temporary' final' :=
  ⟨h.held, h.row, ht, hf⟩

theorem wp_when {b : Bool} {p : Op Unit} {Q : Unit → World → Prop} (hp : b = true → After t p Q w)
    (hn : b = false → Q () w) : After t (when b p) Q w := by
  unfold when
  split_ifs with hb
  · exact hp hb
  · exact hn (by simpa using hb)

/-! ## Files of an operation -/

namespace FinalizationFilesystem

theorem wp_acquire {userId uploadId : ℕ} {Q : FinalizationBinding → World → Prop}
    (h : ∀ w' binding, Inv w' → w'.disk.flock = some t → Q binding w') :
    After t (acquire host userId uploadId id) Q w := by
  unfold acquire
  rw [After, wp_bind]
  refine wp_assert fun _ => ?_
  rw [wp_bind]
  refine wp_mayFail ?_
  rw [wp_bind]
  intro w₂ _ hi₂ w₃ he
  have hdone : w₂.onDisk .lockSsd t = w₃ := by
    unfold Instr.exec at he
    split_ifs at he <;> exact Option.some.inj he
  subst hdone
  refine ⟨fun _ => trivial, (wp_bind ..).mpr (wp_assert fun hfree => ?_)⟩
  have hnone : w₂.disk.flock = none := Option.isNone_iff_eq_none.mp hfree
  have hl : (w₂.onDisk .lockSsd t).disk.flock = some t := by
    simp only [World.onDisk, DiskOp.apply, if_pos hnone]
  rw [wp_bind]
  refine wp_look fun w₄ h₄ hi₄ => ?_
  rw [wp_bind]
  refine wp_assert fun _ => ?_
  rw [wp_bind]
  refine wp_assert fun _ => ?_
  rw [wp_bind]
  exact wp_mayFail (h w₄ _ hi₄ (h₄.persists.ssd hl).1)

/-- **An operation that ends by giving up the lock.** -/
theorem closing_safe {α : Type} {body : Op α} (h : Safe contract t body w) :
    Safe contract t (closing body) w := by
  unfold closing
  rw [Safe, wp_bind, wp_tryCatch]
  refine wp_mono (fun a w₂ _ => ?_) (fun e w₂ _ => ?_) h
  all_goals
    rw [wp_bind]
    exact SsdUploads.wp_release fun _ => trivial

theorem wp_openChunk {uploadId index : ℕ} {Q : Option Artifact → World → Prop}
    (h : ∀ w' file, Attached t w w' → Inv w' → Q file w') : After t (openChunk uploadId index) Q w := by
  unfold openChunk
  rw [After, wp_bind]
  exact wp_mayFail (wp_look fun w₁ h₁ hi₁ => h w₁ _ h₁ hi₁)

/-- **A new temporary file is empty.** -/
theorem wp_createTemporary (hj : Journaled t w id op temporary final) (hs : op.state = .assembling)
    (hn : op.targetIdentity = none) :
    After t (createTemporary id) (fun a w' => Journaled t w' id op (some a) final ∧ a.data = []) w := by
  unfold createTemporary
  rw [After, wp_bind]
  refine wp_mayFail ?_
  rw [wp_bind]
  refine wp_look fun w₁ h₁ _ => ?_
  rw [wp_bind]
  refine wp_assert fun _ => ?_
  rw [wp_bind]
  refine wp_onFiles fun w₂ h₂ _ => ?_
  have hj₂ := (hj.attached h₁).attached h₂
  refine ⟨⟨hj₂.held, op, hj₂.row, hs, hn⟩, ?_, rfl⟩
  exact hj₂.onDisk (by simp [SsdOp.apply]) (by simpa only [SsdOp.apply] using hj₂.final)

/-- **A file that is found is the one known**, with the recorded identity. -/
theorem wp_inspectTarget {isFinal : Bool} {Q : Option Artifact → World → Prop}
    (hj : Journaled t w id op temporary final)
    (h : ∀ w', Attached t w w' → Journaled t w' id op temporary final →
      Q (if isFinal then final else temporary) w') :
    After t (inspectTarget op id isFinal) Q w := by
  unfold inspectTarget
  rw [After, wp_bind]
  refine wp_mayFail ?_
  rw [wp_bind]
  refine wp_look fun w₁ h₁ _ => ?_
  rw [wp_bind]
  refine wp_assert fun _ => ?_
  have hj₁ := hj.attached h₁
  rw [hj₁.temporary, hj₁.final]
  exact h w₁ h₁ hj₁

theorem wp_resetTemporary {a : Artifact} (hj : Journaled t w id op (some a) final) (hs : op.state = .assembling) :
    After t (resetTemporary id a) (fun a' w' => Journaled t w' id op (some a') final ∧ a'.data = []) w := by
  unfold resetTemporary
  rw [After, wp_bind]
  refine wp_mayFail ?_
  rw [wp_bind]
  refine wp_onFiles fun w₁ h₁ _ => ?_
  have hj₁ := hj.attached h₁
  refine ⟨⟨hj₁.held, op, hj₁.row, hs⟩, ?_, rfl⟩
  exact hj₁.onDisk (by simp [SsdOp.apply, hj₁.temporary]) (by simpa only [SsdOp.apply] using hj₁.final)

theorem wp_syncTarget {Q : Unit → World → Prop} (h : Q () w) : After t syncTarget Q w := by
  unfold syncTarget
  rw [After, wp_bind]
  exact wp_mayFail (wp_mayFail h)

/-- **The rename makes the temporary file the object.** -/
theorem wp_rename (hj : Journaled t w id op temporary final) (hs : op.state = .publishing) :
    After t (FinalizationFilesystem.publish id) (fun _ w' => Journaled t w' id op none temporary) w := by
  unfold FinalizationFilesystem.publish
  rw [After, wp_bind]
  refine wp_mayFail ?_
  rw [wp_bind]
  refine wp_look fun w₁ h₁ _ => ?_
  rw [wp_bind]
  refine wp_assert fun hnone => ?_
  have hj₁ := hj.attached h₁
  rw [wp_bind]
  refine wp_onFiles fun w₂ h₂ _ => ?_
  have hj₂ := hj₁.attached h₂
  have hfinal : w₂.disk.ssd.finals id = none := by
    rw [(h₂.persists.ssd hj₁.held).2]
    exact Option.isNone_iff_eq_none.mp hnone
  refine ⟨⟨hj₂.held, op, hj₂.row, hs, hfinal⟩, wp_mayFail ?_⟩
  exact hj₂.onDisk (by simp [SsdOp.apply]) (by simp [SsdOp.apply, hj₂.temporary])

/-- A chunk is removed when none can be uploaded any more. -/
theorem wp_removeChunk {uploadId : ℕ} {part : UploadChunk} {observed : Artifact}
    (hl : w.disk.flock = some t) (hc : w.Closed uploadId) :
    After t (removeChunk uploadId part observed) (fun _ w' =>
      w'.disk.flock = some t ∧ w'.Closed uploadId) w := by
  unfold removeChunk
  rw [After, wp_bind]
  refine wp_openChunk fun w₁ file h₁ _ => ?_
  have hl₁ := (h₁.persists.ssd hl).1
  have hc₁ := hc.persists h₁.persists
  cases file with
  | none => exact ⟨hl₁, hc₁⟩
  | some a =>
    dsimp only
    rw [wp_bind]
    refine wp_assert fun _ => ?_
    rw [wp_bind]
    refine wp_onFiles fun w₂ h₂ _ => ?_
    have hl₂ := (h₂.persists.ssd hl₁).1
    have hc₂ := hc₁.persists h₂.persists
    exact ⟨⟨hl₂, hc₂.2⟩, wp_mayFail ⟨hl₂, hc₂⟩⟩

theorem wp_reopen {Q : Unit → World → Prop} (h : ∀ w', w'.disk.flock = some t → Q () w') :
    After t (reopen host op id) Q w := by
  have hinspect : ∀ {w' : World} {b : Bool} {R : Option Artifact → World → Prop}, w'.disk.flock = some t →
      (∀ w'' file, w''.disk.flock = some t → R file w'') → After t (inspectTarget op id b) R w' := by
    intro w' b R hl hR
    unfold inspectTarget
    rw [After, wp_bind]
    refine wp_mayFail ?_
    rw [wp_bind]
    refine wp_look fun w₁ h₁ _ => ?_
    rw [wp_bind]
    exact wp_assert fun _ => hR w₁ _ (h₁.persists.ssd hl).1
  unfold reopen
  rw [After, wp_bind]
  refine wp_acquire fun w₁ binding _ hl₁ => ?_
  rw [wp_bind]
  refine wp_assert fun _ => ?_
  rw [wp_bind]
  refine hinspect hl₁ fun w₂ _ hl₂ => ?_
  rw [wp_bind]
  exact hinspect hl₂ fun w₃ _ hl₃ => wp_assert fun _ => h w₃ hl₃

end FinalizationFilesystem

open FinalizationFilesystem

/-! ## Copying and verifying -/

namespace SsdFinalization

/-- **What every visit keeps holds after all of them.** -/
theorem wp_visitManifest {α : Type} {name : String} {visit : α → UploadChunk → Op α} {I : α → World → Prop}
    (hv : ∀ a part w, I a w → After t (visit a part) I w) :
    ∀ (parts : List UploadChunk) (index : ℕ) (a : α) (w : World), I a w →
      After t (visitManifest op name visit index a parts) I w
  | [], index, a, w, ha => by
    rw [visitManifest, After, wp_bind]
    exact wp_assert fun _ => ha
  | part :: parts, index, a, w, ha => by
    rw [visitManifest, After, wp_bind]
    refine wp_assert fun _ => ?_
    rw [wp_bind]
    exact wp_mono (fun a' w' ha' => wp_visitManifest hv parts (index + 1) a' w' ha') (fun _ _ _ => trivial)
      (hv a part w ha)

theorem wp_chunks {Q : List UploadChunk → World → Prop} (h : ∀ w' parts, Attached t w w' → Q parts w') :
    After t (chunks id) Q w :=
  wp_query_attached fun w₁ h₁ _ _ => h w₁ _ h₁

/-- **The bytes that are written come after those that are there.** -/
theorem wp_writeAll {inode : ℕ} (hs : op.state = .assembling) :
    ∀ (n : ℕ) (data old : Bytes) (w : World), data.length ≤ n →
      Journaled t w id op (some ⟨inode, old⟩) final →
      After t (writeAll id n data) (fun _ w' => Journaled t w' id op (some ⟨inode, old ++ data⟩) final) w
  | 0, data, old, w, hn, hj => by
    obtain rfl := List.length_eq_zero_iff.mp (Nat.le_zero.mp hn)
    rw [List.append_nil]
    exact hj
  | n + 1, [], old, w, _, hj => by
    rw [List.append_nil]
    exact hj
  | n + 1, c :: data, old, w, hn, hj => by
    intro k
    rw [wp_bind]
    refine wp_onFiles fun w₁ h₁ _ => ?_
    have hj₁ := hj.attached h₁
    refine ⟨⟨hj₁.held, op, hj₁.row, hs⟩, ?_⟩
    have hwritten : Journaled t (w₁.onDisk (.ssd (.appendTemporary id ((c :: data).take (k + 1)))) t) id op
        (some ⟨inode, old ++ (c :: data).take (k + 1)⟩) final :=
      hj₁.onDisk (by simp [SsdOp.apply, hj₁.temporary]) hj₁.final
    have hrest := wp_writeAll hs n ((c :: data).drop (k + 1)) _ _ (by simp at hn ⊢; omega) hwritten
    rwa [List.append_assoc, List.take_append_drop] at hrest

theorem wp_copyChunk {inode : ℕ} {copied : Bytes} {part : UploadChunk} (hs : op'.state = .assembling)
    (hj : Journaled t w id op' (some ⟨inode, copied⟩) final) :
    After t (copyChunk op id copied part) (fun copied' w' =>
      Journaled t w' id op' (some ⟨inode, copied'⟩) final) w := by
  unfold copyChunk
  rw [After, wp_bind]
  refine wp_openChunk fun w₁ file h₁ _ => ?_
  rw [wp_bind]
  refine wp_require fun a _ => ?_
  rw [wp_bind]
  refine wp_assert fun _ => ?_
  rw [wp_bind]
  refine wp_assert fun _ => ?_
  rw [wp_bind]
  refine wp_mono (fun _ w₂ hj₂ => ?_) (fun _ _ _ => trivial)
    (wp_writeAll hs a.data.length a.data copied w₁ le_rfl (hj.attached h₁))
  rw [wp_bind]
  exact wp_assert fun _ => hj₂

/-- **The temporary file is the upload when all chunks have been copied to it.** -/
theorem wp_assemble {inode : ℕ} (hj : Journaled t w id op' (some ⟨inode, []⟩) final)
    (hs : op'.state = .assembling) :
    After t (assemble op id) (fun _ w' => ∃ data, Journaled t w' id op' (some ⟨inode, data⟩) final ∧
      data.length = op.totalSize ∧ sha256 data = op.expectedSha256) w := by
  unfold assemble
  rw [After, wp_bind]
  refine wp_chunks fun w₁ parts h₁ => ?_
  rw [wp_bind]
  refine wp_mono (fun copied w₂ hj₂ => ?_) (fun _ _ _ => trivial)
    (wp_visitManifest (fun copied part w' hj' => wp_copyChunk hs hj') parts 0 [] w₁ (hj.attached h₁))
  rw [wp_bind]
  refine wp_look fun w₃ h₃ _ => ?_
  rw [wp_bind]
  refine wp_assert fun hwhole => wp_mayFail ?_
  simp only [Bool.and_eq_true, decide_eq_true_eq] at hwhole
  exact ⟨copied, Journaled.attached hj₂ h₃, hwhole.1.1, hwhole.2⟩

theorem wp_verify {a : Artifact} {size digest : ℕ} {Q : Unit → World → Prop}
    (h : a.data.length = size → sha256 a.data = digest → Q () w) : After t (verify a size digest) Q w := by
  unfold verify
  rw [After, wp_bind]
  refine wp_assert fun hsize => ?_
  rw [wp_bind]
  refine wp_mayFail (wp_assert fun hdigest => h ?_ ?_)
  · exact of_decide_eq_true hsize
  · exact of_decide_eq_true hdigest

/-- **The MIME type is no part of what the files are.** -/
theorem wp_checkpointSsdMime (hj : Journaled t w id op temporary final) :
    After t (checkpointSsdMime detect id) (fun _ w' => op.state = .verified ∧
      ∃ mimeType, Journaled t w' id { op with mimeType := mimeType, mimeTypeCheckpointed := true }
        temporary final) w := by
  unfold checkpointSsdMime
  rw [After, wp_bind, wp_tryCatch]
  -- Also when the type cannot be detected nothing has changed.
  have hdetect : wp contract t (do
      let file ← onFiles .look fun w => w.disk.ssd.temporaries id
      let a ← require .filesystem file
      return detect a.data) (fun _ w' => Journaled t w' id op temporary final)
      (fun _ w' => Journaled t w' id op temporary final) w := by
    have hsafe : Safe contract t (do
        let file ← onFiles .look fun w => w.disk.ssd.temporaries id
        let a ← require .filesystem file
        return detect a.data) w := by
      rw [Safe, wp_bind]
      refine wp_look fun w₁ _ _ => ?_
      rw [wp_bind]
      exact wp_require fun _ _ => trivial
    refine wp_mono (fun _ _ h => h.2) (fun _ _ h => h.2) (wp_keep (K := (· = .disk .look))
      (H := (Journaled t · id op temporary final))
      (.bind (only_onFiles rfl) fun _ => .bind only_require fun _ => trivial)
      (fun _ _ ha _ h => h.attached ha) (fun i w₁ w₂ hi _ _ he h => ?_) hsafe hj)
    subst hi
    have hdone : w₁.onDisk .look t = w₂ := by
      unfold Instr.exec at he
      split_ifs at he <;> exact Option.some.inj he
    rw [World.onDisk_look] at hdone
    exact hdone ▸ h
  refine wp_mono (fun mime w₁ hj₁ => ?_) (fun e w₁ hj₁ => ?_) hdetect
  all_goals exact FinalizationStore.wp_recordMimeType hj₁

end SsdFinalization

open SsdFinalization

/-! ## The first attempt -/

theorem FinalizationOperation.Made.of_assembled {inode : ℕ} {a : Artifact} (ha : a.inode = inode) {data : Bytes}
    (hsize : data.length = op.totalSize) (hdigest : Sha256.sha256 data = op.expectedSha256) :
    { op with targetIdentity := some (op.identify a) }.Made ⟨inode, data⟩ where
  identity := by rw [← ha]; rfl
  size := hsize
  sha256 := hdigest

/-- **A first attempt leaves nothing behind that its operation does not say.** -/
theorem SsdCrossFsFinalizer.finalize_safe {userId uploadId expectedSha256 : ℕ} :
    Safe contract t (finalize host detect userId uploadId expectedSha256) w := by
  unfold finalize
  rw [Safe, wp_bind]
  refine wp_assert fun _ => ?_
  rw [wp_bind]
  refine wp_mayFail (closing_safe ?_)
  rw [Safe, wp_bind]
  intro id
  refine (wp_bind ..).mpr (wp_acquire fun w₁ binding _ hl₁ => ?_)
  rw [wp_bind]
  refine wp_mono (fun op w₂ h₂ => ?_) (fun _ _ _ => trivial) (FinalizationStore.wp_begin hl₁)
  obtain ⟨hj₂, hassembling, hnone⟩ := h₂
  unfold validateLayout
  rw [wp_bind]
  refine wp_assert fun _ => ?_
  rw [wp_bind]
  refine wp_assert fun _ => ?_
  rw [wp_bind]
  refine wp_mayFail ?_
  rw [wp_bind]
  refine wp_mono (fun writer w₃ h₃ => ?_) (fun _ _ _ => trivial) (wp_createTemporary hj₂ hassembling hnone)
  obtain ⟨hj₃, hempty⟩ := h₃
  rw [wp_bind]
  refine wp_mono (fun _ w₄ h₄ => ?_) (fun _ _ _ => trivial) (FinalizationStore.wp_recordTarget hj₃ rfl)
  have hwriter : writer = ⟨writer.inode, []⟩ := by rw [← hempty]
  have hj₄ := h₄.2
  rw [hwriter] at hj₄
  rw [wp_bind]
  refine wp_mono (fun _ w₅ h₅ => ?_) (fun _ _ _ => trivial) (wp_assemble hj₄ hassembling)
  obtain ⟨data, hj₅, hsize, hdigest⟩ := h₅
  have hmade := FinalizationOperation.Made.of_assembled (a := writer) rfl hsize hdigest
  rw [wp_bind]
  refine wp_mono (fun _ w₆ h₆ => ?_) (fun _ _ _ => trivial)
    (FinalizationStore.wp_transition hj₅ ⟨rfl, _, rfl, hmade.of_same ⟨rfl, rfl, rfl, rfl⟩⟩)
  rw [wp_bind]
  refine wp_mayFail ?_
  rw [wp_bind]
  refine wp_mono (fun _ w₇ h₇ => ?_) (fun _ _ _ => trivial) (wp_checkpointSsdMime h₆.2)
  obtain ⟨-, mimeType, hj₇⟩ := h₇
  rw [wp_bind]
  refine wp_mayFail ?_
  rw [wp_bind]
  refine wp_mono (fun _ w₈ h₈ => ?_) (fun _ _ _ => trivial)
    (FinalizationStore.wp_transition hj₇ (.inl ⟨rfl, _, rfl, hmade.of_same ⟨rfl, rfl, rfl, rfl⟩⟩))
  rw [wp_bind]
  refine wp_mono (fun _ w₉ hj₉ => ?_) (fun _ _ _ => trivial) (wp_rename h₈.2 rfl)
  rw [wp_bind]
  refine wp_mono (fun _ w₁₀ h₁₀ => ?_) (fun _ _ _ => trivial)
    (FinalizationStore.wp_transition hj₉ ⟨rfl, _, rfl, hmade.of_same ⟨rfl, rfl, rfl, rfl⟩⟩)
  rw [wp_bind]
  exact wp_mayFail (Safe.of_wp (FinalizationStore.wp_commit h₁₀.2))

/-! ## Recovery -/

namespace SsdFinalizationRecovery

theorem wp_verifyChunk {part : UploadChunk} {Q : Option Artifact → World → Prop}
    (h : ∀ w' file, Attached t w w' → Q file w') : After t (verifyChunk op part) Q w := by
  unfold verifyChunk
  rw [After, wp_bind]
  refine wp_mayFail ?_
  rw [wp_bind]
  refine wp_openChunk fun w₁ file h₁ _ => ?_
  cases file with
  | none => exact h w₁ none h₁
  | some a =>
    dsimp only
    rw [wp_bind]
    exact wp_verify fun _ _ => h w₁ (some a) h₁

/-- **A temporary file that is complete is the upload.** -/
theorem wp_inspectTemporary {Q : Bool → World → Prop} (hcomplete : ∀ a, temporary = some a → op.Made a → Q true w)
    (hstart : temporary = none → op.targetIdentity = none → Q false w)
    (hagain : ∀ a, temporary = some a → Q false w) : After t (inspectTemporary op temporary) Q w := by
  cases temporary with
  | none =>
    rw [inspectTemporary, After, wp_bind]
    exact wp_assert fun hn => hstart rfl (Option.isNone_iff_eq_none.mp hn)
  | some a =>
    rw [inspectTemporary, After, wp_bind]
    refine wp_assert fun hidentity => ?_
    rw [wp_bind]
    refine wp_assert fun _ => ?_
    split_ifs with hsize
    · rw [wp_bind]
      exact wp_verify fun _ hdigest => hcomplete a rfl ⟨of_decide_eq_true hidentity, hsize, hdigest⟩
    · exact hagain a rfl

theorem wp_openWriter (hj : Journaled t w id op temporary final) (hs : op.state = .assembling)
    (hn : temporary = none → op.targetIdentity = none) :
    After t (openWriter id temporary) (fun a w' => Journaled t w' id op (some a) final ∧ a.data = []) w := by
  cases temporary with
  | none => exact wp_createTemporary hj hs (hn rfl)
  | some a => exact wp_resetTemporary hj hs

/-- **After all chunks have been copied again the temporary file is the upload.** -/
theorem wp_reassemble (hj : Journaled t w id op temporary final) (hs : op.state = .assembling)
    (hn : temporary = none → op.targetIdentity = none) :
    After t (reassemble op id temporary) (fun _ w' => ∃ op' a, Journaled t w' id op' (some a) final ∧
      op'.state = .assembling ∧ op'.Made a ∧ op'.cleanupState = op.cleanupState) w := by
  unfold reassemble
  rw [After, wp_bind]
  refine wp_chunks fun w₁ parts h₁ => ?_
  rw [wp_bind]
  have hvisit : ∀ (u : Unit) (part : UploadChunk) (w' : World), Journaled t w' id op temporary final →
      After t (do
        let file ← verifyChunk op part
        assert (.error "Missing recovery source chunk") file.isSome)
        (fun _ w'' => Journaled t w'' id op temporary final) w' := by
    intro _ part w' hj'
    rw [After, wp_bind]
    exact wp_verifyChunk fun w'' _ h'' => wp_assert fun _ => hj'.attached h''
  refine wp_mono (fun _ w₂ hj₂ => ?_) (fun _ _ _ => trivial)
    (wp_visitManifest hvisit parts 0 () w₁ (hj.attached h₁))
  rw [wp_bind]
  refine wp_mono (fun writer w₃ h₃ => ?_) (fun _ _ _ => trivial) (wp_openWriter hj₂ hs hn)
  obtain ⟨hj₃, hempty⟩ := h₃
  rw [wp_bind]
  refine wp_mono (fun _ w₄ h₄ => ?_) (fun _ _ _ => trivial) (FinalizationStore.wp_recordTarget hj₃ rfl)
  have hwriter : writer = ⟨writer.inode, []⟩ := by rw [← hempty]
  have hj₄ := h₄.2
  rw [hwriter] at hj₄
  refine wp_mono (fun _ w₅ h₅ => ?_) (fun _ _ _ => trivial) (wp_assemble hj₄ hs)
  obtain ⟨data, hj₅, hsize, hdigest⟩ := h₅
  exact ⟨_, _, hj₅, hs, FinalizationOperation.Made.of_assembled rfl hsize hdigest, rfl⟩

/-- **The assembly is completed**, unless it is already. -/
theorem wp_completeAssembly (hj : Journaled t w id op temporary final) :
    After t (completeAssembly op id) (fun op' w' => ∃ temporary final, Journaled t w' id op' temporary final ∧
      op'.cleanupState = op.cleanupState) w := by
  unfold completeAssembly
  split_ifs with hne
  · exact ⟨temporary, final, hj, rfl⟩
  have hs : op.state = .assembling := not_not.mp hne
  rw [After, wp_bind]
  refine wp_inspectTarget hj fun w₁ _ hj₁ => ?_
  rw [wp_bind]
  refine wp_assert fun hfinal => ?_
  obtain rfl : final = none := Option.isNone_iff_eq_none.mp hfinal
  rw [wp_bind]
  refine wp_inspectTarget hj₁ fun w₂ _ hj₂ => ?_
  rw [if_neg Bool.false_ne_true]
  -- However the file is completed, it can be called verified.
  have hrest : ∀ w₃, (∃ op' a, Journaled t w₃ id op' (some a) none ∧ op'.state = .assembling ∧ op'.Made a ∧
      op'.cleanupState = op.cleanupState) → After t (do
        syncTarget
        FinalizationStore.transition id .assembling ⟨.verified, by decide⟩
        let r ← FinalizationStore.lookup id
        return r.1) (fun op' w' => ∃ temporary final, Journaled t w' id op' temporary final ∧
          op'.cleanupState = op.cleanupState) w₃ := by
    rintro w₃ ⟨op', a, hj₃, _, hmade, hcleanup⟩
    rw [After, wp_bind]
    refine wp_syncTarget ?_
    rw [wp_bind]
    refine wp_mono (fun _ w₄ h₄ => ?_) (fun _ _ _ => trivial)
      (FinalizationStore.wp_transition hj₃ ⟨rfl, a, rfl, hmade.of_same ⟨rfl, rfl, rfl, rfl⟩⟩)
    rw [wp_bind]
    refine wp_mono (fun r w₅ h₅ => ?_) (fun _ _ _ => trivial) (FinalizationStore.wp_lookup h₄.2)
    obtain ⟨hj₅, hr, -⟩ := h₅
    exact ⟨_, _, hr ▸ hj₅, hr ▸ hcleanup⟩
  have hagain : (temporary = none → op.targetIdentity = none) →
      After t (when (!false) (reassemble op id temporary)) (fun _ w₃ => ∃ op' a,
        Journaled t w₃ id op' (some a) none ∧ op'.state = .assembling ∧ op'.Made a ∧
          op'.cleanupState = op.cleanupState) w₂ :=
    fun hn => wp_when (fun _ => wp_reassemble hj₂ hs hn) fun h => by cases h
  rw [wp_bind]
  refine wp_inspectTemporary (fun a ha hmade => ?_) (fun hnone hn => ?_) fun a ha => ?_
  · rw [wp_bind]
    exact wp_when (fun h => by cases h) fun _ => hrest w₂ ⟨op, a, ha ▸ hj₂, hs, hmade, rfl⟩
  · rw [wp_bind]
    exact wp_mono (fun _ => hrest) (fun _ _ _ => trivial) (hagain fun _ => hn)
  · rw [wp_bind]
    refine wp_mono (fun _ => hrest) (fun _ _ _ => trivial) (hagain fun hn => ?_)
    rw [ha] at hn
    cases hn

/-- **A verified file may be renamed** when that is announced. -/
theorem wp_announce {a : Artifact} (hj : Journaled t w id op temporary final) (hmade : op.Made a)
    (hs : op.state = .verified ∧ temporary = some a ∧ final = none ∨ op.state = .publishing) :
    After t (announce detect op id) (fun _ w' => ∃ op', Journaled t w' id op' temporary final ∧
      op'.state = .publishing ∧ op'.Made a ∧ op'.cleanupState = op.cleanupState) w := by
  unfold announce
  refine wp_when (fun hverified => ?_) fun hn => ?_
  · obtain ⟨-, htemporary, hfinal⟩ := hs.resolve_right fun h => by
      rw [h] at hverified
      cases hverified
    have hmime : After t (when (!op.mimeTypeCheckpointed) (checkpointSsdMime detect id)) (fun _ w' =>
        ∃ op', Journaled t w' id op' temporary final ∧ op.SameTarget op' ∧ op'.cleanupState = op.cleanupState)
        w := by
      refine wp_when (fun _ => ?_) fun _ => ⟨op, hj, ⟨rfl, rfl, rfl, rfl⟩, rfl⟩
      refine wp_mono (fun _ w₁ h₁ => ?_) (fun _ _ _ => trivial) (wp_checkpointSsdMime hj)
      obtain ⟨-, mimeType, hj₁⟩ := h₁
      exact ⟨_, hj₁, ⟨rfl, rfl, rfl, rfl⟩, rfl⟩
    rw [After, wp_bind]
    refine wp_mono (fun _ w₁ h₁ => ?_) (fun _ _ _ => trivial) hmime
    obtain ⟨op₁, hj₁, hsame, hcleanup⟩ := h₁
    have hmade₁ := hmade.of_same hsame
    refine wp_mono (fun _ w₂ h₂ => ?_) (fun _ _ _ => trivial)
      (FinalizationStore.wp_transition hj₁ (.inl ⟨hfinal, a, htemporary, hmade₁.of_same ⟨rfl, rfl, rfl, rfl⟩⟩))
    exact ⟨_, h₂.2, rfl, hmade₁.of_same ⟨rfl, rfl, rfl, rfl⟩, hcleanup⟩
  · refine ⟨op, hj, hs.resolve_left fun h => ?_, hmade, rfl⟩
    rw [h.1] at hn
    cases hn

/-- **The publication is completed**, unless it is already. -/
theorem wp_completePublication (hj : Journaled t w id op temporary final) :
    After t (completePublication detect op id) (fun op' w' => ∃ temporary final,
      Journaled t w' id op' temporary final ∧ op'.cleanupState = op.cleanupState) w := by
  unfold completePublication
  split_ifs with hne
  · exact ⟨temporary, final, hj, rfl⟩
  have hstate : op.state = .verified ∨ op.state = .publishing := by
    simp only [Bool.and_eq_true, decide_eq_true_eq, not_and, not_not] at hne
    by_cases hv : op.state = .verified
    · exact .inl hv
    · exact .inr (hne hv)
  rw [After, wp_bind]
  refine wp_inspectTarget hj fun w₁ _ hj₁ => ?_
  rw [if_neg Bool.false_ne_true, wp_bind]
  refine wp_inspectTarget hj₁ fun w₂ _ hj₂ => ?_
  rw [if_pos rfl, wp_bind]
  refine wp_assert fun hone => ?_
  rw [wp_bind]
  refine wp_assert fun hintent => ?_
  rw [wp_bind]
  refine wp_require fun a ha => ?_
  rw [wp_bind]
  refine wp_assert fun hidentity => ?_
  rw [wp_bind]
  refine wp_verify fun hsize hdigest => ?_
  have hmade : op.Made a := ⟨of_decide_eq_true hidentity, hsize, hdigest⟩
  rw [wp_bind]
  refine wp_syncTarget ?_
  -- One of the two files is there, before the announcement the temporary one.
  have hwhich : temporary = some a ∧ final = none ∨ temporary = none ∧ final = some a := by
    cases temporary with
    | none => exact .inr ⟨rfl, ha⟩
    | some b =>
      cases ha
      cases final with
      | none => exact .inl ⟨rfl, rfl⟩
      | some c => cases hone
  have hannounced : op.state = .verified ∧ temporary = some a ∧ final = none ∨ op.state = .publishing := by
    refine hstate.imp_left fun hv => ⟨hv, hwhich.resolve_right fun h => ?_⟩
    rw [h.2, hv] at hintent
    cases hintent
  rw [wp_bind]
  refine wp_mono (fun _ w₃ h₃ => ?_) (fun _ _ _ => trivial) (wp_announce hj₂ hmade hannounced)
  obtain ⟨op₃, hj₃, hs₃, hmade₃, hcleanup₃⟩ := h₃
  have hrename : After t (when temporary.isSome (FinalizationFilesystem.publish id)) (fun _ w' =>
      Journaled t w' id op₃ none (some a)) w₃ := by
    rcases hwhich with ⟨ht, -⟩ | ⟨ht, hf⟩
    · exact wp_when (fun _ => ht ▸ wp_rename hj₃ hs₃) fun hn => by
        rw [ht] at hn
        cases hn
    · refine wp_when (fun hn => ?_) fun _ => ?_
      · rw [ht] at hn
        cases hn
      · rw [ht, hf] at hj₃
        exact hj₃
  rw [wp_bind]
  refine wp_mono (fun _ w₄ hj₄ => ?_) (fun _ _ _ => trivial) hrename
  rw [wp_bind]
  refine wp_syncTarget ?_
  rw [wp_bind]
  refine wp_mono (fun _ w₅ h₅ => ?_) (fun _ _ _ => trivial)
    (FinalizationStore.wp_transition hj₄ ⟨rfl, a, rfl, hmade₃.of_same ⟨rfl, rfl, rfl, rfl⟩⟩)
  rw [wp_bind]
  refine wp_mono (fun r w₆ h₆ => ?_) (fun _ _ _ => trivial) (FinalizationStore.wp_lookup h₅.2)
  obtain ⟨hj₆, hr, -⟩ := h₆
  exact ⟨_, _, hr ▸ hj₆, hr ▸ hcleanup₃⟩

theorem wp_verifyFinal {Q : Unit → World → Prop} (hj : Journaled t w id op temporary final)
    (h : ∀ w', Attached t w w' → Journaled t w' id op temporary final → Q () w') :
    After t (verifyFinal op id) Q w := by
  unfold verifyFinal
  rw [After, wp_bind]
  refine wp_mayFail ?_
  rw [wp_bind]
  refine wp_inspectTarget hj fun w₁ h₁ hj₁ => ?_
  rw [wp_bind]
  refine wp_assert fun _ => ?_
  rw [wp_bind]
  refine wp_inspectTarget hj₁ fun w₂ h₂ hj₂ => ?_
  rw [wp_bind]
  refine wp_require fun a _ => ?_
  rw [wp_bind]
  refine wp_assert fun _ => ?_
  rw [wp_bind]
  refine wp_verify fun _ _ => ?_
  rw [wp_bind]
  exact wp_syncTarget (wp_mayFail (h w₂ (h₁.trans h₂) hj₂))

/-- **The chunks are removed when the upload is committed.** -/
theorem cleanup_safe (hl : w.disk.flock = some t) (hc : w.Closed op.sessionId) :
    Safe contract t (cleanup op id) w := by
  have hverify : ∀ (u : Unit) (part : UploadChunk) (w' : World),
      w'.disk.flock = some t ∧ w'.Closed op.sessionId → After t (do
        let _ ← verifyChunk op part) (fun _ w'' => w''.disk.flock = some t ∧ w''.Closed op.sessionId) w' := by
    intro _ part w' hw
    rw [After, wp_bind]
    exact wp_verifyChunk fun w'' _ h'' => ⟨(h''.persists.ssd hw.1).1, hw.2.persists h''.persists⟩
  have hremove : ∀ (u : Unit) (part : UploadChunk) (w' : World),
      w'.disk.flock = some t ∧ w'.Closed op.sessionId → After t (clearChunk op part)
        (fun _ w'' => w''.disk.flock = some t ∧ w''.Closed op.sessionId) w' := by
    intro _ part w' hw
    unfold clearChunk
    rw [After, wp_bind]
    refine wp_verifyChunk fun w'' file h'' => ?_
    have hl'' := (h''.persists.ssd hw.1).1
    have hc'' := hw.2.persists h''.persists
    cases file with
    | none => exact ⟨hl'', hc''⟩
    | some a => exact wp_removeChunk hl'' hc''
  unfold cleanup
  rw [Safe, wp_bind]
  refine wp_chunks fun w₁ parts h₁ => ?_
  rw [wp_bind]
  refine wp_mono (fun _ w₂ h₂ => ?_) (fun _ _ _ => trivial)
    (wp_visitManifest hverify parts 0 () w₁ ⟨(h₁.persists.ssd hl).1, hc.persists h₁.persists⟩)
  rw [wp_bind]
  refine wp_chunks fun w₃ parts h₃ => ?_
  rw [wp_bind]
  refine wp_mono (fun _ w₄ h₄ => ?_) (fun _ _ _ => trivial)
    (wp_visitManifest hremove parts 0 () w₃ ⟨(h₃.persists.ssd h₂.1).1, h₂.2.persists h₃.persists⟩)
  rw [wp_bind]
  exact wp_syncTarget (FinalizationStore.finishCleanup_safe h₄.1)

/-- **From whatever state the journal has the operation is brought on.** -/
theorem resume_safe (hj : Journaled t w id op temporary final) (hpending : op.cleanupState ≠ .cleaned) :
    Safe contract t (resume detect op id) w := by
  unfold resume
  rw [Safe, wp_bind]
  refine wp_mono (fun op₁ w₁ h₁ => ?_) (fun _ _ _ => trivial) (wp_completeAssembly hj)
  obtain ⟨temporary₁, final₁, hj₁, hcleanup₁⟩ := h₁
  rw [wp_bind]
  refine wp_mono (fun op₂ w₂ h₂ => ?_) (fun _ _ _ => trivial) (wp_completePublication hj₁)
  obtain ⟨temporary₂, final₂, hj₂, hcleanup₂⟩ := h₂
  rw [wp_bind]
  refine wp_assert fun _ => ?_
  rw [wp_bind]
  refine wp_verifyFinal hj₂ fun w₃ _ hj₃ => ?_
  have hcommit : After t (when (op₂.state = .published) do
      let _ ← FinalizationStore.commit id) (fun _ w' => ∃ op', Journaled t w' id op' temporary₂ final₂ ∧
        op'.cleanupState = op₂.cleanupState) w₃ := by
    refine wp_when (fun _ => ?_) fun _ => ⟨op₂, hj₃, rfl⟩
    rw [After, wp_bind]
    exact wp_mono (fun _ _ h => h) (fun _ _ _ => trivial) (FinalizationStore.wp_commit hj₃)
  rw [wp_bind]
  refine wp_mono (fun _ w₄ h₄ => ?_) (fun _ _ _ => trivial) hcommit
  obtain ⟨op₄, hj₄, hcleanup₄⟩ := h₄
  rw [wp_bind]
  refine wp_mono (fun r w₅ h₅ => ?_) (fun _ _ _ => trivial) (FinalizationStore.wp_lookup hj₄)
  obtain ⟨hj₅, rfl, hclosed⟩ := h₅
  rw [wp_bind]
  refine wp_require fun file hfile => ?_
  obtain ⟨-, hcommitted⟩ := Option.filter_eq_some_iff.mp hfile
  have hnot : r.1.cleanupState ≠ .cleaned := fun h =>
    hpending (hcleanup₁.symm.trans (hcleanup₂.symm.trans (hcleanup₄.symm.trans h)))
  have hclosed₅ := hclosed hnot (of_decide_eq_true hcommitted)
  rw [wp_bind]
  refine wp_verifyFinal hj₅ fun w₆ h₆ hj₆ => ?_
  exact Safe.bind (cleanup_safe hj₆.held (hclosed₅.persists h₆.persists)) fun _ _ => trivial

theorem recover_safe : Safe contract t (recover host detect id) w := by
  unfold recover
  rw [Safe, wp_bind]
  refine wp_mayFail (closing_safe ?_)
  refine Safe.bind FinalizationStore.lookup_safe fun r w₁ => ?_
  unfold validateLayout
  rw [Safe, wp_bind]
  refine wp_assert fun _ => ?_
  split_ifs with hcleaned
  · trivial
  rw [wp_bind]
  refine wp_reopen fun w₂ hl₂ => ?_
  rw [wp_bind]
  refine wp_mono (fun current w₃ h₃ => ?_) (fun _ _ _ => trivial) (FinalizationStore.wp_lookup_held hl₂)
  rw [wp_bind]
  refine wp_assert fun hsame => ?_
  obtain hop := of_decide_eq_true hsame
  have hj₃ := h₃.1
  rw [hop] at hj₃
  exact Safe.bind (resume_safe hj₃ hcleaned) fun _ _ => trivial

end SsdFinalizationRecovery

/-! ## Completing uploads -/

namespace SsdUploads

theorem findOperation_safe {userId : ℕ} : Safe contract t (findOperation userId id) w :=
  wp_query fun _ _ _ => trivial

theorem ownedSession_safe {enabled : Bool} {userId : ℕ} :
    Safe contract t (ownedSession enabled userId id) w := by
  unfold ownedSession requireEnabled
  rw [Safe, wp_bind]
  refine wp_assert fun _ => ?_
  rw [wp_bind]
  exact wp_query fun _ _ _ => wp_require fun _ _ => trivial

theorem getUploadSession_safe {enabled : Bool} {userId : ℕ} :
    Safe contract t (getUploadSession enabled userId id) w := by
  unfold getUploadSession
  refine Safe.bind ownedSession_safe fun s w₁ => ?_
  rw [Safe, wp_bind]
  refine wp_assert fun _ => ?_
  rw [wp_bind]
  refine wp_workspace fun w₂ _ _ => ?_
  rw [wp_bind]
  exact wp_mayFail trivial

/-- **Completing an upload**, with an operation or without one. -/
theorem completeUpload_safe {enabled : Bool} {userId : ℕ} :
    Safe contract t (completeUpload enabled host detect userId id) w := by
  unfold completeUpload
  refine Safe.bind ownedSession_safe fun session w₁ => Safe.bind findOperation_safe fun operation w₂ => ?_
  cases operation with
  | some operation =>
    refine Safe.bind FinalizationStore.lookup_safe fun r w₃ => ?_
    dsimp only
    split_ifs
    · exact wp_require fun _ _ => trivial
    · exact Safe.bind SsdFinalizationRecovery.recover_safe fun _ _ => wp_require fun _ _ => trivial
  | none =>
    refine Safe.bind getUploadSession_safe fun _ w₃ => ?_
    rw [Safe, wp_bind]
    refine wp_active fun w₄ _ _ _ => ?_
    rw [wp_bind]
    refine wp_assert fun _ => ?_
    rw [wp_bind]
    refine wp_capacity fun w₅ _ _ => ?_
    rw [wp_bind]
    refine wp_require fun digest _ => ?_
    refine Safe.bind SsdCrossFsFinalizer.finalize_safe fun file w₆ => Safe.bind findOperation_safe
      fun committed w₇ => ?_
    cases committed with
    | none => trivial
    | some operation =>
      exact Safe.bind (wp_ignoreFailure (Safe.bind SsdFinalizationRecovery.recover_safe fun _ _ => trivial))
        fun _ _ => trivial

theorem recoverAll_safe : ∀ (ids : List ℕ) {w : World}, Safe contract t (recoverAll host detect ids) w
  | [], _ => trivial
  | _ :: ids, _ =>
    Safe.bind (wp_ignoreFailure (Safe.bind SsdFinalizationRecovery.recover_safe fun _ _ => trivial))
      fun _ _ => recoverAll_safe ids

theorem onModuleInit_safe {enabled : Bool} : Safe contract t (onModuleInit enabled host detect) w := by
  unfold onModuleInit
  split_ifs
  · trivial
  · rw [Safe, wp_bind]
    exact wp_query_attached fun w₁ _ _ _ => recoverAll_safe _

end SsdUploads

end

end HomeCloud
