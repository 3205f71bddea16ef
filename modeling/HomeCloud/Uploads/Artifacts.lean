import HomeCloud.Crypto.Sha256
import HomeCloud.Uploads.Disk

/-!
# What the files of the SSD are

The rows of the database say what files there are on the SSD and what is in them: a chunk row of an upload
on the way has a file, and an operation has its temporary file or its object, with the inode that it has
recorded.

* `FinalizationOperation.Made`, `FinalizationOperation.Objects`: the files of an operation.
* `Db.Backed`: the files are as the rows say.
* **`Db.Backed.step`**: a step that meets its precondition `SsdOp.Pre` keeps that.
-/

namespace HomeCloud

open Concurrent Sha256

/-! ## The files of an operation -/

namespace FinalizationOperation

/-- The identity of a file next to the object of the operation. -/
def identify (op : FinalizationOperation) (a : Artifact) : ArtifactIdentity :=
  ⟨op.binding.targetRoot.device, a.inode⟩

/-- The file has the identity that is recorded, the size of the upload and its digest. -/
structure Made (op : FinalizationOperation) (a : Artifact) : Prop where
  identity : op.targetIdentity = some (op.identify a)
  size : a.data.length = op.totalSize
  sha256 : sha256 a.data = op.expectedSha256

/-- The temporary file and the object of an operation are as its state says. When the rename is due it may
have been done. -/
def Objects (op : FinalizationOperation) (temporary final : Option Artifact) : Prop :=
  match op.state with
  | .assembling => final = none ∧
    ∀ identity, op.targetIdentity = some identity → ∃ a, temporary = some a ∧ identity = op.identify a
  | .verified => final = none ∧ ∃ a, temporary = some a ∧ op.Made a
  | .publishing => (final = none ∧ ∃ a, temporary = some a ∧ op.Made a) ∨
    temporary = none ∧ ∃ a, final = some a ∧ op.Made a
  | .published | .committed => temporary = none ∧ ∃ a, final = some a ∧ op.Made a

/-- The columns that say what the files of the operation are, but for its state. -/
structure SameTarget (op op' : FinalizationOperation) : Prop where
  binding : op'.binding = op.binding
  targetIdentity : op'.targetIdentity = op.targetIdentity
  totalSize : op'.totalSize = op.totalSize
  expectedSha256 : op'.expectedSha256 = op.expectedSha256

variable {op op' : FinalizationOperation} {temporary final : Option Artifact} {a : Artifact}

theorem SameTarget.identify (h : op.SameTarget op') (a : Artifact) : op'.identify a = op.identify a := by
  rw [FinalizationOperation.identify, FinalizationOperation.identify, h.binding]

theorem Made.of_same (h : op.Made a) (hs : op.SameTarget op') : op'.Made a where
  identity := by rw [hs.targetIdentity, hs.identify, h.identity]
  size := h.size.trans hs.totalSize.symm
  sha256 := h.sha256.trans hs.expectedSha256.symm

theorem SameTarget.made {o : Option Artifact} (hs : op.SameTarget op') (h : ∃ a, o = some a ∧ op.Made a) :
    ∃ a, o = some a ∧ op'.Made a := by
  obtain ⟨a, ha, hm⟩ := h
  exact ⟨a, ha, hm.of_same hs⟩

theorem Objects.of_same (h : op.Objects temporary final) (hs : op.SameTarget op') (he : op'.state = op.state) :
    op'.Objects temporary final := by
  unfold Objects at h ⊢
  rw [he]
  cases hstate : op.state <;> rw [hstate] at h
  · refine ⟨h.1, fun identity hi => ?_⟩
    obtain ⟨a, ha, he⟩ := h.2 identity (hs.targetIdentity ▸ hi)
    exact ⟨a, ha, he.trans (hs.identify a).symm⟩
  · exact ⟨h.1, hs.made h.2⟩
  · exact h.imp (fun h' => ⟨h'.1, hs.made h'.2⟩) fun h' => ⟨h'.1, hs.made h'.2⟩
  · exact ⟨h.1, hs.made h.2⟩
  · exact ⟨h.1, hs.made h.2⟩

/-- The commit of a published operation leaves its object. -/
theorem Objects.committed (h : op.Objects temporary final) (hp : op.state = .published)
    (hs : op.SameTarget op') (hc : op'.state = .committed) : op'.Objects temporary final := by
  unfold Objects at h ⊢
  rw [hp] at h
  rw [hc]
  exact ⟨h.1, hs.made h.2⟩

/-- **An object is always the upload in full.** -/
theorem Objects.made (h : op.Objects temporary final) (hf : final = some a) : op.Made a := by
  have hsome : ∀ {b : Artifact}, final = some b → op.Made b → op.Made a := fun hb hm => by
    cases hf.symm.trans hb
    exact hm
  have hnone : final ≠ none := fun hn => by
    rw [hn] at hf
    cases hf
  unfold Objects at h
  cases hstate : op.state <;> rw [hstate] at h
  · exact absurd h.1 hnone
  · exact absurd h.1 hnone
  · obtain ⟨hn, -⟩ | ⟨-, b, hb, hm⟩ := h
    · exact absurd hn hnone
    · exact hsome hb hm
  · obtain ⟨-, b, hb, hm⟩ := h
    exact hsome hb hm
  · obtain ⟨-, b, hb, hm⟩ := h
    exact hsome hb hm

theorem Objects.of_assembling (h : op.Objects temporary final) (hs : op.state = .assembling) :
    final = none ∧
      ∀ identity, op.targetIdentity = some identity → ∃ a, temporary = some a ∧ identity = op.identify a := by
  unfold Objects at h
  rwa [hs] at h

theorem Objects.of_publishing (h : op.Objects temporary final) (hs : op.state = .publishing) :
    (final = none ∧ ∃ a, temporary = some a ∧ op.Made a) ∨
      temporary = none ∧ ∃ a, final = some a ∧ op.Made a := by
  unfold Objects at h
  rwa [hs] at h

theorem objects_assembling (hs : op.state = .assembling) (hf : final = none)
    (h : ∀ identity, op.targetIdentity = some identity → ∃ a, temporary = some a ∧ identity = op.identify a) :
    op.Objects temporary final := by
  unfold Objects
  rw [hs]
  exact ⟨hf, h⟩

end FinalizationOperation

/-! ## Files and rows -/

/-- There is a file for the chunk row. -/
def SsdFiles.Stored (f : SsdFiles) (id : ℕ) (c : UploadChunk) : Prop :=
  ∃ a, f.chunks id c.chunkIndex = some a ∧ a.data.length = c.byteSize ∧ sha256 a.data = c.sha256

/-- The upload on the SSD can take chunks. -/
def UploadSession.Open (s : UploadSession) : Prop := s.workspaceId = .ssd ∧ s.active = true

/-- The files of the SSD are as the rows say: no operation has files before it is begun, the chunk rows of
an upload on the way have their files, and an upload that is completed has a committed operation. -/
structure Db.Backed (db : Db) (f : SsdFiles) : Prop where
  unused : ∀ id, db.finalizationOperations.get id = none → f.temporaries id = none ∧ f.finals id = none
  objects : ∀ id op, db.finalizationOperations.get id = some op →
    op.Objects (f.temporaries id) (f.finals id)
  stored : ∀ s q, db.uploadSessions.get s = some q → q.Open → ∀ c ∈ q.chunks, f.Stored s c
  finalized : ∀ s q, db.uploadSessions.get s = some q → q.workspaceId = .ssd → q.status = .completed →
    ∃ id op, db.finalizationOperations.get id = some op ∧ op.sessionId = s ∧ op.state = .committed

theorem Db.Backed.empty (users : Table User) : (Db.empty users).Backed .empty where
  unused _ _ := ⟨rfl, rfl⟩
  objects _ _ h := by simp [Db.empty] at h
  stored _ _ h := by simp [Db.empty] at h
  finalized _ _ h := by simp [Db.empty] at h

/-- What has to hold before a step: chunk files are made for chunks without a row and removed when no chunk
can be uploaded any more, a temporary file is written while its operation is assembling, and renamed when that is
due. -/
def SsdOp.Pre (db : Db) (f : SsdFiles) : SsdOp → Prop
  | .makeDirectory _ => True
  | .createChunk s i | .fillChunk s i _ | .renameChunk s i _ =>
    ∀ q, db.uploadSessions.get s = some q → q.Open → i ∉ q.chunks.map (·.chunkIndex)
  | .removeChunk s _ => ∀ q, db.uploadSessions.get s = some q → q.active = false
  | .createTemporary o =>
    ∃ op, db.finalizationOperations.get o = some op ∧ op.state = .assembling ∧ op.targetIdentity = none
  | .truncateTemporary o | .appendTemporary o _ =>
    ∃ op, db.finalizationOperations.get o = some op ∧ op.state = .assembling
  | .publish o =>
    ∃ op, db.finalizationOperations.get o = some op ∧ op.state = .publishing ∧ f.finals o = none

section Steps

variable {db : Db} {f f' : SsdFiles}

/-- The step changes one chunk file. -/
theorem Db.Backed.of_chunk (h : db.Backed f) {s i : ℕ} {a : Option Artifact}
    (hs : ∀ q, db.uploadSessions.get s = some q → q.Open → i ∉ q.chunks.map (·.chunkIndex)) :
    db.Backed { f with chunks := setAt f.chunks s (setAt (f.chunks s) i a) } where
  unused := h.unused
  objects := h.objects
  finalized := h.finalized
  stored s' q hq ho c hc := by
    obtain ⟨b, hb, hsize, hsha⟩ := h.stored s' q hq ho c hc
    refine ⟨b, Eq.trans ?_ hb, hsize, hsha⟩
    by_cases hss : s' = s
    · subst hss
      have hi : c.chunkIndex ≠ i := fun he => hs q hq ho (he ▸ List.mem_map_of_mem hc)
      simp only [setAt_self, setAt_ne _ _ hi]
    · simp only [setAt_ne _ _ hss]

/-- The step changes the files of one operation, which is there. -/
theorem Db.Backed.of_operation (h : db.Backed f) {o : ℕ} {op : FinalizationOperation}
    {temporary final : Option Artifact} (hop : db.finalizationOperations.get o = some op)
    (ho : op.Objects temporary final) :
    db.Backed { f with
      temporaries := setAt f.temporaries o temporary
      finals := setAt f.finals o final } where
  unused id hn := by
    have hne : id ≠ o := fun he => by
      rw [he, hop] at hn
      cases hn
    simp only [setAt_ne _ _ hne]
    exact h.unused id hn
  objects id op' hop' := by
    by_cases hid : id = o
    · subst hid
      cases hop.symm.trans hop'
      simp only [setAt_self]
      exact ho
    · simp only [setAt_ne _ _ hid]
      exact h.objects id op' hop'
  stored := h.stored
  finalized := h.finalized

/-- Only the temporary file of the operation changes. -/
theorem Db.Backed.of_temporary (h : db.Backed f) {o : ℕ} {op : FinalizationOperation}
    {temporary : Option Artifact} (hop : db.finalizationOperations.get o = some op)
    (ho : op.Objects temporary (f.finals o)) :
    db.Backed { f with temporaries := setAt f.temporaries o temporary } := by
  have hsame : setAt f.finals o (f.finals o) = f.finals := by
    funext id
    by_cases hid : id = o
    · subst hid
      exact setAt_self ..
    · exact setAt_ne _ _ hid
  have hb := h.of_operation hop ho
  rwa [hsame] at hb

/-- **A step that meets its precondition keeps the files as the rows say.** -/
theorem Db.Backed.step (h : db.Backed f) {op : SsdOp} {inode : ℕ} (hp : op.Pre db f) :
    db.Backed (op.apply inode f) := by
  cases op with
  | makeDirectory s => exact ⟨h.unused, h.objects, h.stored, h.finalized⟩
  | createChunk s i | fillChunk s i data | renameChunk s i data => exact h.of_chunk hp
  | removeChunk s i =>
    refine h.of_chunk fun q hq ho => ?_
    have hactive := ho.2
    rw [hp q hq] at hactive
    cases hactive
  | createTemporary o =>
    obtain ⟨op, hop, hs, hn⟩ := hp
    refine h.of_temporary hop (FinalizationOperation.objects_assembling hs
      ((h.objects o op hop).of_assembling hs).1 fun identity hi => ?_)
    rw [hn] at hi
    cases hi
  | truncateTemporary o | appendTemporary o data =>
    obtain ⟨op, hop, hs⟩ := hp
    obtain ⟨hfinal, hrecorded⟩ := (h.objects o op hop).of_assembling hs
    refine h.of_temporary hop (FinalizationOperation.objects_assembling hs hfinal fun identity hi => ?_)
    obtain ⟨a, ha, he⟩ := hrecorded identity hi
    rw [ha]
    exact ⟨_, rfl, he⟩
  | publish o =>
    obtain ⟨op, hop, hs, hn⟩ := hp
    have hobjects := (h.objects o op hop).of_publishing hs
    obtain ⟨-, a, ha, hm⟩ | ⟨-, a, ha, -⟩ := hobjects
    · refine h.of_operation hop ?_
      unfold FinalizationOperation.Objects
      rw [hs]
      exact .inr ⟨rfl, a, ha, hm⟩
    · rw [hn] at ha
      cases ha

end Steps

end HomeCloud
