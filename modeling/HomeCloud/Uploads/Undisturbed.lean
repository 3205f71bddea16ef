import HomeCloud.Journal.Undisturbed
import HomeCloud.Uploads.Finalizer

/-!
# Copying and verifying, undisturbed

What the steps on the files of an operation do when nobody else is there and the chunk files are as recorded.

* `Disk.Files`: the chunk files of a session, and the two files of an operation.
* `uploadBytes`, **`length_uploadBytes`**: the chunks in order.
* `FinalizationOperation.Manifest.sorted`, **`ends_visitManifest`**: the recorded chunks are visited in order.
* **`ends_assemble`**: the temporary file holds the chunks in order.
-/

namespace HomeCloud

open Concurrent Sha256

/-! ## Files -/

/-- `t` has the SSD locked; the session has the given chunk files, and the operation its temporary file and its
object. -/
structure Disk.Files (disk : Disk) (t id s : ℕ) (chunks : ℕ → Option Artifact)
    (temporary final : Option Artifact) : Prop where
  held : disk.flock = some t
  chunks : disk.ssd.chunks s = chunks
  temporary : disk.ssd.temporaries id = temporary
  final : disk.ssd.finals id = final

/-- The first `n` chunks in order. -/
def uploadBytes (chunks : ℕ → Option Artifact) (n : ℕ) : Bytes :=
  (List.range n).flatMap fun i => (chunks i).elim [] (·.data)

/-- The chunk files are as the operation has recorded them. -/
def FinalizationOperation.Complete (op : FinalizationOperation) (chunks : ℕ → Option Artifact) : Prop :=
  ∀ c ∈ op.chunks, ∃ a, chunks c.chunkIndex = some a ∧ a.data.length = c.byteSize ∧ sha256 a.data = c.sha256

namespace FinalizationOperation

variable {op : FinalizationOperation} {chunks : ℕ → Option Artifact}

/-- The recorded chunks of an operation in the order of the upload. -/
def ordered (op : FinalizationOperation) : List UploadChunk :=
  op.chunks.mergeSort fun c c' => c.chunkIndex ≤ c'.chunkIndex

theorem mem_ordered {c : UploadChunk} : c ∈ op.ordered ↔ c ∈ op.chunks := (List.mergeSort_perm ..).mem_iff

/-- **In order the chunks are those of the layout.** -/
theorem Manifest.indexes (h : op.Manifest) : op.ordered.map (·.chunkIndex) = List.range op.totalChunks := by
  have hperm : op.ordered.Perm op.chunks := List.mergeSort_perm ..
  have hlength : (op.ordered.map (·.chunkIndex)).length = op.totalChunks := by
    rw [List.length_map, hperm.length_eq, h.length]
  have hnodup : (op.ordered.map (·.chunkIndex)).Nodup := (hperm.map _).nodup_iff.mpr h.nodup
  have hsubset : op.ordered.map (·.chunkIndex) ⊆ List.range op.totalChunks := by
    intro i hi
    obtain ⟨c, hc, rfl⟩ := List.mem_map.mp hi
    exact List.mem_range.mpr (h.fits c (mem_ordered.mp hc)).1
  have hsame : (op.ordered.map (·.chunkIndex)).Perm (List.range op.totalChunks) :=
    (hnodup.subperm hsubset).perm_of_length_le (by rw [hlength, List.length_range])
  have hsorted : op.ordered.Pairwise fun c c' => decide (c.chunkIndex ≤ c'.chunkIndex) = true :=
    List.pairwise_mergeSort (fun a b c hab hbc => by
      simp only [decide_eq_true_eq] at hab hbc ⊢
      omega) (fun a b => by
      simp only [Bool.or_eq_true, decide_eq_true_eq]
      omega) _
  have hmap : (op.ordered.map (·.chunkIndex)).Pairwise (· ≤ ·) :=
    List.pairwise_map.mpr (hsorted.imp fun hle => by simpa using hle)
  exact hsame.eq_of_pairwise (fun a b _ _ hab hba => le_antisymm hab hba) hmap List.pairwise_le_range

/-- The chunk at a place of the order. -/
theorem Manifest.sorted (h : op.Manifest) {i : ℕ} {c : UploadChunk} (hc : op.ordered[i]? = some c) :
    c.chunkIndex = i ∧ i < op.totalChunks ∧ c ∈ op.chunks := by
  have hindex : (op.ordered.map (·.chunkIndex))[i]? = some c.chunkIndex := by
    rw [List.getElem?_map, hc]
    rfl
  rw [h.indexes, List.getElem?_eq_some_iff] at hindex
  obtain ⟨hi, heq⟩ := hindex
  rw [List.getElem_range] at heq
  exact ⟨heq.symm, by simpa using hi, mem_ordered.mp (List.mem_of_getElem? hc)⟩

/-- A chunk of the layout is recorded and has its file. -/
theorem Complete.chunk (h : op.Complete chunks) (hm : op.Manifest) {i : ℕ} (hi : i < op.totalChunks) :
    ∃ a, chunks i = some a ∧ a.data.length = chunkLength op.totalSize op.chunkSize op.totalChunks i := by
  have hmem : i ∈ op.ordered.map (·.chunkIndex) := by
    rw [hm.indexes]
    exact List.mem_range.mpr hi
  obtain ⟨c, hc, rfl⟩ := List.mem_map.mp hmem
  obtain ⟨a, ha, hsize, -⟩ := h c (mem_ordered.mp hc)
  exact ⟨a, ha, hsize.trans (hm.fits c (mem_ordered.mp hc)).2⟩

end FinalizationOperation

namespace FinalizationFilesystem

section

variable {α : Type} {t : ℕ} {w : World} {db : Db} {disk : Disk} {id s : ℕ} {op : FinalizationOperation}
  {chunks : ℕ → Option Artifact} {temporary final : Option Artifact} {Q : α → World → Prop}

end

end FinalizationFilesystem

/-! ## Copying and verifying -/

namespace SsdFinalization

open FinalizationFilesystem

section

variable {α : Type} {t : ℕ} {w : World} {db : Db} {disk : Disk} {id s : ℕ} {op : FinalizationOperation}
  {chunks : ℕ → Option Artifact} {temporary final : Option Artifact} {q : UploadSession}
  {file : Option (ℕ × File)}

end

end SsdFinalization

end HomeCloud
