import HomeCloud.Uploads.Layout
import Mathlib.Algebra.Order.Floor.Semiring
import Mathlib.Data.Rat.Floor

/-!
# The sizes of chunks, as they are checked

The size of the chunk with an index is worked out where chunks come in, where they are put together, in
SQL, and by the client. The numbers are those of JavaScript and of PostgreSQL, which may be negative.

* `lastOrFull`: what is left for the last chunk, else a full chunk.
* `uploadChunkAccepts` to `reconcileAccepts`, `slice`: the checks and the slices of the client.
* **`chunk_sizes_agree`**: they agree, and the slices make up the file.
-/

namespace HomeCloud

open Finset

namespace ChunkSizes

/-! ## Checks -/

/-- What is left of the file for the last chunk, else a full chunk. -/
def lastOrFull (totalSize chunkSize totalChunks index : ℤ) : ℤ :=
  if index = totalChunks - 1 then totalSize - index * chunkSize else chunkSize

section

variable (totalSize chunkSize totalChunks index size : ℤ)

/-- `uploadChunk` of the legacy uploads. -/
def uploadChunkAccepts : Bool :=
  let remainingBytes := totalSize - index * chunkSize
  let maxAllowed := if index = totalChunks - 1 then remainingBytes else chunkSize
  !(index ≥ totalChunks) && !(remainingBytes ≤ 0) && !(size ≠ maxAllowed)

/-- The size that the assembly of a legacy upload expects, for `i` from zero to `totalChunks`. -/
def assemblySize : ℤ := lastOrFull totalSize chunkSize totalChunks index

/-- `uploadChunk` of the uploads to the SSD. -/
def ssdUploadChunkAccepts (maxChunkSize : ℤ) : Bool :=
  let expected := lastOrFull totalSize chunkSize totalChunks index
  !(index ≥ totalChunks || size ≠ expected || size > maxChunkSize)

/-- A row that the query of `begin` does not count as invalid. -/
def beginAccepts : Bool :=
  !(index ≥ totalChunks || size ≠ lastOrFull totalSize chunkSize totalChunks index)

/-- A row that `guard_ssd_finalization_manifest` lets in. -/
def manifestGuardAccepts : Bool :=
  !(index ≥ totalChunks || size ≠ lastOrFull totalSize chunkSize totalChunks index)

/-- A part that the assembly on the SSD accepts at the position `index`. -/
def ssdAssemblyAccepts (chunkIndex : ℤ) : Bool :=
  let expectedSize := lastOrFull totalSize chunkSize totalChunks index
  !(index ≥ totalChunks || chunkIndex ≠ index || size ≠ expectedSize)

/-- A part that the recovery accepts at the position `index`. -/
def recoveryAccepts (chunkIndex : ℤ) : Bool :=
  let expected := lastOrFull totalSize chunkSize totalChunks index
  !(chunkIndex ≠ index || index ≥ totalChunks || size ≠ expected)

/-- A chunk of the server that the client accepts when it reconciles. -/
def reconcileAccepts : Bool :=
  let expectedSize := min chunkSize (totalSize - index * chunkSize)
  !(index < 0 || index ≥ totalChunks || size ≠ expectedSize)

end

/-- `file.slice(start, Math.min(start + chunkSize, file.size))` of the client. -/
def slice {α : Type} (file : List α) (chunkSize index : ℕ) : List α :=
  let start := index * chunkSize
  (file.take (min (start + chunkSize) file.length)).drop start

/-! ## Agreement -/

section Agreement

variable {totalSize chunkSize totalChunks i : ℕ}

/-- The number of chunks, as `Math.ceil` gives it. -/
theorem laidOut_of_ceil (ht : 0 < totalSize) (hc : 0 < chunkSize)
    (h : totalChunks = ⌈(totalSize : ℚ) / chunkSize⌉₊) : LaidOut totalSize chunkSize totalChunks where
  total_pos := ht
  size_pos := hc
  chunks := by
    have hc' : (0 : ℚ) < chunkSize := Nat.cast_pos.mpr hc
    have hpos : totalChunks ≠ 0 := by
      rw [h]
      exact (Nat.ceil_pos.mpr (div_pos (Nat.cast_pos.mpr ht) hc')).ne'
    obtain ⟨hlo, hhi⟩ := (Nat.ceil_eq_iff hpos).mp h.symm
    rw [lt_div_iff₀ hc'] at hlo
    rw [div_le_iff₀ hc'] at hhi
    have hlower : (totalChunks - 1) * chunkSize < totalSize := by exact_mod_cast hlo
    have hupper : totalSize ≤ totalChunks * chunkSize := by exact_mod_cast hhi
    rw [Nat.sub_mul, one_mul] at hlower
    refine (Nat.div_eq_of_lt_le ?_ ?_).symm
    · omega
    · rw [Nat.succ_mul]
      omega

/-- A chunk starts before the end of the file. -/
theorem start_lt (h : LaidOut totalSize chunkSize totalChunks) (hi : i < totalChunks) :
    i * chunkSize < totalSize := by
  have hle : i * chunkSize ≤ (totalChunks - 1) * chunkSize := Nat.mul_le_mul_right _ (by omega)
  exact lt_of_le_of_lt hle h.lower

/-- A chunk ends with the file, or is full. -/
theorem chunkLength_eq_min (h : LaidOut totalSize chunkSize totalChunks) (hi : i < totalChunks) :
    chunkLength totalSize chunkSize totalChunks i = min chunkSize (totalSize - i * chunkSize) := by
  have hu := h.upper
  unfold chunkLength
  split_ifs with hlast
  · obtain ⟨n, rfl⟩ := Nat.exists_eq_succ_of_ne_zero (Nat.ne_of_gt h.pos)
    rw [Nat.succ_eq_add_one, Nat.add_sub_cancel] at hlast
    subst hlast
    rw [Nat.succ_mul] at hu
    omega
  · have hnext : (i + 1) * chunkSize ≤ (totalChunks - 1) * chunkSize :=
      Nat.mul_le_mul_right _ (by omega)
    have hl := h.lower
    rw [Nat.succ_mul] at hnext
    omega

/-- The size of a chunk, in the numbers of the code. -/
theorem lastOrFull_eq (h : LaidOut totalSize chunkSize totalChunks) (hi : i < totalChunks) :
    lastOrFull totalSize chunkSize totalChunks i = chunkLength totalSize chunkSize totalChunks i := by
  have hs := start_lt h hi
  have hiff : (i : ℤ) = (totalChunks : ℤ) - 1 ↔ i = totalChunks - 1 := by omega
  simp only [lastOrFull, chunkLength, hiff]
  split_ifs
  · push_cast [Nat.cast_sub hs.le]
    rfl
  · rfl

/-- The slice of a chunk has its size. -/
theorem length_slice {α : Type} {file : List α} (h : LaidOut file.length chunkSize totalChunks)
    (hi : i < totalChunks) :
    (slice file chunkSize i).length = chunkLength file.length chunkSize totalChunks i := by
  have hs := start_lt h hi
  rw [chunkLength_eq_min h hi, slice, List.length_drop, List.length_take]
  omega

/-- **The slices of the client make up the file, in order.** -/
theorem slices_flatten {α : Type} {file : List α} (h : LaidOut file.length chunkSize totalChunks) :
    ((List.range totalChunks).map (slice file chunkSize)).flatten = file := by
  have hjoined : ∀ n, n ≤ totalChunks →
      ((List.range n).map (slice file chunkSize)).flatten = file.take (n * chunkSize) := by
    intro n
    induction n with
    | zero =>
      intro _
      rw [Nat.zero_mul, List.take_zero]
      rfl
    | succ n ih =>
      intro hn
      have hmin : file.take (min (n * chunkSize + chunkSize) file.length) =
          file.take (n * chunkSize + chunkSize) := by
        rw [← List.take_take, List.take_length]
      rw [List.range_succ, List.map_append, List.flatten_append, ih (by omega), Nat.succ_mul,
        List.map_singleton, List.flatten_singleton, slice, hmin]
      conv_rhs => rw [← List.take_append_drop (n * chunkSize) (file.take _), List.take_take,
        Nat.min_eq_left (Nat.le_add_right _ _)]
  rw [hjoined totalChunks le_rfl, List.take_of_length_le h.upper]

end Agreement

/-- **All checks agree on the size of every chunk**, which is positive and at most a full chunk; the
sizes add up to the file, and the slices of the client have them and make up the file in order. -/
theorem chunk_sizes_agree {α : Type} (file : List α) (totalSize chunkSize totalChunks : ℕ)
    (ht : 0 < totalSize) (hc : 0 < chunkSize) (hn : totalChunks = ⌈(totalSize : ℚ) / chunkSize⌉₊)
    (hfile : file.length = totalSize) :
    (∀ i < totalChunks, ∃ length : ℕ, 1 ≤ length ∧ length ≤ chunkSize ∧
      length = chunkLength totalSize chunkSize totalChunks i ∧
      assemblySize totalSize chunkSize totalChunks i = length ∧
      (slice file chunkSize i).length = length ∧
      ∀ size chunkIndex maxChunkSize : ℤ,
        (uploadChunkAccepts totalSize chunkSize totalChunks i size ↔ size = length) ∧
        (ssdUploadChunkAccepts totalSize chunkSize totalChunks i size maxChunkSize ↔
          size = length ∧ size ≤ maxChunkSize) ∧
        (beginAccepts totalSize chunkSize totalChunks i size ↔ size = length) ∧
        (manifestGuardAccepts totalSize chunkSize totalChunks i size ↔ size = length) ∧
        (ssdAssemblyAccepts totalSize chunkSize totalChunks i size chunkIndex ↔
          chunkIndex = i ∧ size = length) ∧
        (recoveryAccepts totalSize chunkSize totalChunks i size chunkIndex ↔
          chunkIndex = i ∧ size = length) ∧
        (reconcileAccepts totalSize chunkSize totalChunks i size ↔ size = length)) ∧
    ∑ i ∈ range totalChunks, chunkLength totalSize chunkSize totalChunks i = totalSize ∧
    ((List.range totalChunks).map (slice file chunkSize)).flatten = file := by
  have h := laidOut_of_ceil ht hc hn
  subst hfile
  refine ⟨fun i hi => ?_, sum_chunkLength h, slices_flatten h⟩
  have hs := start_lt h hi
  have hmin := chunkLength_eq_min h hi
  have hlast := lastOrFull_eq h hi
  have hlt : ¬ (i : ℤ) ≥ totalChunks := by omega
  have hneg : ¬ (i : ℤ) < 0 := by omega
  have hremaining : ¬ (file.length : ℤ) - i * chunkSize ≤ 0 := by
    have hcast : ((i * chunkSize : ℕ) : ℤ) < file.length := by exact_mod_cast hs
    push_cast at hcast
    omega
  have hreconcile : min (chunkSize : ℤ) (file.length - i * chunkSize) =
      chunkLength file.length chunkSize totalChunks i := by
    rw [hmin]
    push_cast [Nat.cast_sub hs.le]
    rfl
  refine ⟨chunkLength file.length chunkSize totalChunks i, h.chunkLength_pos, by omega, rfl, hlast,
    length_slice h hi, fun size chunkIndex maxChunkSize => ?_⟩
  have hupload : (if (i : ℤ) = totalChunks - 1 then (file.length : ℤ) - i * chunkSize else chunkSize) =
      chunkLength file.length chunkSize totalChunks i := hlast
  simp only [uploadChunkAccepts, ssdUploadChunkAccepts, beginAccepts, manifestGuardAccepts,
    ssdAssemblyAccepts, recoveryAccepts, reconcileAccepts, hlast, hreconcile, hupload, hlt, hneg,
    hremaining]
  simp

/-- A file of five bytes in chunks of two. -/
theorem chunk_sizes_of_five :
    ∃ length : ℕ, length = 1 ∧ (slice [10, 11, 12, 13, 14] 2 2).length = length ∧
      (reconcileAccepts 5 2 3 2 1 ↔ (1 : ℤ) = length) ∧
      ((List.range 3).map (slice [10, 11, 12, 13, 14] 2)).flatten = [10, 11, 12, 13, 14] := by
  have hceil : (3 : ℕ) = ⌈((5 : ℕ) : ℚ) / (2 : ℕ)⌉₊ := by
    symm
    rw [Nat.ceil_eq_iff (by decide)]
    norm_num
  have h := chunk_sizes_agree [10, 11, 12, 13, 14] 5 2 3 (by decide) (by decide) hceil rfl
  obtain ⟨length, -, -, hlength, -, hslice, hall⟩ := h.1 2 (by decide)
  exact ⟨length, hlength, hslice, (hall 1 2 0).2.2.2.2.2.2, h.2.2⟩

end ChunkSizes

end HomeCloud
