import HomeCloud.Crypto.Sha256
import HomeCloud.Faults
import HomeCloud.Sql.Keyset
import HomeCloud.Text
import HomeCloud.Uploads.ChunkSizes
import HomeCloud.Uploads.Disk

/-!
# The manifest of a finalization

The rows of the chunks of an operation, read page by page, and the two loops that check them one after the other.

* `chunks`: the rows, 128 at a time.
* `manifest`: the check before a recovery.
* `sequence`: the assembly, which reads the files of the chunks.
* `Exact`, `Matches`: the rows that are as the layout says, and the files that are as the rows say.
* **`chunks_read_exactly`**.
-/

namespace HomeCloud

open Faults

namespace ChunkManifest

/-! ## Rows -/

/-- A row of `ssd_finalization_chunks`. -/
structure FinalizationChunk where
  chunkIndex : ℕ
  byteSize : ℕ
  sha256 : JsString

/-- The rows of one operation, whose indices differ: they are the primary key. -/
structure Rows where
  rows : List FinalizationChunk
  distinct : (rows.map fun r => (r.chunkIndex : ℤ)).Nodup

/-- `/^[0-9a-f]{8}-[0-9a-f]{4}-[0-9a-f]{4}-[0-9a-f]{4}-[0-9a-f]{12}$/i` -/
def isUuid (s : JsString) : Bool :=
  let hex (c : UInt16) : Bool := (0x30 ≤ c && c ≤ 0x39) || (0x61 ≤ c && c ≤ 0x66) || (0x41 ≤ c && c ≤ 0x46)
  let parts := s.splitOn 0x2D
  parts.map List.length = [8, 4, 4, 4, 12] && parts.all fun part => part.all hex

/-- An operation. Its identity has the type `uuid` in the database. -/
structure FinalizationOperation where
  id : JsString
  totalSize : ℕ
  chunkSize : ℕ
  totalChunks : ℕ
  uuid : isUuid id = true

/-! ## Reading the rows -/

/-- The rows that an operation has, read with at most so many queries, none if there is more to read. -/
def chunks (table : JsString → Rows) (operationId : JsString) (queries : ℕ) :
    Except String (Option (List FinalizationChunk)) :=
  if isUuid operationId then
    .ok (Keyset.read (fun r => (r.chunkIndex : ℤ)) 128 (table operationId).rows queries (-1))
  else .error "Invalid operation identity"

/-! ## The check before a recovery -/

section Loops

variable (operation : FinalizationOperation)

/-- The size of the chunk, in the numbers of the code. -/
def expectedSize (index : ℕ) : ℤ :=
  ChunkSizes.lastOrFull operation.totalSize operation.chunkSize operation.totalChunks index

/-- What the loop yields from `index` on. -/
def manifest : ℕ → List FinalizationChunk → Except String (List FinalizationChunk)
  | index, [] => if index ≠ operation.totalChunks then .error "Incomplete recovery manifest" else .ok []
  | index, part :: parts =>
    if part.chunkIndex ≠ index ∨ index ≥ operation.totalChunks ∨ (part.byteSize : ℤ) ≠ expectedSize operation index ∨
        isHex 64 part.sha256 = false then
      .error "Invalid recovery manifest"
    else do
      let rest ← manifest (index + 1) parts
      return part :: rest

/-! ## The assembly -/

/-- What `fstat` says about a file. -/
structure Stats where
  isFile : Bool
  size : ℕ
  nlink : ℕ
  dev : ℕ
  ino : ℕ

/-- The file of a chunk: what `fstat` says before and after it is read, and what the reads give until the end. -/
structure ChunkFile where
  before : Stats
  data : Bytes
  after : Stats

/-- The files that can be opened, read and closed while the binding holds, and how much each read of them gives at
most. -/
structure Files where
  file : ℕ → Option ChunkFile
  count : ℕ → ℕ → ℕ

/-- `FINALIZER_BUFFER_BYTES` -/
def finalizerBufferBytes : ℕ := 64 * 1024

/-- How many bytes a read of a block gives. It gives none at the end of the file only. -/
def readCount (limit size partBytes available : ℕ) : ℕ :=
  min (max 1 limit) (min (min finalizerBufferBytes (size - partBytes)) available)

/-- The blocks read from the file of a chunk from its byte `partBytes` on, `bytes` being those of all chunks so far. -/
def readBlocks (count : ℕ → ℕ) (size partBytes bytes : ℕ) (block : ℕ) (data : Bytes) : Except String (List Bytes) :=
  if partBytes < size then
    if readCount (count block) size partBytes data.length = 0 then .error "Truncated finalization chunk"
    else if partBytes + readCount (count block) size partBytes data.length > size ∨
        bytes + readCount (count block) size partBytes data.length > operation.totalSize then
      .error "Finalization size exceeded"
    else do
      let rest ← readBlocks count size (partBytes + readCount (count block) size partBytes data.length)
        (bytes + readCount (count block) size partBytes data.length) (block + 1)
        (data.drop (readCount (count block) size partBytes data.length))
      return data.take (readCount (count block) size partBytes data.length) :: rest
  else .ok []
termination_by size - partBytes

variable (files : Files)

/-- What the loop yields from `index` on, after `bytes` bytes. -/
def sequence : ℕ → ℕ → List FinalizationChunk → Except String (List Bytes)
  | index, _, [] => if index ≠ operation.totalChunks then .error "Incomplete finalization manifest" else .ok []
  | index, bytes, part :: parts =>
    if index ≥ operation.totalChunks ∨ part.chunkIndex ≠ index ∨ (part.byteSize : ℤ) ≠ expectedSize operation index ∨
        isHex 64 part.sha256 = false then
      .error "Invalid finalization manifest"
    else
      match files.file index with
      | none => .error "Chunk unavailable"
      | some file =>
        if file.before.isFile = false ∨ file.before.size ≠ part.byteSize ∨ file.before.nlink ≠ 1 then
          .error "Chunk size or type mismatch"
        else do
          let blocks ← readBlocks operation (files.count index) part.byteSize 0 bytes 0 file.data
          if file.after.size ≠ part.byteSize ∨ file.after.dev ≠ file.before.dev ∨ file.after.ino ≠ file.before.ino ∨
              (Sha256.hexDigest blocks.flatten).map (fun c => c.val.toUInt16) ≠ part.sha256 then
            .error "Chunk integrity mismatch"
          else
            let rest ← sequence (index + 1) (bytes + part.byteSize) parts
            return blocks ++ rest

/-! ## What the loops ask for -/

/-- The rows are those of the layout: the indices below `totalChunks`, the size of each, and a hash. -/
structure Exact (rows : List FinalizationChunk) : Prop where
  indices : ∀ i, (∃ r ∈ rows, r.chunkIndex = i) ↔ i < operation.totalChunks
  sizes : ∀ r ∈ rows, (r.byteSize : ℤ) = expectedSize operation r.chunkIndex
  hashes : ∀ r ∈ rows, isHex 64 r.sha256 = true

/-- The bytes of the chunk. -/
def Files.content (r : FinalizationChunk) : Bytes :=
  (files.file r.chunkIndex).elim [] fun file => file.data.take r.byteSize

/-- The file of the chunk is there, as the row says, and stays so. -/
def Matches (r : FinalizationChunk) : Prop :=
  ∃ file, files.file r.chunkIndex = some file ∧ file.before.isFile = true ∧ file.before.nlink = 1 ∧
    file.before.size = r.byteSize ∧ file.after.size = r.byteSize ∧ file.after.dev = file.before.dev ∧
    file.after.ino = file.before.ino ∧ r.byteSize ≤ file.data.length ∧
    (Sha256.hexDigest (file.data.take r.byteSize)).map (fun c => c.val.toUInt16) = r.sha256

end Loops

section Proofs

variable {operation : FinalizationOperation} {files : Files}

/-! ## One file -/

theorem readCount_le {limit size partBytes available : ℕ} :
    readCount limit size partBytes available ≤ size - partBytes ∧
      readCount limit size partBytes available ≤ available := by
  unfold readCount
  omega

theorem readCount_pos {limit size partBytes available : ℕ} (hlt : partBytes < size) (h : 0 < available) :
    0 < readCount limit size partBytes available := by
  have hbuffer : 0 < finalizerBufferBytes := by decide
  unfold readCount
  omega

/-- The blocks that are read make up what is left of the chunk. -/
theorem flatten_of_readBlocks {count : ℕ → ℕ} {size partBytes bytes block : ℕ} {data : Bytes} {blocks : List Bytes}
    (h : readBlocks operation count size partBytes bytes block data = .ok blocks) :
    size - partBytes ≤ data.length ∧ blocks.flatten = data.take (size - partBytes) := by
  induction partBytes, bytes, block, data using readBlocks.induct operation count size generalizing blocks with
  | case1 partBytes bytes block data hlt hzero =>
    rw [readBlocks, if_pos hlt, if_pos hzero] at h
    cases h
  | case2 partBytes bytes block data hlt hread hover =>
    rw [readBlocks, if_pos hlt, if_neg hread, if_pos hover] at h
    cases h
  | case3 partBytes bytes block data hlt hread hwithin ih =>
    rw [readBlocks, if_pos hlt, if_neg hread, if_neg hwithin] at h
    obtain ⟨rest, hrest, hblocks⟩ := bind_eq_ok.mp h
    cases pure_eq_ok.mp hblocks
    obtain ⟨hlength, hflatten⟩ := ih hrest
    obtain ⟨hsize, havailable⟩ := @readCount_le (count block) size partBytes data.length
    generalize readCount (count block) size partBytes data.length = read at hlength hflatten hsize havailable
    rw [List.length_drop] at hlength
    refine ⟨by omega, ?_⟩
    have htake : data.take (read + (size - (partBytes + read))) =
        data.take read ++ (data.drop read).take (size - (partBytes + read)) := List.take_add
    have hsum : size - partBytes = read + (size - (partBytes + read)) := by omega
    rw [List.flatten_cons, hflatten, hsum, htake]
  | case4 partBytes bytes block data hend =>
    rw [readBlocks, if_neg hend] at h
    cases h
    have hzero : size - partBytes = 0 := by omega
    rw [hzero]
    exact ⟨Nat.zero_le _, rfl⟩

/-- A file that is long enough is read to the end. -/
theorem readBlocks_ok {count : ℕ → ℕ} {size partBytes bytes block : ℕ} {data : Bytes}
    (hlength : size - partBytes ≤ data.length) (htotal : bytes + (size - partBytes) ≤ operation.totalSize) :
    ∃ blocks, readBlocks operation count size partBytes bytes block data = .ok blocks := by
  induction partBytes, bytes, block, data using readBlocks.induct operation count size with
  | case1 partBytes bytes block data hlt hzero =>
    exact absurd hzero (readCount_pos hlt (by omega)).ne'
  | case2 partBytes bytes block data hlt hread hover =>
    have hle := (@readCount_le (count block) size partBytes data.length).1
    omega
  | case3 partBytes bytes block data hlt hread hwithin ih =>
    have hle := (@readCount_le (count block) size partBytes data.length).1
    obtain ⟨rest, hrest⟩ := ih (by rw [List.length_drop]; omega) (by omega)
    rw [readBlocks, if_pos hlt, if_neg hread, if_neg hwithin]
    exact ⟨_, bind_eq_ok.mpr ⟨rest, hrest, rfl⟩⟩
  | case4 partBytes bytes block data hend =>
    rw [readBlocks, if_neg hend]
    exact ⟨[], rfl⟩

/-! ## The loops -/

variable (operation) in
/-- The rows go on from `index` to the last chunk, as the layout says. -/
structure Follows (index : ℕ) (parts : List FinalizationChunk) : Prop where
  indices : parts.map FinalizationChunk.chunkIndex = List.range' index parts.length
  last : index + parts.length = operation.totalChunks
  sizes : ∀ r ∈ parts, (r.byteSize : ℤ) = expectedSize operation r.chunkIndex
  hashes : ∀ r ∈ parts, isHex 64 r.sha256 = true

theorem follows_nil {index : ℕ} : Follows operation index [] ↔ index = operation.totalChunks :=
  ⟨fun h => h.last, fun h => ⟨rfl, h, fun _ hr => absurd hr List.not_mem_nil, fun _ hr => absurd hr List.not_mem_nil⟩⟩

/-- The first row is the one that the loops expect, and the others go on after it. -/
theorem follows_cons {index : ℕ} {part : FinalizationChunk} {parts : List FinalizationChunk} :
    Follows operation index (part :: parts) ↔ (part.chunkIndex = index ∧ index < operation.totalChunks ∧
      (part.byteSize : ℤ) = expectedSize operation index ∧ isHex 64 part.sha256 = true) ∧
      Follows operation (index + 1) parts := by
  constructor
  · intro h
    have hindices := h.indices
    have hlast := h.last
    rw [List.map_cons, List.length_cons, List.range'_succ, List.cons.injEq] at hindices
    rw [List.length_cons] at hlast
    obtain ⟨hfirst, hrest⟩ := hindices
    have hsize := h.sizes part List.mem_cons_self
    rw [hfirst] at hsize
    exact ⟨⟨hfirst, by omega, hsize, h.hashes part List.mem_cons_self⟩, hrest, by omega,
      fun r hr => h.sizes r (List.mem_cons_of_mem part hr), fun r hr => h.hashes r (List.mem_cons_of_mem part hr)⟩
  · rintro ⟨⟨rfl, hlt, hsize, hhash⟩, h⟩
    have hlast := h.last
    refine ⟨?_, ?_, List.forall_mem_cons.mpr ⟨hsize, h.sizes⟩, List.forall_mem_cons.mpr ⟨hhash, h.hashes⟩⟩
    · rw [List.map_cons, List.length_cons, List.range'_succ, h.indices]
    · rw [List.length_cons]
      omega

/-- **The check before a recovery** yields the rows if they follow the layout, else it fails. -/
theorem manifest_eq_ok {index : ℕ} {parts out : List FinalizationChunk} :
    manifest operation index parts = .ok out ↔ Follows operation index parts ∧ out = parts := by
  induction parts generalizing index out with
  | nil =>
    rw [follows_nil, manifest]
    split
    next h => exact ⟨fun he => (nomatch he), fun he => absurd he.1 h⟩
    next h => exact ⟨fun he => ⟨not_not.mp h, (Except.ok.inj he).symm⟩, fun he => by rw [he.2]⟩
  | cons part parts ih =>
    rw [follows_cons, manifest]
    split
    next h =>
      refine ⟨fun he => (nomatch he), fun he => ?_⟩
      obtain ⟨⟨⟨hindex, hlt, hsize, hhash⟩, -⟩, -⟩ := he
      rcases h with h | h | h | h
      · exact absurd hindex h
      · exact absurd hlt (not_lt.mpr h)
      · exact absurd hsize h
      · exact absurd hhash (Bool.not_eq_true _ ▸ h)
    next h =>
      obtain ⟨hindex, hlt, hsize, hhash⟩ : part.chunkIndex = index ∧ index < operation.totalChunks ∧
          (part.byteSize : ℤ) = expectedSize operation index ∧ isHex 64 part.sha256 = true := by
        simpa only [not_or, not_not, not_le, ge_iff_le, Bool.not_eq_false, ne_eq] using h
      simp only [bind_eq_ok, ih, pure_eq_ok]
      constructor
      · rintro ⟨rest, ⟨hfollows, rfl⟩, rfl⟩
        exact ⟨⟨⟨hindex, hlt, hsize, hhash⟩, hfollows⟩, rfl⟩
      · rintro ⟨⟨-, hfollows⟩, rfl⟩
        exact ⟨parts, ⟨hfollows, rfl⟩, rfl⟩

/-- The rows that the assembly accepts follow the layout, and it yields the bytes of their files. -/
theorem follows_of_sequence {index bytes : ℕ} {parts : List FinalizationChunk} {out : List Bytes}
    (h : sequence operation files index bytes parts = .ok out) :
    Follows operation index parts ∧ (∀ r ∈ parts, Matches files r) ∧ out.flatten = (parts.map files.content).flatten := by
  induction parts generalizing index bytes out with
  | nil =>
    rw [sequence] at h
    split at h
    · cases h
    next hend =>
      cases h
      exact ⟨follows_nil.mpr (not_not.mp hend), fun r hr => absurd hr List.not_mem_nil, rfl⟩
  | cons part parts ih =>
    rw [sequence] at h
    split at h
    · cases h
    next hrow =>
      obtain ⟨hlt, hindex, hsize, hhash⟩ : index < operation.totalChunks ∧ part.chunkIndex = index ∧
          (part.byteSize : ℤ) = expectedSize operation index ∧ isHex 64 part.sha256 = true := by
        simpa only [not_or, not_not, not_le, ge_iff_le, Bool.not_eq_false, ne_eq] using hrow
      split at h
      · cases h
      next file hfile =>
        split at h
        · cases h
        next hbefore =>
          obtain ⟨hisFile, hlength, hnlink⟩ : file.before.isFile = true ∧ file.before.size = part.byteSize ∧
              file.before.nlink = 1 := by
            simpa only [not_or, not_not, Bool.not_eq_false, ne_eq] using hbefore
          obtain ⟨blocks, hblocks, h⟩ := bind_eq_ok.mp h
          split at h
          · cases h
          next hafter =>
            obtain ⟨hsize', hdev, hino, hdigest⟩ : file.after.size = part.byteSize ∧
                file.after.dev = file.before.dev ∧ file.after.ino = file.before.ino ∧
                (Sha256.hexDigest blocks.flatten).map (fun c => c.val.toUInt16) = part.sha256 := by
              simpa only [not_or, not_not, ne_eq] using hafter
            obtain ⟨rest, hrest, hout⟩ := bind_eq_ok.mp h
            cases pure_eq_ok.mp hout
            obtain ⟨hfollows, hmatches, hflatten⟩ := ih hrest
            obtain ⟨hlong, hread⟩ := flatten_of_readBlocks hblocks
            rw [Nat.sub_zero] at hlong hread
            rw [hread] at hdigest
            rw [← hindex] at hfile
            have hmatch : Matches files part :=
              ⟨file, hfile, hisFile, hnlink, hlength, hsize', hdev, hino, hlong, hdigest⟩
            have hcontent : files.content part = file.data.take part.byteSize := by
              rw [Files.content, hfile]
              rfl
            refine ⟨follows_cons.mpr ⟨⟨hindex, hlt, hsize, hhash⟩, hfollows⟩,
              List.forall_mem_cons.mpr ⟨hmatch, hmatches⟩, ?_⟩
            rw [List.flatten_append, hread, hflatten, List.map_cons, List.flatten_cons, hcontent]

/-- The chunks up to one fit into the file, and all before the last are full. -/
theorem bytes_step {index size : ℕ} (hfits : ∀ i < operation.totalChunks, i * operation.chunkSize ≤ operation.totalSize)
    (hlt : index < operation.totalChunks) (hsize : (size : ℤ) = expectedSize operation index) :
    index * operation.chunkSize + size ≤ operation.totalSize ∧
      (index + 1 < operation.totalChunks → index * operation.chunkSize + size = (index + 1) * operation.chunkSize) := by
  rw [expectedSize, ChunkSizes.lastOrFull] at hsize
  split at hsize
  next hlast =>
    have hsum : ((index * operation.chunkSize + size : ℕ) : ℤ) = operation.totalSize := by
      push_cast
      omega
    exact ⟨by omega, fun h => by omega⟩
  next hlast =>
    have hfull : size = operation.chunkSize := by exact_mod_cast hsize
    have hnext : index + 1 < operation.totalChunks := by omega
    have hsum : index * operation.chunkSize + size = (index + 1) * operation.chunkSize := by rw [hfull, Nat.succ_mul]
    exact ⟨hsum ▸ hfits (index + 1) hnext, fun _ => hsum⟩

/-- The assembly comes to its end on rows that follow the layout, with files as they say. -/
theorem sequence_ok {index bytes : ℕ} {parts : List FinalizationChunk}
    (hfits : ∀ i < operation.totalChunks, i * operation.chunkSize ≤ operation.totalSize)
    (hbytes : index < operation.totalChunks → bytes = index * operation.chunkSize)
    (hfollows : Follows operation index parts) (hmatches : ∀ r ∈ parts, Matches files r) :
    ∃ out, sequence operation files index bytes parts = .ok out := by
  induction parts generalizing index bytes with
  | nil =>
    rw [sequence, if_neg (not_not.mpr (follows_nil.mp hfollows))]
    exact ⟨[], rfl⟩
  | cons part parts ih =>
    obtain ⟨⟨hindex, hlt, hsize, hhash⟩, hrest⟩ := follows_cons.mp hfollows
    obtain ⟨hmatch, hmatches⟩ := List.forall_mem_cons.mp hmatches
    obtain ⟨file, hfile, hisFile, hnlink, hlength, hsize', hdev, hino, hlong, hdigest⟩ := hmatch
    obtain ⟨htotal, hnext⟩ := bytes_step hfits hlt hsize
    rw [← hbytes hlt] at htotal hnext
    obtain ⟨blocks, hblocks⟩ : ∃ blocks, readBlocks operation (files.count index) part.byteSize 0 bytes 0 file.data =
        .ok blocks := readBlocks_ok hlong htotal
    obtain ⟨-, hread⟩ := flatten_of_readBlocks hblocks
    rw [Nat.sub_zero] at hread
    obtain ⟨rest, hout⟩ := ih hnext hrest hmatches
    rw [hindex] at hfile
    have hrow : ¬(index ≥ operation.totalChunks ∨ part.chunkIndex ≠ index ∨
        (part.byteSize : ℤ) ≠ expectedSize operation index ∨ isHex 64 part.sha256 = false) := by
      simpa only [not_or, not_not, not_le, ge_iff_le, Bool.not_eq_false, ne_eq] using ⟨hlt, hindex, hsize, hhash⟩
    have hbefore : ¬(file.before.isFile = false ∨ file.before.size ≠ part.byteSize ∨ file.before.nlink ≠ 1) := by
      simpa only [not_or, not_not, Bool.not_eq_false, ne_eq] using ⟨hisFile, hlength, hnlink⟩
    have hafter : ¬(file.after.size ≠ part.byteSize ∨ file.after.dev ≠ file.before.dev ∨
        file.after.ino ≠ file.before.ino ∨
        (Sha256.hexDigest blocks.flatten).map (fun c => c.val.toUInt16) ≠ part.sha256) := by
      rw [hread]
      simpa only [not_or, not_not, ne_eq] using ⟨hsize', hdev, hino, hdigest⟩
    rw [sequence, if_neg hrow, hfile]
    dsimp only
    rw [if_neg hbefore]
    refine ⟨blocks ++ rest, bind_eq_ok.mpr ⟨blocks, hblocks, ?_⟩⟩
    rw [if_neg hafter]
    exact bind_eq_ok.mpr ⟨rest, hout, rfl⟩

/-! ## All rows -/

/-- Rows in the order of their indices follow the layout from the first on if they are exactly its rows. -/
theorem follows_iff_exact {rows parts : List FinalizationChunk} (hperm : parts.Perm rows)
    (hsorted : parts.Pairwise fun a b => a.chunkIndex < b.chunkIndex) :
    Follows operation 0 parts ↔ Exact operation rows := by
  have hmem {r : FinalizationChunk} : r ∈ parts ↔ r ∈ rows := hperm.mem_iff
  constructor
  · intro h
    refine ⟨fun i => ?_, fun r hr => h.sizes r (hmem.mpr hr), fun r hr => h.hashes r (hmem.mpr hr)⟩
    have hlast := h.last
    rw [Nat.zero_add] at hlast
    have hindices : i ∈ parts.map FinalizationChunk.chunkIndex ↔ i < operation.totalChunks := by
      rw [h.indices, hlast, List.mem_range'_1]
      omega
    rw [← hindices, List.mem_map]
    simp only [hmem]
  · intro h
    have hmap : (parts.map FinalizationChunk.chunkIndex).Pairwise (· < ·) := List.pairwise_map.mpr hsorted
    have hrange : (List.range operation.totalChunks).Pairwise (· < ·) := List.pairwise_lt_range
    have heq : parts.map FinalizationChunk.chunkIndex = List.range operation.totalChunks := by
      refine List.Perm.eq_of_pairwise (fun a b _ _ hab hba => absurd (lt_trans hab hba) (lt_irrefl a)) hmap hrange ?_
      refine (List.perm_ext_iff_of_nodup (hmap.imp ne_of_lt) (hrange.imp ne_of_lt)).mpr fun i => ?_
      rw [List.mem_range, ← h.indices i, List.mem_map]
      simp only [hmem]
    have hlength : parts.length = operation.totalChunks := by
      rw [← List.length_map FinalizationChunk.chunkIndex, heq, List.length_range]
    refine ⟨?_, by omega, fun r hr => h.sizes r (hmem.mp hr), fun r hr => h.hashes r (hmem.mp hr)⟩
    rw [heq, hlength, List.range_eq_range']

/-- The full chunks before any chunk of an exact manifest fit into the file. -/
theorem Exact.fits {rows : List FinalizationChunk} (h : Exact operation rows) :
    ∀ i < operation.totalChunks, i * operation.chunkSize ≤ operation.totalSize := by
  intro i hi
  obtain ⟨n, hn⟩ : ∃ n, operation.totalChunks = n + 1 := ⟨operation.totalChunks - 1, by omega⟩
  obtain ⟨r, hr, hindex⟩ := (h.indices n).mpr (by omega)
  have hsize := h.sizes r hr
  rw [hindex, expectedSize, ChunkSizes.lastOrFull, if_pos (by omega)] at hsize
  have hlast : n * operation.chunkSize ≤ operation.totalSize := by
    zify
    omega
  exact (Nat.mul_le_mul_right _ (by omega)).trans hlast

/-- **The manifest is read exactly.** The pages give every row once and in order, however many more queries are
allowed; the check before a recovery takes exactly the rows of the layout, and the assembly those whose files are as
they say, of which it yields the bytes. -/
theorem chunks_read_exactly (table : JsString → Rows) (operation : FinalizationOperation) (files : Files) :
    ∃ parts, parts.Perm (table operation.id).rows ∧ parts.Pairwise (fun a b => a.chunkIndex < b.chunkIndex) ∧
      (∀ queries, parts.length < queries → chunks table operation.id queries = .ok (some parts)) ∧
      (∀ out, manifest operation 0 parts = .ok out ↔ Exact operation (table operation.id).rows ∧ out = parts) ∧
      ((∃ out, sequence operation files 0 0 parts = .ok out) ↔
        Exact operation (table operation.id).rows ∧ ∀ r ∈ (table operation.id).rows, Matches files r) ∧
      ∀ out, sequence operation files 0 0 parts = .ok out → out.flatten = (parts.map files.content).flatten := by
  have hdistinct := (table operation.id).distinct
  have hperm := @Keyset.perm_ordered _ (fun r : FinalizationChunk => (r.chunkIndex : ℤ)) (table operation.id).rows
  have hpair := Keyset.pairwise_ordered hdistinct
  have hall : (Keyset.ordered (fun r => (r.chunkIndex : ℤ)) (table operation.id).rows).filter
      (fun r => -1 < (r.chunkIndex : ℤ)) =
      Keyset.ordered (fun r => (r.chunkIndex : ℤ)) (table operation.id).rows :=
    List.filter_eq_self.mpr fun r _ => decide_eq_true (by omega)
  generalize hparts : Keyset.ordered (fun r => (r.chunkIndex : ℤ)) (table operation.id).rows = parts at hperm hpair hall
  have hsorted : parts.Pairwise fun a b => a.chunkIndex < b.chunkIndex := hpair.imp Nat.cast_lt.mp
  have hexact : Follows operation 0 parts ↔ Exact operation (table operation.id).rows :=
    follows_iff_exact hperm hsorted
  refine ⟨parts, hperm, hsorted, fun queries hqueries => ?_, fun out => ?_, ?_, fun out h => (follows_of_sequence h).2.2⟩
  · have hlimit : 0 < 128 := by decide
    have hread := Keyset.read_eq hdistinct hlimit queries (-1) (by rwa [hparts, hall])
    rw [chunks, if_pos operation.uuid, hread, hparts, hall]
  · rw [manifest_eq_ok, hexact]
  · constructor
    · rintro ⟨out, h⟩
      obtain ⟨hfollows, hmatches, -⟩ := follows_of_sequence h
      exact ⟨hexact.mp hfollows, fun r hr => hmatches r (hperm.mem_iff.mpr hr)⟩
    · rintro ⟨h, hmatches⟩
      exact sequence_ok h.fits (fun _ => (Nat.zero_mul _).symm) (hexact.mpr h) fun r hr =>
        hmatches r (hperm.mem_iff.mp hr)

end Proofs

end ChunkManifest

end HomeCloud
