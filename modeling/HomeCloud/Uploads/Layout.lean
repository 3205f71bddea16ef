import HomeCloud.Schema
import Mathlib.Algebra.BigOperators.Ring.Finset
import Mathlib.Algebra.Order.BigOperators.Group.Finset

/-!
# The layout of an upload

An upload is cut into chunks of one size, the last of which holds what is left.

* `chunkLength`: the bytes of a chunk; **`sum_chunkLength`**: they add up to the file.
* `UploadSession.Accounted`: the counters of a session agree with its chunk rows.
* **`Accounted.size_le`**, **`Accounted.size_eq_iff`**: when all bytes are there.
-/

namespace HomeCloud

open Finset

/-! ## Chunks -/

/-- The bytes of the chunk `i`. -/
def chunkLength (totalSize chunkSize totalChunks i : ℕ) : ℕ :=
  if i = totalChunks - 1 then totalSize - i * chunkSize else chunkSize

/-- The sizes are positive and the chunks as many as the size needs. -/
structure LaidOut (totalSize chunkSize totalChunks : ℕ) : Prop where
  total_pos : 0 < totalSize
  size_pos : 0 < chunkSize
  chunks : totalChunks = (totalSize + chunkSize - 1) / chunkSize

section Layout

variable {totalSize chunkSize totalChunks i : ℕ}

theorem LaidOut.lower (h : LaidOut totalSize chunkSize totalChunks) :
    (totalChunks - 1) * chunkSize < totalSize := by
  obtain ⟨ht, hc, rfl⟩ := h
  have hdiv := Nat.div_mul_le_self (totalSize + chunkSize - 1) chunkSize
  rw [Nat.sub_mul, one_mul]
  omega

theorem LaidOut.upper (h : LaidOut totalSize chunkSize totalChunks) :
    totalSize ≤ totalChunks * chunkSize := by
  obtain ⟨ht, hc, rfl⟩ := h
  have hdiv := Nat.lt_div_mul_add (a := totalSize + chunkSize - 1) hc
  omega

theorem LaidOut.pos (h : LaidOut totalSize chunkSize totalChunks) : 0 < totalChunks := by
  have hu := h.upper
  rcases Nat.eq_zero_or_pos totalChunks with h0 | h0
  · have ht := h.total_pos
    rw [h0, Nat.zero_mul] at hu
    omega
  · exact h0

theorem LaidOut.chunkLength_pos (h : LaidOut totalSize chunkSize totalChunks) :
    0 < chunkLength totalSize chunkSize totalChunks i := by
  unfold chunkLength
  split_ifs with hi
  · have hl := h.lower
    rw [hi]
    omega
  · exact h.size_pos

/-- **The chunks add up to the file.** -/
theorem sum_chunkLength (h : LaidOut totalSize chunkSize totalChunks) :
    ∑ i ∈ range totalChunks, chunkLength totalSize chunkSize totalChunks i = totalSize := by
  obtain ⟨n, rfl⟩ := Nat.exists_eq_succ_of_ne_zero (Nat.ne_of_gt h.pos)
  have hl := h.lower
  rw [sum_range_succ]
  have hinit : ∑ i ∈ range n, chunkLength totalSize chunkSize (n + 1) i = n * chunkSize := by
    have hfull : ∀ i ∈ range n, chunkLength totalSize chunkSize (n + 1) i = chunkSize := by
      intro i hi
      have hlt := mem_range.mp hi
      exact if_neg (by omega)
    rw [sum_const_nat hfull, card_range]
  rw [hinit, chunkLength, if_pos (by omega)]
  simp only [Nat.succ_eq_add_one, Nat.add_sub_cancel] at hl
  omega

end Layout

/-! ## Accounting -/

namespace UploadSession

/-- The bytes that the chunk `i` of the session has. -/
def chunkLength (s : UploadSession) (i : ℕ) : ℕ :=
  HomeCloud.chunkLength s.totalSize s.chunkSize s.totalChunks i

/-- The row of the chunk `i`. -/
def chunk (s : UploadSession) (i : ℕ) : Option UploadChunk :=
  s.chunks.find? fun c => c.chunkIndex = i

/-- The columns of a session that are never changed. -/
structure SameUpload (s s' : UploadSession) : Prop where
  userId : s'.userId = s.userId
  filename : s'.filename = s.filename
  totalSize : s'.totalSize = s.totalSize
  chunkSize : s'.chunkSize = s.chunkSize
  totalChunks : s'.totalChunks = s.totalChunks
  expectedSha256 : s'.expectedSha256 = s.expectedSha256
  workspaceId : s'.workspaceId = s.workspaceId
  origin : s'.origin = s.origin
  expiresAt : s'.expiresAt = s.expiresAt

theorem SameUpload.refl (s : UploadSession) : s.SameUpload s :=
  ⟨rfl, rfl, rfl, rfl, rfl, rfl, rfl, rfl, rfl⟩

theorem SameUpload.trans {s₁ s₂ s₃ : UploadSession} (h : s₁.SameUpload s₂)
    (h' : s₂.SameUpload s₃) : s₁.SameUpload s₃ where
  userId := h'.userId.trans h.userId
  filename := h'.filename.trans h.filename
  totalSize := h'.totalSize.trans h.totalSize
  chunkSize := h'.chunkSize.trans h.chunkSize
  totalChunks := h'.totalChunks.trans h.totalChunks
  expectedSha256 := h'.expectedSha256.trans h.expectedSha256
  workspaceId := h'.workspaceId.trans h.workspaceId
  origin := h'.origin.trans h.origin
  expiresAt := h'.expiresAt.trans h.expiresAt

/-- A session of the legacy uploads is not moved to the SSD. -/
theorem SameUpload.not_ssd {s s' : UploadSession} (h : s.SameUpload s') (hl : s.workspaceId = .legacy) :
    s'.workspaceId ≠ .ssd := fun hssd => by
  cases (h.workspaceId.trans hl).symm.trans hssd

theorem SameUpload.chunkLength {s s' : UploadSession} (h : s.SameUpload s') (i : ℕ) :
    s'.chunkLength i = s.chunkLength i := by
  simp only [UploadSession.chunkLength, h.totalSize, h.chunkSize, h.totalChunks]

/-- Only references of the session are changed. -/
structure Unmoved (s s' : UploadSession) : Prop extends SameUpload s s' where
  status : s'.status = s.status
  chunks : s'.chunks = s.chunks
  uploadedCount : s'.uploadedCount = s.uploadedCount
  uploadedSize : s'.uploadedSize = s.uploadedSize
  accountingInitialized : s'.accountingInitialized = s.accountingInitialized
  parent : s'.parentId = s.parentId ∨ s'.parentId = none

theorem Unmoved.refl (s : UploadSession) : s.Unmoved s :=
  ⟨.refl s, rfl, rfl, rfl, rfl, rfl, .inl rfl⟩

theorem Unmoved.active {s s' : UploadSession} (h : s.Unmoved s') : s'.active = s.active := by
  rw [UploadSession.active, UploadSession.active, h.status]

/-- The sizes of the session are those of a layout. -/
abbrev LaidOut (s : UploadSession) : Prop :=
  HomeCloud.LaidOut s.totalSize s.chunkSize s.totalChunks

theorem SameUpload.laidOut {s s' : UploadSession} (h : s.SameUpload s') (hl : s.LaidOut) :
    s'.LaidOut := by
  rw [LaidOut, h.totalSize, h.chunkSize, h.totalChunks]
  exact hl

/-- The chunk row is for a chunk of the session and has the size of that chunk. -/
def Fits (s : UploadSession) (c : UploadChunk) : Prop :=
  c.chunkIndex < s.totalChunks ∧ c.byteSize = s.chunkLength c.chunkIndex

/-- The counters of the session agree with its chunk rows, which fit the layout. -/
structure Accounted (s : UploadSession) : Prop where
  count : s.uploadedCount = s.chunks.length
  size : s.uploadedSize = (s.chunks.map (·.byteSize)).sum
  nodup : (s.chunks.map (·.chunkIndex)).Nodup
  fits : ∀ c ∈ s.chunks, s.Fits c

theorem chunk_eq_none {s : UploadSession} {i : ℕ} (h : s.chunk i = none) :
    i ∉ s.chunks.map (·.chunkIndex) := by
  intro hi
  obtain ⟨c, hc, rfl⟩ := List.mem_map.mp hi
  simpa using List.find?_eq_none.mp h c hc

theorem chunk_eq_some {s : UploadSession} {i : ℕ} {c : UploadChunk} (h : s.chunk i = some c) :
    c ∈ s.chunks ∧ c.chunkIndex = i :=
  ⟨List.mem_of_find?_eq_some h, by simpa using List.find?_some h⟩

/-- The row of a new chunk is counted. -/
theorem Accounted.add {s s' : UploadSession} {c : UploadChunk} (h : s.Accounted)
    (hs : s.SameUpload s') (hc : s.Fits c) (hn : s.chunk c.chunkIndex = none)
    (hchunks : s'.chunks = s.chunks ++ [c]) (hcount : s'.uploadedCount = s.uploadedCount + 1)
    (hsize : s'.uploadedSize = s.uploadedSize + c.byteSize) : s'.Accounted where
  count := by rw [hcount, hchunks, h.count, List.length_append, List.length_singleton]
  size := by rw [hsize, hchunks, h.size, List.map_append, List.sum_append, List.map_singleton,
    List.sum_singleton]
  nodup := by
    rw [hchunks, List.map_append, List.map_singleton]
    refine List.nodup_append.mpr ⟨h.nodup, List.nodup_singleton _, fun a ha b hb heq => ?_⟩
    rw [heq, List.mem_singleton.mp hb] at ha
    exact chunk_eq_none hn ha
  fits c' hc' := by
    rw [hchunks, List.mem_append, List.mem_singleton] at hc'
    rw [Fits, hs.totalChunks, hs.chunkLength]
    rcases hc' with hold | rfl
    · exact h.fits c' hold
    · exact hc

theorem Accounted.of_same {s s' : UploadSession} (h : s.Accounted) (hs : s.SameUpload s')
    (hchunks : s'.chunks = s.chunks) (hcount : s'.uploadedCount = s.uploadedCount)
    (hsize : s'.uploadedSize = s.uploadedSize) : s'.Accounted where
  count := by rw [hcount, hchunks, h.count]
  size := by rw [hsize, hchunks, h.size]
  nodup := hchunks ▸ h.nodup
  fits c hc := by
    rw [Fits, hs.totalChunks, hs.chunkLength]
    exact h.fits c (hchunks ▸ hc)

/-- What holds of every session: its sizes are those of a layout, one whose chunks have not been counted
is none on the SSD and has no chunk rows, and while it is active the chunk rows that have been agree with
the counters. -/
structure Sound (s : UploadSession) : Prop where
  laidOut : s.LaidOut
  initialized : s.workspaceId = .ssd → s.accountingInitialized = true
  uncounted : s.accountingInitialized = false → s.chunks = []
  accounted : s.active = true → s.accountingInitialized = true → s.Accounted

theorem Unmoved.sound {s s' : UploadSession} (hu : s.Unmoved s') (h : s.Sound) : s'.Sound where
  laidOut := hu.laidOut h.laidOut
  initialized hssd := hu.accountingInitialized.trans (h.initialized (hu.workspaceId.symm.trans hssd))
  uncounted hn := hu.chunks.trans (h.uncounted (hu.accountingInitialized ▸ hn))
  accounted ha hi := (h.accounted (hu.active ▸ ha) (hu.accountingInitialized ▸ hi)).of_same
    hu.toSameUpload hu.chunks hu.uploadedCount hu.uploadedSize

/-- The uploaded bytes are those of the chunks that are there. -/
theorem Accounted.size_eq_sum {s : UploadSession} (h : s.Accounted) :
    s.uploadedSize = ∑ i ∈ (s.chunks.map (·.chunkIndex)).toFinset, s.chunkLength i := by
  rw [h.size, List.sum_toFinset _ h.nodup, List.map_map]
  exact congrArg List.sum (List.map_congr_left fun c hc => (h.fits c hc).2)

theorem Accounted.subset_range {s : UploadSession} (h : s.Accounted) :
    (s.chunks.map (·.chunkIndex)).toFinset ⊆ range s.totalChunks := fun i hi => by
  obtain ⟨c, hc, rfl⟩ := List.mem_map.mp (List.mem_toFinset.mp hi)
  exact mem_range.mpr (h.fits c hc).1

theorem Accounted.size_le {s : UploadSession} (h : s.Accounted) (hl : s.LaidOut) :
    s.uploadedSize ≤ s.totalSize := by
  rw [h.size_eq_sum, ← sum_chunkLength hl]
  exact sum_le_sum_of_subset h.subset_range

/-- **All bytes are there exactly when every chunk is.** -/
theorem Accounted.size_eq_iff {s : UploadSession} (h : s.Accounted) (hl : s.LaidOut) :
    s.uploadedSize = s.totalSize ↔ ∀ i < s.totalChunks, (s.chunk i).isSome := by
  have hiff : (∀ i < s.totalChunks, (s.chunk i).isSome) ↔
      range s.totalChunks ⊆ (s.chunks.map (·.chunkIndex)).toFinset := by
    refine forall_congr' fun i => imp_congr mem_range.symm ?_
    rw [List.mem_toFinset]
    refine ⟨fun hs => ?_, fun hm => ?_⟩
    · obtain ⟨c, hc⟩ := Option.isSome_iff_exists.mp hs
      exact List.mem_map.mpr ⟨c, chunk_eq_some hc⟩
    · by_contra hn
      exact chunk_eq_none (Option.not_isSome_iff_eq_none.mp hn) hm
  rw [hiff]
  refine ⟨fun heq => ?_, fun hsub => ?_⟩
  · intro i hi
    by_contra hn
    have hlt : ∑ j ∈ (s.chunks.map (·.chunkIndex)).toFinset, s.chunkLength j <
        ∑ j ∈ range s.totalChunks, s.chunkLength j :=
      sum_lt_sum_of_subset h.subset_range hi hn hl.chunkLength_pos fun _ _ _ => Nat.zero_le _
    rw [← h.size_eq_sum, heq] at hlt
    exact absurd (sum_chunkLength hl) (by unfold UploadSession.chunkLength at hlt; omega)
  · rw [h.size_eq_sum, subset_antisymm h.subset_range hsub]
    exact sum_chunkLength hl

end UploadSession

end HomeCloud
