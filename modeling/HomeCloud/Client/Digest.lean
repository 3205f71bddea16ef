import HomeCloud.Client.WholeSha256
import Mathlib.Data.List.GetD
import Mathlib.Tactic.Ring

/-!
# The digest of a file is SHA-256

* `Absorbed`: the hash after the bytes of a message.
* **`compress_eq`**: the compression of a block, in JavaScript's arithmetic.
* **`Absorbed.update`**, `Absorbed.digest`: an update in any phase of a block, and the padding.
* **`sha256_of_updates`**: the digest does not depend on the pieces, and the digest of a file.
-/

namespace HomeCloud

open Javascript Sha256

namespace WholeSha256

/-! ## Words -/

theorem word_rotateRight (x : ℤ) {n : ℕ} (h0 : 0 < n) (h : n < 32) :
    word (rotateRight x n) = (word x).rotateRight n := by
  have hmod : n % 32 = n := Nat.mod_eq_of_lt h
  have hsub : (32 - n) % 32 = 32 - n := Nat.mod_eq_of_lt (by omega)
  rw [rotateRight, word_or, word_ushr, word_shl, hmod, hsub, BitVec.rotateRight_eq_rotateRightAux_of_lt h]
  rfl

theorem word_roundConstants : ROUND_CONSTANTS.map word = roundConstants := by decide

/-- Four bytes make a word. -/
theorem word_bytes (b₀ b₁ b₂ b₃ : UInt8) :
    word (or (or (or (shl b₀.toNat 24) (shl b₁.toNat 16)) (shl b₂.toNat 8)) b₃.toNat) =
      wordOf [b₀, b₁, b₂, b₃] := by
  have hb : ∀ b : UInt8, b.toNat < 2 ^ 8 := fun b => b.toNat_lt
  have hword : ∀ b : UInt8, word (b.toNat : ℤ) = BitVec.ofNat 32 b.toNat := fun b =>
    BitVec.ofInt_natCast ..
  have hjoin : ((b₀.toNat <<< 24 ||| b₁.toNat <<< 16) ||| b₂.toNat <<< 8) ||| b₃.toNat =
      256 * (256 * (256 * b₀.toNat + b₁.toNat) + b₂.toNat) + b₃.toNat := by
    have h₀ : b₀.toNat <<< 24 ||| b₁.toNat <<< 16 = (b₀.toNat <<< 8 + b₁.toNat) <<< 16 := by
      rw [Nat.shiftLeft_add_eq_or_of_lt (hb b₁), Nat.shiftLeft_or_distrib, ← Nat.shiftLeft_add]
    have h₁ : ∀ n : ℕ, n <<< 16 ||| b₂.toNat <<< 8 = (n <<< 8 + b₂.toNat) <<< 8 := fun n => by
      rw [Nat.shiftLeft_add_eq_or_of_lt (hb b₂), Nat.shiftLeft_or_distrib, ← Nat.shiftLeft_add]
    rw [h₀, h₁, ← Nat.shiftLeft_add_eq_or_of_lt (hb b₃)]
    simp only [Nat.shiftLeft_eq]
    ring
  have h₀ := hb b₀
  have h₁ := hb b₁
  have h₂ := hb b₂
  have h₃ := hb b₃
  apply BitVec.eq_of_toNat_eq
  simp only [word_or, word_shl, hword, wordOf, List.foldl_cons, List.foldl_nil, BitVec.toNat_or,
    BitVec.toNat_shiftLeft, BitVec.toNat_ofNat, Nat.mul_zero, Nat.zero_add]
  rw [← hjoin, Nat.mod_eq_of_lt (a := b₀.toNat) (by omega), Nat.mod_eq_of_lt (a := b₁.toNat) (by omega),
    Nat.mod_eq_of_lt (a := b₂.toNat) (by omega), Nat.mod_eq_of_lt (a := b₃.toNat) (by omega)]
  norm_num only
  have hlt : ∀ n k : ℕ, n < 2 ^ 8 → k ≤ 24 → n <<< k < 2 ^ 32 := by
    intro n k hn hk
    calc n <<< k = n * 2 ^ k := Nat.shiftLeft_eq n k
      _ < 2 ^ 8 * 2 ^ k := Nat.mul_lt_mul_of_pos_right hn (Nat.two_pow_pos k)
      _ ≤ 2 ^ 8 * 2 ^ 24 := Nat.mul_le_mul_left _ (Nat.pow_le_pow_right (by decide) hk)
  have e₀ := Nat.mod_eq_of_lt (hlt _ 24 h₀ (by decide))
  have e₁ := Nat.mod_eq_of_lt (hlt _ 16 h₁ (by decide))
  have e₂ := Nat.mod_eq_of_lt (hlt _ 8 h₂ (by decide))
  norm_num only at e₀ e₁ e₂
  rw [e₀, e₁, e₂]
  refine (Nat.mod_eq_of_lt ?_).symm
  exact Nat.or_lt_two_pow (n := 32) (Nat.or_lt_two_pow (Nat.or_lt_two_pow (hlt _ 24 h₀ (by decide))
    (hlt _ 16 h₁ (by decide))) (hlt _ 8 h₂ (by decide))) (by omega)

/-! ## The message schedule -/

/-- The next word of the message schedule. -/
def nextWord (ws : List Word) : Word :=
  smallSigma1 (ws.getD 1 0) + ws.getD 6 0 + smallSigma0 (ws.getD 14 0) + ws.getD 15 0

theorem extend_succ : ∀ n ws, Sha256.extend (n + 1) ws =
    nextWord (Sha256.extend n ws) :: Sha256.extend n ws
  | 0, _ => rfl
  | n + 1, ws => by
    rw [Sha256.extend, extend_succ n]
    rfl

theorem length_extend (n : ℕ) (ws : List Word) : (Sha256.extend n ws).length = ws.length + n := by
  induction n with
  | zero => rfl
  | succ n ih =>
    rw [extend_succ, List.length_cons, ih]
    omega

namespace IncrementalSha256

variable {words : List ℤ} {block : List Word}

/-- Reading a list back to front. -/
theorem getD_reverse {ws : List Word} {i j : ℕ} (h : i + j + 1 = ws.length) :
    ws.reverse.getD i 0 = ws.getD j 0 := by
  rw [List.getD_eq_getElem?_getD, List.getD_eq_getElem?_getD, List.getElem?_reverse (by omega)]
  have he : ws.length - 1 - i = j := by omega
  rw [he]

/-- The first numbers of the schedule are the words. -/
structure Spells (words : List ℤ) (ws : List Word) : Prop where
  length : words.length = 64
  reads : ∀ i < ws.length, word (words.getD i 0) = ws.getD i 0

theorem Spells.extended {k : ℕ} (hb : block.length = 16) (hk : 16 + k < 64)
    (h : Spells words (Sha256.extend k block.reverse).reverse) :
    Spells (extend words (16 + k)) (Sha256.extend (k + 1) block.reverse).reverse := by
  obtain ⟨hlen, hw⟩ := h
  have hext : (Sha256.extend k block.reverse).length = 16 + k := by
    rw [length_extend, List.length_reverse, hb]
  simp only [List.length_reverse, hext] at hw
  have hread : ∀ j, j < 16 + k → word (words.getD (16 + k - (j + 1)) 0) =
      (Sha256.extend k block.reverse).getD j 0 := by
    intro j hj
    rw [hw _ (by omega), getD_reverse (j := j) (by omega)]
  refine ⟨by rw [IncrementalSha256.extend, List.length_set, hlen], fun i hi => ?_⟩
  rw [List.length_reverse, extend_succ, List.length_cons, hext] at hi
  rw [extend_succ, List.reverse_cons, List.getD_eq_getElem?_getD, List.getD_eq_getElem?_getD]
  by_cases he : i = 16 + k
  · subst he
    have hnew : word ((extend words (16 + k)).getD (16 + k) 0) =
        nextWord (Sha256.extend k block.reverse) := by
      have h1 := hread 1 (by omega)
      have h6 := hread 6 (by omega)
      have h14 := hread 14 (by omega)
      have h15 := hread 15 (by omega)
      simp only [IncrementalSha256.extend, List.getD_eq_getElem?_getD,
        List.getElem?_set_self (hlen.symm ▸ hk), Option.getD_some, word_uint32, word_add, word_xor,
        word_ushr, word_rotateRight _ (show 0 < 7 by decide) (by decide),
        word_rotateRight _ (show 0 < 18 by decide) (by decide),
        word_rotateRight _ (show 0 < 17 by decide) (by decide),
        word_rotateRight _ (show 0 < 19 by decide) (by decide)] at h1 h6 h14 h15 ⊢
      rw [h1, h6, h14, h15]
      simp only [nextWord, smallSigma0, smallSigma1, List.getD_eq_getElem?_getD]
    rw [List.getElem?_append_right (by rw [List.length_reverse, hext]), List.length_reverse, hext,
      Nat.sub_self, ← List.getD_eq_getElem?_getD, hnew]
    rfl
  · have hlt : i < 16 + k := by omega
    rw [List.getElem?_append_left (by rw [List.length_reverse, hext]; exact hlt),
      IncrementalSha256.extend, List.getElem?_set_ne (Ne.symm he), ← List.getD_eq_getElem?_getD,
      ← List.getD_eq_getElem?_getD]
    exact hw i hlt

/-- **The loop over the words 16 to 63 extends the schedule.** -/
theorem Spells.schedule (hb : block.length = 16) (h : Spells words block) :
    Spells ((List.range' 16 48).foldl extend words) (Sha256.schedule block) := by
  have hloop : ∀ k, 16 + k ≤ 64 → Spells ((List.range' 16 k).foldl extend words)
      (Sha256.extend k block.reverse).reverse := by
    intro k
    induction k with
    | zero =>
      intro _
      rw [Sha256.extend, List.reverse_reverse]
      exact h
    | succ k ih =>
      intro hk
      rw [List.range'_concat, List.foldl_append, Nat.one_mul]
      exact (ih (by omega)).extended hb (by omega)
  exact hloop 48 (by decide)

variable {bytes : List UInt8} {offset : ℕ}

theorem length_blockAt (i : ℕ) : (blockAt bytes i).length = 16 := by
  rw [blockAt, List.length_map, List.length_range]

/-- Four bytes of a string. -/
theorem take_four {i : ℕ} (h : i + 4 ≤ bytes.length) : (bytes.drop i).take 4 =
    [bytes.getD i 0, bytes.getD (i + 1) 0, bytes.getD (i + 2) 0, bytes.getD (i + 3) 0] := by
  rw [List.drop_eq_getElem_cons (by omega), List.drop_eq_getElem_cons (by omega),
    List.drop_eq_getElem_cons (by omega), List.drop_eq_getElem_cons (by omega)]
  simp only [List.take_succ_cons, List.take_zero]
  rw [List.getD_eq_getElem _ _ (by omega), List.getD_eq_getElem _ _ (by omega),
    List.getD_eq_getElem _ _ (by omega), List.getD_eq_getElem _ _ (by omega)]

/-- **The loop over the words 0 to 15 loads the block.** -/
theorem spells_load (hlen : words.length = 64) (ho : offset + 64 ≤ bytes.length) :
    Spells ((List.range' 0 16).foldl (load bytes offset) words) (blockAt (bytes.drop offset) 0) := by
  have hloop : ∀ k, k ≤ 16 → ((List.range' 0 k).foldl (load bytes offset) words).length = 64 ∧
      ∀ i < k, word (((List.range' 0 k).foldl (load bytes offset) words).getD i 0) =
        (blockAt (bytes.drop offset) 0).getD i 0 := by
    intro k
    induction k with
    | zero => exact fun _ => ⟨hlen, fun i hi => absurd hi (Nat.not_lt_zero i)⟩
    | succ k ih =>
      intro hk
      obtain ⟨hl, hw⟩ := ih (by omega)
      rw [List.range'_concat, List.foldl_append, Nat.one_mul, Nat.zero_add]
      refine ⟨by rw [List.foldl_cons, List.foldl_nil, load, List.length_set, hl], fun i hi => ?_⟩
      rw [List.foldl_cons, List.foldl_nil, load, List.getD_eq_getElem?_getD]
      by_cases he : k = i
      · subst he
        have hat : offset + (64 * 0 + 4 * k) = offset + k * 4 := by omega
        have hfour := take_four (show offset + k * 4 + 4 ≤ bytes.length by omega)
        rw [← hat, ← List.drop_drop] at hfour
        rw [List.getElem?_set_self (by omega), Option.getD_some, word_uint32]
        simp only [byteAt]
        rw [word_bytes, ← hat, ← hfour, blockAt, List.getD_eq_getElem?_getD, List.getElem?_map,
          List.getElem?_range (by omega)]
        rfl
      · rw [List.getElem?_set_ne he, ← List.getD_eq_getElem?_getD]
        exact hw i (by omega)
  obtain ⟨hl, hw⟩ := hloop 16 le_rfl
  refine ⟨hl, fun i hi => hw i ?_⟩
  rwa [length_blockAt] at hi

/-! ## Rounds -/

/-- The variables that hold the words of a state. -/
def vars (s : State) : Vars :=
  ⟨s.a.toNat, s.b.toNat, s.c.toNat, s.d.toNat, s.e.toNat, s.f.toNat, s.g.toNat, s.h.toNat⟩

/-- **One round.** -/
theorem round_vars (s : State) (i : ℕ) : round words (vars s) i =
    vars (Sha256.round s (word (ROUND_CONSTANTS.getD i 0), word (words.getD i 0))) := by
  have hr : ∀ (x : ℤ) (n : ℕ) (_ : 0 < n) (_ : n < 32), word (rotateRight x n) =
      (word x).rotateRight n := fun x n h0 h => word_rotateRight x h0 h
  simp only [round, vars, Sha256.round, uint32, word_add, word_xor, word_and, word_not, word_toNat,
    hr _ 6 (by decide) (by decide), hr _ 11 (by decide) (by decide), hr _ 25 (by decide) (by decide),
    hr _ 2 (by decide) (by decide), hr _ 13 (by decide) (by decide), hr _ 22 (by decide) (by decide)]
  rfl

/-- **The rounds of a block.** -/
theorem rounds_vars {ws : List Word} (hw : Spells words ws) (hl : ws.length = 64) (s : State) :
    (List.range' 0 64).foldl (round words) (vars s) =
      vars ((roundConstants.zip ws).foldl Sha256.round s) := by
  have hzip : roundConstants.zip ws = (List.range' 0 64).map fun i =>
      (word (ROUND_CONSTANTS.getD i 0), word (words.getD i 0)) := by
    refine List.ext_getElem (by rw [List.length_zip, hl]; rfl) fun i hi hi' => ?_
    have hi64 : i < 64 := by simpa using hi'
    rw [List.getElem_zip, List.getElem_map, List.getElem_range', Nat.zero_add, Nat.one_mul,
      hw.reads i (by omega)]
    congr 1
    · rw [List.getD_eq_getElem _ _ hi64]
      simp only [← word_roundConstants, List.getElem_map]
      rfl
    · rw [List.getD_eq_getElem _ _ (by omega)]
  have hfold : ∀ (l : List ℕ) (s : State), l.foldl (round words) (vars s) =
      vars ((l.map fun i => (word (ROUND_CONSTANTS.getD i 0), word (words.getD i 0))).foldl
        Sha256.round s) := by
    intro l
    induction l with
    | nil => exact fun _ => rfl
    | cons i l ih =>
      intro s
      rw [List.foldl_cons, round_vars, ih]
      rfl
  rw [hzip, hfold]

/-! ## Blocks -/

/-- The numbers that spell a state. -/
def numbers (s : State) : List ℤ :=
  [s.a.toNat, s.b.toNat, s.c.toNat, s.d.toNat, s.e.toNat, s.f.toNat, s.g.toNat, s.h.toNat]

/-- The words of two states added up. -/
theorem numbers_add (s r : State) :
    [uint32 ((numbers s).getD 0 0 + (vars r).a), uint32 ((numbers s).getD 1 0 + (vars r).b),
      uint32 ((numbers s).getD 2 0 + (vars r).c), uint32 ((numbers s).getD 3 0 + (vars r).d),
      uint32 ((numbers s).getD 4 0 + (vars r).e), uint32 ((numbers s).getD 5 0 + (vars r).f),
      uint32 ((numbers s).getD 6 0 + (vars r).g), uint32 ((numbers s).getD 7 0 + (vars r).h)] =
    numbers ⟨s.a + r.a, s.b + r.b, s.c + r.c, s.d + r.d, s.e + r.e, s.f + r.f, s.g + r.g,
      s.h + r.h⟩ := by
  simp only [numbers, vars, List.getD_cons_zero, List.getD_cons_succ, uint32, word_add, word_toNat]

/-- The hash is in the state `st`. -/
structure Has (s : IncrementalSha256) (st : State) : Prop where
  state : s.state = numbers st
  schedule : s.schedule.length = 64

/-- All but the state is the same. -/
structure SameTail (s s' : IncrementalSha256) : Prop where
  tail : s'.tail = s.tail
  tailBytes : s'.tailBytes = s.tailBytes
  byteLength : s'.byteLength = s.byteLength

variable {s : IncrementalSha256} {st : State}

/-- **The compression of a block.** -/
theorem compress_eq (h : s.Has st) (ho : offset + 64 ≤ bytes.length) :
    (s.compress bytes offset).Has (Sha256.compress st (blockAt (bytes.drop offset) 0)) ∧
      s.SameTail (s.compress bytes offset) := by
  have hw := (spells_load h.schedule ho).schedule (length_blockAt 0)
  have hlen : (Sha256.schedule (blockAt (bytes.drop offset) 0)).length = 64 := by
    rw [Sha256.schedule, List.length_reverse, length_extend, List.length_reverse, length_blockAt]
  have hvars : (⟨s.state.getD 0 0, s.state.getD 1 0, s.state.getD 2 0, s.state.getD 3 0,
      s.state.getD 4 0, s.state.getD 5 0, s.state.getD 6 0, s.state.getD 7 0⟩ : Vars) = vars st := by
    rw [h.state]
    rfl
  rw [compress, Sha256.compress]
  dsimp only
  rw [hvars, rounds_vars hw hlen, h.state]
  have hlength := hw.length
  refine ⟨⟨numbers_add .., ?_⟩, rfl, rfl, rfl⟩
  dsimp only
  exact hlength

/-- **The loop over the full blocks.** -/
theorem compressBlocks_eq (h : s.Has st) (ho : offset ≤ bytes.length) :
    (compressBlocks bytes s offset).1.Has (blocks st (bytes.drop offset)) ∧
      s.SameTail (compressBlocks bytes s offset).1 ∧
      (compressBlocks bytes s offset).2 = offset + 64 * ((bytes.length - offset) / 64) := by
  induction s, offset using compressBlocks.induct bytes generalizing st with
  | case1 s offset hle ih =>
    rw [compressBlocks, if_pos hle]
    obtain ⟨hcompress, hsame⟩ := compress_eq h hle
    obtain ⟨hhas, htail, hoff⟩ := ih hcompress hle
    have hsplit : bytes.drop offset = (bytes.drop offset).take 64 ++ bytes.drop (offset + 64) := by
      rw [← List.drop_drop, List.take_append_drop]
    have hlen : ((bytes.drop offset).take 64).length = 64 := by
      rw [List.length_take, List.length_drop]
      omega
    have hblock : blockAt (bytes.drop offset) 0 = blockAt ((bytes.drop offset).take 64) 0 := by
      rw [hsplit, blockAt_append (by omega), ← hsplit]
    refine ⟨?_, ⟨htail.tail.trans hsame.tail, htail.tailBytes.trans hsame.tailBytes,
      htail.byteLength.trans hsame.byteLength⟩, by rw [hoff]; omega⟩
    rw [hsplit, blocks_append (by rw [hlen]), blocks_of_length hlen, ← hblock]
    exact hhas
  | case2 s offset hle =>
    rw [compressBlocks, if_neg hle]
    refine ⟨?_, ⟨rfl, rfl, rfl⟩, by omega⟩
    rw [blocks_of_lt (by rw [List.length_drop]; omega)]
    exact h

/-- The loop over the padded bytes. -/
theorem compressPadded_eq (h : s.Has st) (ho : offset ≤ bytes.length)
    (hlen : (bytes.length - offset) % 64 = 0) :
    (compressPadded bytes s offset).Has (blocks st (bytes.drop offset)) := by
  induction s, offset using compressPadded.induct bytes generalizing st with
  | case1 s offset hlt ih =>
    rw [compressPadded, if_pos hlt]
    have hle : offset + 64 ≤ bytes.length := by omega
    have hsplit : bytes.drop offset = (bytes.drop offset).take 64 ++ bytes.drop (offset + 64) := by
      rw [← List.drop_drop, List.take_append_drop]
    have htake : ((bytes.drop offset).take 64).length = 64 := by
      rw [List.length_take, List.length_drop]
      omega
    have hblock : blockAt (bytes.drop offset) 0 = blockAt ((bytes.drop offset).take 64) 0 := by
      rw [hsplit, blockAt_append (by omega), ← hsplit]
    rw [hsplit, blocks_append (by rw [htake]), blocks_of_length htake, ← hblock]
    exact ih (compress_eq h hle).1 hle (by omega)
  | case2 s offset hlt =>
    rw [compressPadded, if_neg hlt]
    rw [blocks_of_lt (by rw [List.length_drop]; omega)]
    exact h

/-! ## Updates -/

/-- The hash has compressed the blocks of `full` and holds the bytes of `part`. -/
structure Holds (s : IncrementalSha256) (full part : List UInt8) : Prop where
  aligned : full.length % 64 = 0
  short : part.length < 64
  has : s.Has (blocks .initial full)
  tail : s.tail.length = 64
  tailBytes : s.tailBytes = part.length
  taken : s.tail.take part.length = part

theorem holds_new : new.Holds [] [] where
  aligned := rfl
  short := by decide
  has := ⟨rfl, rfl⟩
  tail := rfl
  tailBytes := rfl
  taken := rfl

variable {full part : List UInt8}

theorem length_setBytes {target source : List UInt8} {offset : ℕ}
    (h : offset + source.length ≤ target.length) :
    (setBytes target source offset).length = target.length := by
  simp only [setBytes, List.length_append, List.length_take, List.length_drop]
  omega

theorem take_setBytes {target source : List UInt8} {offset : ℕ}
    (h : offset + source.length ≤ target.length) :
    (setBytes target source offset).take (offset + source.length) = target.take offset ++ source := by
  have hlen : (target.take offset ++ source).length = offset + source.length := by
    rw [List.length_append, List.length_take]
    omega
  rw [setBytes, ← hlen, List.take_left]

/-- **Bytes come into the partial block**: it is full and compressed, or takes them all. -/
theorem Holds.fillTail (h : s.Holds full part) (bytes : List UInt8) :
    ∃ full' part', full' ++ part' = full ++ part ++ bytes.take (s.fillTail bytes).2 ∧
      (s.fillTail bytes).1.Holds full' part' ∧
      (s.fillTail bytes).1.byteLength = s.byteLength ∧ (s.fillTail bytes).2 ≤ bytes.length ∧
      (part' = [] ∨ (s.fillTail bytes).2 = bytes.length) := by
  have hshort := h.short
  have htb := h.tailBytes
  unfold IncrementalSha256.fillTail
  by_cases hpos : s.tailBytes > 0
  · rw [if_pos hpos]
    dsimp only
    set n := min (64 - s.tailBytes) bytes.length with hn
    have hlen : (bytes.take n).length = n := by
      rw [List.length_take]
      omega
    have hfits : s.tailBytes + (bytes.take n).length ≤ s.tail.length := by
      rw [hlen, h.tail]
      omega
    have hset : (setBytes s.tail (bytes.take n) s.tailBytes).take (s.tailBytes + n) =
        part ++ bytes.take n := by
      have htake := take_setBytes hfits
      rw [hlen] at htake
      rw [htake, htb, h.taken]
    have hset64 : (setBytes s.tail (bytes.take n) s.tailBytes).length = 64 := by
      rw [length_setBytes hfits, h.tail]
    by_cases hfull : s.tailBytes + n = 64
    · -- The partial block is full.
      rw [if_pos hfull]
      rw [hfull] at hset
      have hblock : (part ++ bytes.take n).length = 64 := by
        rw [List.length_append, hlen]
        omega
      have htail : setBytes s.tail (bytes.take n) s.tailBytes = part ++ bytes.take n :=
        (List.take_of_length_le (by rw [hset64])).symm.trans hset
      rw [htail]
      have h₁ : ({ s with tail := part ++ bytes.take n, tailBytes := s.tailBytes + n } :
          IncrementalSha256).Has (blocks .initial full) := ⟨h.has.state, h.has.schedule⟩
      have hfull : 0 + 64 ≤ (part ++ bytes.take n).length := by rw [hblock]
      obtain ⟨hcompress, hsame⟩ := compress_eq h₁ hfull
      rw [List.drop_zero, ← blocks_of_length hblock, ← blocks_append h.aligned] at hcompress
      generalize IncrementalSha256.compress _ (part ++ bytes.take n) 0 = s₁ at hcompress hsame ⊢
      have haligned := h.aligned
      refine ⟨full ++ (part ++ bytes.take n), [], ?_, ?_, hsame.byteLength, by omega, .inl rfl⟩
      · rw [List.append_nil, List.append_assoc]
      · exact
          { aligned := by
              rw [List.length_append, hblock]
              omega
            short := by decide
            has := ⟨hcompress.state, hcompress.schedule⟩
            tail := (congrArg List.length hsame.tail).trans hblock
            tailBytes := rfl
            taken := rfl }
    · -- There is room left, so all bytes are in.
      rw [if_neg hfull]
      have hall : n = bytes.length := by omega
      have hlen' : (part ++ bytes.take n).length = s.tailBytes + n := by
        rw [List.length_append, hlen, htb]
      refine ⟨full, part ++ bytes.take n, by rw [List.append_assoc], ?_, rfl, by omega, .inr hall⟩
      exact
        { aligned := h.aligned
          short := by omega
          has := ⟨h.has.state, h.has.schedule⟩
          tail := hset64
          tailBytes := hlen'.symm
          taken := by rw [hlen', hset] }
  · rw [if_neg hpos]
    have hnil : part = [] := List.length_eq_zero_iff.mp (by omega)
    exact ⟨full, part, by rw [List.take_zero, List.append_nil], h, rfl, Nat.zero_le _, .inl hnil⟩

/-- **The hash takes bytes in.** -/
theorem Holds.update (h : s.Holds full part) (bytes : List UInt8) :
    ∃ full' part', full' ++ part' = full ++ part ++ bytes ∧ (s.update bytes).Holds full' part' ∧
      (s.update bytes).byteLength = s.byteLength + bytes.length := by
  have h₀ : ({ s with byteLength := s.byteLength + bytes.length } : IncrementalSha256).Holds full part :=
    ⟨h.aligned, h.short, ⟨h.has.state, h.has.schedule⟩, h.tail, h.tailBytes, h.taken⟩
  obtain ⟨full₁, part₁, hcat, h₁, hbytes, hle, hrest⟩ := h₀.fillTail bytes
  unfold IncrementalSha256.update
  generalize IncrementalSha256.fillTail { s with byteLength := s.byteLength + bytes.length } bytes = x
    at hcat h₁ hbytes hle hrest ⊢
  obtain ⟨s₁, offset⟩ := x
  dsimp only at hcat h₁ hbytes hle hrest ⊢
  obtain ⟨hhas, hsame, hoff⟩ := compressBlocks_eq h₁.has hle
  generalize compressBlocks bytes s₁ offset = y at hhas hsame hoff ⊢
  obtain ⟨s₂, offset'⟩ := y
  dsimp only at hhas hsame hoff ⊢
  have hbytes₂ : s₂.byteLength = s.byteLength + bytes.length := hsame.byteLength.trans hbytes
  have htail₂ : s₂.tail.length = 64 := by rw [hsame.tail, h₁.tail]
  by_cases hlt : offset' < bytes.length
  · -- Bytes are left, so the partial block was empty.
    rw [if_pos hlt]
    have hnil : part₁ = [] := hrest.resolve_right (by omega)
    subst hnil
    rw [List.append_nil] at hcat
    have hmiddle : bytes.drop offset = (bytes.drop offset).take (offset' - offset) ++ bytes.drop offset' := by
      have hdrop : bytes.drop offset' = (bytes.drop offset).drop (offset' - offset) := by
        rw [List.drop_drop]
        congr 1
        omega
      rw [hdrop, List.take_append_drop]
    have hlen : ((bytes.drop offset).take (offset' - offset)).length = offset' - offset := by
      rw [List.length_take, List.length_drop]
      omega
    have hpart : (bytes.drop offset').length = bytes.length - offset' := List.length_drop ..
    have hblocks : blocks (blocks .initial full₁) (bytes.drop offset) =
        blocks .initial (full₁ ++ (bytes.drop offset).take (offset' - offset)) := by
      rw [hmiddle, blocks_append (by rw [hlen]; omega), blocks_of_lt (by rw [hpart]; omega), ← hmiddle,
        blocks_append h₁.aligned]
    have hfits : 0 + (bytes.drop offset').length ≤ s₂.tail.length := by
      rw [hpart, htail₂]
      omega
    refine ⟨full₁ ++ (bytes.drop offset).take (offset' - offset), bytes.drop offset', ?_, ?_, hbytes₂⟩
    · rw [List.append_assoc, ← hmiddle, hcat, List.append_assoc, List.take_append_drop]
    · have haligned := h₁.aligned
      exact
        { aligned := by
            rw [List.length_append, hlen]
            omega
          short := by omega
          has := ⟨hblocks ▸ hhas.state, hhas.schedule⟩
          tail := by rw [length_setBytes hfits, htail₂]
          tailBytes := hpart.symm
          taken := by
            have htake := take_setBytes hfits
            rwa [Nat.zero_add, List.take_zero, List.nil_append] at htake }
  · rw [if_neg hlt]
    rcases hrest with hnil | hall
    · -- The bytes end with a block.
      subst hnil
      have hlen : (bytes.drop offset).length % 64 = 0 := by
        rw [List.length_drop]
        omega
      refine ⟨full₁ ++ bytes.drop offset, [], ?_, ?_, hbytes₂⟩
      · rw [List.append_nil] at hcat ⊢
        rw [hcat, List.append_assoc, List.take_append_drop]
      · have haligned := h₁.aligned
        exact
          { aligned := by
              rw [List.length_append]
              omega
            short := by decide
            has := blocks_append h₁.aligned (s := .initial) _ ▸ hhas
            tail := htail₂
            tailBytes := hsame.tailBytes.trans h₁.tailBytes
            taken := List.take_zero }
    · -- The bytes have all gone into the partial block.
      subst hall
      rw [List.drop_length] at hhas
      rw [List.take_length] at hcat
      exact ⟨full₁, part₁, hcat, ⟨h₁.aligned, h₁.short, hhas, htail₂, hsame.tailBytes.trans h₁.tailBytes,
        by rw [hsame.tail, h₁.taken]⟩, hbytes₂⟩

/-! ## The digest -/

/-- The hash has taken the message in. -/
def Absorbs (s : IncrementalSha256) (message : List UInt8) : Prop :=
  ∃ full part, full ++ part = message ∧ s.Holds full part ∧ s.byteLength = message.length

theorem absorbs_new : new.Absorbs [] := ⟨[], [], rfl, holds_new, rfl⟩

theorem Absorbs.update {message : List UInt8} (h : s.Absorbs message) (bytes : List UInt8) :
    (s.update bytes).Absorbs (message ++ bytes) := by
  obtain ⟨full, part, rfl, hholds, hlen⟩ := h
  obtain ⟨full', part', hcat, hholds', hlen'⟩ := hholds.update bytes
  exact ⟨full', part', hcat, hholds', by rw [hlen', hlen, ← List.length_append]⟩

/-- The bit length is written as FIPS 180-4 has it. -/
theorem encode_eq {n : ℕ} (h : n < 2 ^ 53) : encodeSha256BitLength n = .ok (lengthBytes (8 * n)) := by
  have hsafe : isSafeInteger n = true := decide_eq_true (by omega)
  have hbyte : ∀ x : ℕ, UInt8.ofNat (x &&& 255) = UInt8.ofNat x := fun x => by
    rw [Nat.and_two_pow_sub_one_eq_mod x 8]
    exact UInt8.ofNat_mod_size
  have hrange : List.range 8 = [0, 1, 2, 3, 4, 5, 6, 7] := rfl
  rw [encodeSha256BitLength, if_pos hsafe, Nat.mul_comm n 8]
  refine congrArg Except.ok ?_
  simp only [List.foldl_cons, List.foldl_nil, encodeStep, hbyte, Nat.shiftRight_eq_div_pow,
    Nat.div_div_eq_div_mul, lengthBytes, List.replicate, List.set, hrange, List.map_cons, List.map_nil]
  norm_num

/-- **The padding of the code is that of FIPS 180-4.** -/
theorem padded_eq {n : ℕ} (h : s.Holds full part) (hn : n = if s.tailBytes < 56 then 64 else 128) :
    full ++ setBytes ((setBytes (List.replicate n 0) (s.tail.take s.tailBytes) 0).set s.tailBytes 0x80)
      (lengthBytes (8 * (full ++ part).length)) (n - 8) = pad (full ++ part) := by
  have hshort := h.short
  have haligned := h.aligned
  have hr := h.tailBytes
  have hn' : n = 64 ∧ part.length < 56 ∨ n = 128 ∧ 56 ≤ part.length := by
    rw [hr] at hn
    split_ifs at hn with hlt
    · exact .inl ⟨hn, hlt⟩
    · exact .inr ⟨hn, by omega⟩
  have hzeros : (119 - (full ++ part).length % 64) % 64 = n - part.length - 9 := by
    rw [List.length_append]
    omega
  rw [hr, h.taken]
  have hfirst : setBytes (List.replicate n (0 : UInt8)) part 0 = part ++ List.replicate (n - part.length) 0 := by
    rw [setBytes, List.take_zero, List.nil_append, Nat.zero_add, List.drop_replicate]
  obtain ⟨z, hz⟩ : ∃ z, n - part.length = 1 + (z + 8) := ⟨n - part.length - 9, by omega⟩
  have hz9 : n - part.length - 9 = z := by omega
  have hone : (part ++ List.replicate (n - part.length) (0 : UInt8)).set part.length 0x80 =
      part ++ 0x80 :: List.replicate z 0 ++ List.replicate 8 0 := by
    rw [hz, ← List.replicate_append_replicate, ← List.replicate_append_replicate,
      List.set_append_right _ _ le_rfl, Nat.sub_self]
    simp [List.append_assoc]
  have hlen : (part ++ 0x80 :: List.replicate z (0 : UInt8)).length = n - 8 := by
    simp only [List.length_append, List.length_cons, List.length_replicate]
    omega
  have hlb : (lengthBytes (8 * (full ++ part).length)).length = 8 := by
    rw [lengthBytes, List.length_map, List.length_range]
  rw [hfirst, hone, setBytes, ← hlen, List.take_left, hlb, ← List.drop_drop, List.drop_left,
    List.drop_replicate, pad, hzeros, hz9]
  simp [List.append_assoc]

/-- **The digest is SHA-256.** -/
theorem Absorbs.digest {message : List UInt8} (h : s.Absorbs message) (hlen : message.length < 2 ^ 53) :
    s.digest = .ok (hexDigest message) := by
  obtain ⟨full, part, rfl, hholds, hbytes⟩ := h
  have hpad := padded_eq hholds rfl
  have hencode := encode_eq hlen
  have hword : ∀ w : Word, hexWord w.toNat = hexDigits 8 w.toNat := fun w =>
    leftpad_toDigits 7 w.toNat w.isLt
  unfold IncrementalSha256.digest
  rw [hbytes, hencode]
  have hn : ∀ n : ℕ, n = (if s.tailBytes < 56 then 64 else 128) →
      ((setBytes (List.replicate n (0 : UInt8)) (s.tail.take s.tailBytes) 0).set s.tailBytes 0x80).length = n := by
    intro n hn
    have hshort := hholds.short
    have hr := hholds.tailBytes
    have htaken := hholds.taken
    rw [List.length_set, length_setBytes, List.length_replicate]
    rw [List.length_replicate, hr, htaken, hn]
    split_ifs <;> omega
  change Except.ok ((compressPadded (setBytes _ (lengthBytes _) (List.length _ - 8)) s 0).state.map
    hexWord).flatten = _
  rw [hn _ rfl]
  generalize setBytes _ (lengthBytes (8 * (full ++ part).length)) _ = padded at hpad ⊢
  have hlen64 : (padded.length - 0) % 64 = 0 := by
    have hl := length_pad (full ++ part)
    have ha := hholds.aligned
    rw [← hpad, List.length_append] at hl
    omega
  have hstate := (compressPadded_eq hholds.has (Nat.zero_le _) hlen64).state
  rw [List.drop_zero, ← blocks_append hholds.aligned, hpad] at hstate
  rw [hstate, hexDigest_eq rfl]
  simp only [numbers, List.map_cons, List.map_nil, hword]

end IncrementalSha256

/-! ## Files -/

open IncrementalSha256

/-- What is read of a slice in full is the slice. -/
def HashEnv.Reads (env : HashEnv) (content : List UInt8) : Prop :=
  ∀ start stop bytes, env.read start stop = .ok bytes → bytes.length = stop - start →
    bytes = (content.take stop).drop start

/-- Nothing goes wrong: the signal is not raised and slices are read in full. -/
structure HashEnv.Quiet (env : HashEnv) (size : ℕ) : Prop where
  calm : ∀ n, env.aborted n = false
  read : ∀ start stop, start ≤ stop → stop ≤ size → ∃ bytes, env.read start stop = .ok bytes ∧
    bytes.length = stop - start

section Files

variable {env : HashEnv} {size n : ℕ} {content message : List UInt8} {α β : Type}

/-- A run gives a value with the property, or something has gone wrong. -/
def Gives (env : HashEnv) (size : ℕ) (r : Except HashError (α × ℕ)) (P : α → Prop) : Prop :=
  match r with
  | .ok (a, _) => P a
  | .error _ => ¬ env.Quiet size

theorem Gives.bind {x : Hashing α} {f : α → Hashing β} {P : α → Prop} {Q : β → Prop}
    (hx : Gives env size (x n) P) (hf : ∀ a n', P a → Gives env size (f a n') Q) :
    Gives env size ((x >>= f) n) Q := by
  change Gives env size ((x n).bind fun r => f r.1 r.2) Q
  cases hr : x n with
  | ok r =>
    rw [hr] at hx
    exact hf r.1 r.2 hx
  | error e =>
    rw [hr] at hx
    exact hx

theorem gives_checkAbort : Gives env size (checkAbort env n) fun _ => True := by
  have hrun : checkAbort env n = if env.aborted n then .error .aborted else .ok ((), n + 1) := by
    change (if env.aborted n = true then throw HashError.aborted else pure () : Hashing Unit) (n + 1) = _
    split_ifs <;> rfl
  rw [hrun]
  split_ifs with ha
  · intro hq
    rw [hq.calm n] at ha
    cases ha
  · exact trivial

theorem gives_isLate : Gives env size (isLate env n) fun _ => True := trivial

theorem gives_readSlice {start stop : ℕ} (hle : start ≤ stop) (hs : stop ≤ size) :
    Gives env size (readSlice env start stop n) fun bytes => env.read start stop = .ok bytes := by
  refine .bind gives_checkAbort fun _ n' _ => ?_
  cases hr : env.read start stop with
  | ok bytes => exact rfl
  | error e =>
    intro hq
    obtain ⟨bytes, hb, -⟩ := hq.read start stop hle hs
    cases hr.symm.trans hb

/-- A piece of a string and the rest. -/
theorem drop_piece (bytes : List UInt8) (offset k : ℕ) : bytes.drop offset =
    (bytes.take (min bytes.length (offset + k))).drop offset ++ bytes.drop (offset + k) := by
  have hmin : min bytes.length (offset + k) - offset = min k (bytes.drop offset).length := by
    rw [List.length_drop]
    omega
  rw [List.drop_take, hmin, ← List.take_take, List.take_length, ← List.drop_drop, List.take_append_drop]

/-- **The loop over the pieces of a slice.** -/
theorem gives_hashSlice (bytes : List UInt8) {hash : IncrementalSha256} (offset : ℕ)
    (h : hash.Absorbs message) : Gives env size (hashSlice env bytes hash offset n)
      fun hash' => hash'.Absorbs (message ++ bytes.drop offset) := by
  induction hash, offset using hashSlice.induct bytes generalizing message n with
  | case1 hash offset hlt ih =>
    rw [hashSlice, dif_pos hlt]
    have hrest := fun n => ih (n := n) (h.update _)
    rw [List.append_assoc, ← drop_piece] at hrest
    refine .bind gives_checkAbort fun _ _ _ => .bind gives_isLate fun late _ _ => ?_
    dsimp only
    split_ifs
    · exact .bind gives_checkAbort fun _ n' _ => hrest n'
    · exact hrest _
  | case2 hash offset hlt =>
    rw [hashSlice, dif_neg hlt, List.drop_of_length_le (by omega), List.append_nil]
    exact h

/-- **The loop over the slices of a file.** -/
theorem gives_hashSlices (hreads : env.Reads content) {hash : IncrementalSha256} (start : ℕ)
    (h : hash.Absorbs (content.take start)) :
    Gives env content.length (hashSlices env content.length hash start n)
      fun hash' => hash'.Absorbs content := by
  obtain ⟨k, hk⟩ : ∃ k, k = content.length - start := ⟨_, rfl⟩
  induction k using Nat.strong_induction_on generalizing start hash n with
  | _ k ih =>
    unfold hashSlices
    split_ifs with hlt
    · have hpos : 0 < SHA256_READ_BYTES := by decide
      refine .bind gives_checkAbort fun _ _ _ =>
        .bind (gives_readSlice (by omega) (by omega)) fun bytes _ hread =>
        .bind gives_checkAbort fun _ n' _ => ?_
      dsimp only
      split_ifs with hshort
      · intro hq
        obtain ⟨bytes', hread', hlen⟩ := hq.read start (min content.length (start + SHA256_READ_BYTES))
          (by omega) (by omega)
        cases hread.symm.trans hread'
        exact hshort hlen
      · have hbytes := hreads _ _ bytes hread (not_not.mp hshort)
        refine .bind (gives_hashSlice bytes 0 h) fun hash' n' hhash => ?_
        have htake : content.take start ++ bytes.drop 0 = content.take (start + SHA256_READ_BYTES) := by
          have hle : start ≤ min content.length (start + SHA256_READ_BYTES) := by omega
          have hmin : content.take (min content.length (start + SHA256_READ_BYTES)) =
              content.take (start + SHA256_READ_BYTES) := by
            rw [Nat.min_comm, ← List.take_take, List.take_length]
          rw [List.drop_zero, hbytes, ← hmin]
          conv_rhs => rw [← List.take_append_drop start (content.take _), List.take_take,
            Nat.min_eq_left hle]
        rw [htake] at hhash
        exact ih _ (by omega) _ hhash rfl
    · rwa [List.take_of_length_le (by omega)] at h

/-- **The digest of a file.** -/
theorem gives_hashFileSha256 (hreads : env.Reads content) (hsize : content.length < 2 ^ 53) :
    Gives env content.length (hashFileSha256 env content.length n)
      fun digest => digest = hexDigest content := by
  refine .bind gives_checkAbort fun _ n' _ => ?_
  have hsafe : isSafeInteger content.length = true := decide_eq_true (by omega)
  rw [hsafe]
  refine .bind (gives_hashSlices hreads 0 absorbs_new) fun hash n' hhash => ?_
  refine .bind gives_checkAbort fun _ n' _ => ?_
  rw [hhash.digest hsize]
  exact rfl

/-- A file that is too large is refused. -/
theorem hashFileSha256_large (hsize : 2 ^ 53 ≤ size) (n : ℕ) :
    ∃ e, hashFileSha256 env size n = .error e := by
  have hsafe : isSafeInteger size = false := decide_eq_false (by omega)
  unfold hashFileSha256
  rw [hsafe]
  change ∃ e, (checkAbort env n).bind (fun _ => Except.error HashError.range) = Except.error e
  cases checkAbort env n with
  | ok r => exact ⟨.range, rfl⟩
  | error e => exact ⟨e, rfl⟩

end Files

/-- **The browser's incremental SHA-256 is SHA-256.** The digest of a string of less than `2 ^ 53`
bytes does not depend on the pieces it is hashed in; and a run on a file gives the digest of its
content, unless the signal is raised or a read fails. A file of `2 ^ 53` bytes is refused. -/
theorem sha256_of_updates :
    (∀ pieces : List (List UInt8), pieces.flatten.length < 2 ^ 53 →
      (pieces.foldl update new).digest = .ok (hexDigest pieces.flatten)) ∧
    ∀ (content : List UInt8) (env : HashEnv), env.Reads content →
      (∀ n digest n', hashFileSha256 env content.length n = .ok (digest, n') →
        digest = hexDigest content) ∧
      (env.Quiet content.length → content.length < 2 ^ 53 → ∀ n, ∃ n',
        hashFileSha256 env content.length n = .ok (hexDigest content, n')) := by
  refine ⟨fun pieces hlen => ?_, fun content env hreads => ⟨fun n digest n' hrun => ?_,
    fun hq hsize n => ?_⟩⟩
  · have hall : ∀ (pieces : List (List UInt8)) (s : IncrementalSha256) (message : List UInt8),
        s.Absorbs message → (pieces.foldl update s).Absorbs (message ++ pieces.flatten) := by
      intro pieces
      induction pieces with
      | nil =>
        intro s message h
        rwa [List.flatten_nil, List.append_nil]
      | cons bytes pieces ih =>
        intro s message h
        rw [List.flatten_cons, ← List.append_assoc]
        exact ih _ _ (h.update bytes)
    exact (hall pieces new [] absorbs_new).digest hlen
  · have hsize : content.length < 2 ^ 53 := by
      by_contra hlarge
      have hfails : ∃ e, hashFileSha256 env content.length n = .error e :=
        hashFileSha256_large (not_lt.mp hlarge) n
      obtain ⟨e, he⟩ := hfails
      cases hrun.symm.trans he
    have h := gives_hashFileSha256 (n := n) hreads hsize
    rwa [hrun] at h
  · have h := gives_hashFileSha256 (n := n) hreads hsize
    cases hr : hashFileSha256 env content.length n with
    | ok r =>
      rw [hr] at h
      exact ⟨r.2, congrArg (fun d => Except.ok (d, r.2)) h⟩
    | error e =>
      rw [hr] at h
      exact absurd hq h

/-- A file whose slices can be read. -/
def quietEnv (content : List UInt8) : HashEnv where
  aborted := fun _ => false
  read := fun start stop => .ok ((content.take stop).drop start)
  late := fun _ => false

theorem sha256_of_abc :
    ([[0x61], [], [0x62, 0x63]].foldl update new).digest = .ok (hexDigest [0x61, 0x62, 0x63]) ∧
      ∃ n', hashFileSha256 (quietEnv [0x61, 0x62, 0x63]) 3 0 =
        .ok (hexDigest [0x61, 0x62, 0x63], n') := by
  have hread : (quietEnv [0x61, 0x62, 0x63]).Reads [0x61, 0x62, 0x63] := fun start stop bytes h _ =>
    (Except.ok.inj h).symm
  have hquiet : (quietEnv [0x61, 0x62, 0x63]).Quiet 3 :=
    ⟨fun _ => rfl, fun start stop hle hs => ⟨_, rfl, by
      rw [List.length_drop, List.length_take]
      simp only [List.length_cons, List.length_nil]
      omega⟩⟩
  exact ⟨sha256_of_updates.1 [[0x61], [], [0x62, 0x63]] (by decide),
    (sha256_of_updates.2 _ _ hread).2 hquiet (by decide) 0⟩

end WholeSha256

end HomeCloud
