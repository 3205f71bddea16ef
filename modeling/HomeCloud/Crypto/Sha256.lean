import Mathlib.Algebra.Group.Nat.Defs
import Mathlib.Data.Nat.Notation
import Mathlib.Tactic.Common

/-!
# SHA-256

The hash function of FIPS 180-4 on byte strings; a digest is the number its 32 bytes spell.

* `pad`, `schedule`, `compress`: padding, the message schedule and the compression of one block.
* `sha256`.
* `blocks`, **`blocks_append`**: the state after the blocks of a string, block by block.
* `hexDigest`: the digest in hexadecimal.
-/

namespace Sha256

/-- A word of 32 bits. -/
abbrev Word := BitVec 32

def ch (x y z : Word) : Word := (x &&& y) ^^^ (~~~x &&& z)

def maj (x y z : Word) : Word := (x &&& y) ^^^ (x &&& z) ^^^ (y &&& z)

def bigSigma0 (x : Word) : Word := x.rotateRight 2 ^^^ x.rotateRight 13 ^^^ x.rotateRight 22

def bigSigma1 (x : Word) : Word := x.rotateRight 6 ^^^ x.rotateRight 11 ^^^ x.rotateRight 25

def smallSigma0 (x : Word) : Word := x.rotateRight 7 ^^^ x.rotateRight 18 ^^^ (x >>> 3)

def smallSigma1 (x : Word) : Word := x.rotateRight 17 ^^^ x.rotateRight 19 ^^^ (x >>> 10)

/-- The first 32 bits of the fractional parts of the cube roots of the first 64 primes. -/
def roundConstants : List Word := [
  0x428a2f98, 0x71374491, 0xb5c0fbcf, 0xe9b5dba5, 0x3956c25b, 0x59f111f1, 0x923f82a4, 0xab1c5ed5,
  0xd807aa98, 0x12835b01, 0x243185be, 0x550c7dc3, 0x72be5d74, 0x80deb1fe, 0x9bdc06a7, 0xc19bf174,
  0xe49b69c1, 0xefbe4786, 0x0fc19dc6, 0x240ca1cc, 0x2de92c6f, 0x4a7484aa, 0x5cb0a9dc, 0x76f988da,
  0x983e5152, 0xa831c66d, 0xb00327c8, 0xbf597fc7, 0xc6e00bf3, 0xd5a79147, 0x06ca6351, 0x14292967,
  0x27b70a85, 0x2e1b2138, 0x4d2c6dfc, 0x53380d13, 0x650a7354, 0x766a0abb, 0x81c2c92e, 0x92722c85,
  0xa2bfe8a1, 0xa81a664b, 0xc24b8b70, 0xc76c51a3, 0xd192e819, 0xd6990624, 0xf40e3585, 0x106aa070,
  0x19a4c116, 0x1e376c08, 0x2748774c, 0x34b0bcb5, 0x391c0cb3, 0x4ed8aa4a, 0x5b9cca4f, 0x682e6ff3,
  0x748f82ee, 0x78a5636f, 0x84c87814, 0x8cc70208, 0x90befffa, 0xa4506ceb, 0xbef9a3f7, 0xc67178f2]

/-- The eight words of a state. -/
structure State where
  a : Word
  b : Word
  c : Word
  d : Word
  e : Word
  f : Word
  g : Word
  h : Word

def State.initial : State :=
  ⟨0x6a09e667, 0xbb67ae85, 0x3c6ef372, 0xa54ff53a, 0x510e527f, 0x9b05688c, 0x1f83d9ab, 0x5be0cd19⟩

/-- `n` more words of the message schedule, the latest word first. -/
def extend : ℕ → List Word → List Word
  | 0, ws => ws
  | n + 1, ws =>
    extend n ((smallSigma1 (ws.getD 1 0) + ws.getD 6 0 + smallSigma0 (ws.getD 14 0) +
      ws.getD 15 0) :: ws)

/-- The 64 words of the message schedule of a block of 16. -/
def schedule (block : List Word) : List Word := (extend 48 block.reverse).reverse

def round (s : State) (kw : Word × Word) : State :=
  let t1 := s.h + bigSigma1 s.e + ch s.e s.f s.g + kw.1 + kw.2
  let t2 := bigSigma0 s.a + maj s.a s.b s.c
  ⟨t1 + t2, s.a, s.b, s.c, s.d + t1, s.e, s.f, s.g⟩

def compress (s : State) (block : List Word) : State :=
  let r := (roundConstants.zip (schedule block)).foldl round s
  ⟨s.a + r.a, s.b + r.b, s.c + r.c, s.d + r.d, s.e + r.e, s.f + r.f, s.g + r.g, s.h + r.h⟩

/-- The bytes of a number of 64 bits. -/
def lengthBytes (n : ℕ) : List UInt8 :=
  (List.range 8).map fun i => UInt8.ofNat (n / 256 ^ (7 - i))

/-- The message, a one bit, zeros and the length of the message in bits. -/
def pad (message : List UInt8) : List UInt8 :=
  message ++ 0x80 :: List.replicate ((119 - message.length % 64) % 64) 0 ++
    lengthBytes (8 * message.length)

def wordOf : List UInt8 → Word
  | bytes => BitVec.ofNat 32 (bytes.foldl (fun n b => 256 * n + b.toNat) 0)

/-- The block `i` of the padded message. -/
def blockAt (padded : List UInt8) (i : ℕ) : List Word :=
  (List.range 16).map fun j => wordOf ((padded.drop (64 * i + 4 * j)).take 4)

/-- The digest of the message. -/
def sha256 (message : List UInt8) : ℕ :=
  let padded := pad message
  let s := ((List.range (padded.length / 64)).map (blockAt padded)).foldl compress .initial
  [s.a, s.b, s.c, s.d, s.e, s.f, s.g, s.h].foldl (fun n w => 2 ^ 32 * n + w.toNat) 0

/-- The `k` last hexadecimal digits of a number. -/
def hexDigits : ℕ → ℕ → List Char
  | 0, _ => []
  | k + 1, n => hexDigits k (n / 16) ++ [Nat.digitChar (n % 16)]

/-- The digest of the message in hexadecimal. -/
def hexDigest (message : List UInt8) : List Char := hexDigits 64 (sha256 message)

/-- The padded message consists of blocks. -/
theorem length_pad (message : List UInt8) : (pad message).length % 64 = 0 := by
  simp only [pad, lengthBytes, List.length_append, List.length_cons, List.length_replicate,
    List.length_map, List.length_range]
  omega

/-! ## Blocks -/

/-- The state after the blocks of a string; the bytes after the last full block are not looked at. -/
def blocks (s : State) (bytes : List UInt8) : State :=
  ((List.range (bytes.length / 64)).map (blockAt bytes)).foldl compress s

theorem blockAt_append {x y : List UInt8} {i : ℕ} (h : 64 * i + 64 ≤ x.length) :
    blockAt (x ++ y) i = blockAt x i := by
  refine List.map_congr_left fun j hj => ?_
  have hj16 : j < 16 := List.mem_range.mp hj
  have hdrop : 64 * i + 4 * j ≤ x.length := by omega
  rw [List.drop_append_of_le_length hdrop, List.take_append_of_le_length]
  rw [List.length_drop]
  omega

theorem blockAt_append_right {x y : List UInt8} {n i : ℕ} (h : x.length = 64 * n) :
    blockAt (x ++ y) (n + i) = blockAt y i := by
  refine List.map_congr_left fun j _ => ?_
  have hsplit : 64 * (n + i) + 4 * j = x.length + (64 * i + 4 * j) := by omega
  rw [hsplit, ← List.drop_drop, List.drop_left]

/-- **Blocks are compressed one after the other.** -/
theorem blocks_append {s : State} {x : List UInt8} (hx : x.length % 64 = 0) (y : List UInt8) :
    blocks s (x ++ y) = blocks (blocks s x) y := by
  obtain ⟨n, hn⟩ := Nat.dvd_of_mod_eq_zero hx
  have hlen : (x ++ y).length / 64 = n + y.length / 64 := by
    rw [List.length_append]
    omega
  have hx64 : x.length / 64 = n := by omega
  have hleft : (List.range n).map (blockAt (x ++ y)) = (List.range n).map (blockAt x) := by
    refine List.map_congr_left fun i hi => blockAt_append ?_
    have hlt := List.mem_range.mp hi
    omega
  have hright : (List.range (y.length / 64)).map (fun i => blockAt (x ++ y) (n + i)) =
      (List.range (y.length / 64)).map (blockAt y) :=
    List.map_congr_left fun i _ => blockAt_append_right hn
  rw [blocks, hlen, List.range_add, List.map_append, List.map_map, List.foldl_append, hleft]
  change List.foldl compress _ ((List.range (y.length / 64)).map fun i => blockAt (x ++ y) (n + i)) = _
  rw [hright, blocks, blocks, hx64]

/-- Bytes after the last full block are not looked at. -/
theorem blocks_of_lt {s : State} {x : List UInt8} (h : x.length < 64) : blocks s x = s := by
  rw [blocks, Nat.div_eq_of_lt h]
  rfl

/-- One block. -/
theorem blocks_of_length {s : State} {x : List UInt8} (h : x.length = 64) :
    blocks s x = compress s (blockAt x 0) := by
  rw [blocks, h]
  rfl

/-! ## The size of a digest -/

theorem words_lt : ∀ (ws : List Word) (k n : ℕ), n < 2 ^ (32 * k) →
    ws.foldl (fun n w => 2 ^ 32 * n + w.toNat) n < 2 ^ (32 * (k + ws.length))
  | [], k, n, h => h
  | w :: ws, k, n, h => by
    have hlen : k + (w :: ws).length = k + 1 + ws.length := by
      rw [List.length_cons]
      omega
    rw [List.foldl_cons, hlen]
    refine words_lt ws (k + 1) _ ?_
    have hw := w.isLt
    have hpow : 2 ^ (32 * (k + 1)) = 2 ^ 32 * 2 ^ (32 * k) := by
      rw [← Nat.pow_add]
      congr 1
      omega
    rw [hpow]
    omega

/-- **A digest has 256 bits.** -/
theorem sha256_lt (message : List UInt8) : sha256 message < 2 ^ 256 := words_lt _ 0 0 (by decide)

/-! ## Hexadecimal digits -/

theorem hexDigits_zero : ∀ k, hexDigits k 0 = List.replicate k '0'
  | 0 => rfl
  | k + 1 => by
    rw [hexDigits, Nat.zero_div, hexDigits_zero k, List.replicate_succ']
    rfl

theorem hexDigits_append (k n : ℕ) : ∀ j m, m < 16 ^ j →
    hexDigits (k + j) (16 ^ j * n + m) = hexDigits k n ++ hexDigits j m
  | 0, m, h => by
    have hm : m = 0 := by omega
    subst hm
    simp [hexDigits]
  | j + 1, m, h => by
    have hdiv : (16 ^ (j + 1) * n + m) / 16 = 16 ^ j * n + m / 16 := by
      rw [Nat.pow_succ', Nat.mul_assoc]
      omega
    have hmod : (16 ^ (j + 1) * n + m) % 16 = m % 16 := by
      rw [Nat.pow_succ', Nat.mul_assoc]
      omega
    have hlt : m / 16 < 16 ^ j := by
      rw [Nat.pow_succ'] at h
      omega
    rw [← Nat.add_assoc, hexDigits, hdiv, hmod, hexDigits_append k n j _ hlt, List.append_assoc]
    rfl

/-- The digits of words after each other. -/
theorem hexDigits_words : ∀ (ws : List Word) (k n : ℕ),
    hexDigits (k + 8 * ws.length) (ws.foldl (fun n w => 2 ^ 32 * n + w.toNat) n) =
      hexDigits k n ++ (ws.map fun w => hexDigits 8 w.toNat).flatten
  | [], k, n => by simp
  | w :: ws, k, n => by
    have hlen : k + 8 * (w :: ws).length = k + 8 + 8 * ws.length := by
      rw [List.length_cons]
      omega
    have hpow : (2 : ℕ) ^ 32 = 16 ^ 8 := rfl
    have hlt : w.toNat < 16 ^ 8 := hpow ▸ w.isLt
    rw [hlen, List.foldl_cons, hexDigits_words ws, hpow, hexDigits_append k n 8 w.toNat hlt,
      List.map_cons, List.flatten_cons, List.append_assoc]

/-- **The digest in hexadecimal** is that of the words of the last state. -/
theorem hexDigest_eq {message : List UInt8} {s : State} (h : blocks .initial (pad message) = s) :
    hexDigest message = ([s.a, s.b, s.c, s.d, s.e, s.f, s.g, s.h].map
      fun w => hexDigits 8 w.toNat).flatten := by
  have hsha : sha256 message =
      [s.a, s.b, s.c, s.d, s.e, s.f, s.g, s.h].foldl (fun n w => 2 ^ 32 * n + w.toNat) 0 := by
    rw [sha256, ← blocks, h]
  have hwords := hexDigits_words [s.a, s.b, s.c, s.d, s.e, s.f, s.g, s.h] 0 0
  rwa [← hsha] at hwords

/-- A number padded with zeros to `k` hexadecimal digits. -/
theorem leftpad_toDigits : ∀ k n, n < 16 ^ (k + 1) →
    List.leftpad (k + 1) '0' (Nat.toDigits 16 n) = hexDigits (k + 1) n := by
  intro k
  induction k with
  | zero =>
    intro n h
    have hn : n < 16 := by omega
    rw [Nat.toDigits_of_lt_base hn, hexDigits, Nat.mod_eq_of_lt hn]
    rfl
  | succ k ih =>
    intro n h
    by_cases hn : n < 16
    · rw [Nat.toDigits_of_lt_base hn, hexDigits, Nat.div_eq_of_lt hn, Nat.mod_eq_of_lt hn,
        hexDigits_zero]
      rfl
    · have hlt : n / 16 < 16 ^ (k + 1) := by
        rw [Nat.pow_succ'] at h
        omega
      rw [Nat.toDigits_of_base_le (by decide) (by omega), hexDigits, ← ih _ hlt]
      simp only [List.leftpad, List.length_append, List.length_singleton, List.append_assoc,
        Nat.add_sub_add_right]

/-- The digest of `abc`. -/
example : sha256 [0x61, 0x62, 0x63] =
    0xba7816bf8f01cfea414140de5dae2223b00361a396177a9cb410ff61f20015ad := by decide +kernel

end Sha256
