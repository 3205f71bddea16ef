import HomeCloud.Crypto.Sha256
import HomeCloud.Javascript.Bitwise

/-!
# The digest of a file in the browser

The client reads a file slice by slice and hashes it as it comes in.

* `IncrementalSha256`, `update`, `digest`: the hash, with its partial block and its state.
* `HashEnv`: the abort signal, the reads and the clock, as the run meets them.
* `hashFileSha256`: the digest of a file.
-/

namespace HomeCloud

open Javascript

/-- A string of ASCII characters. -/
abbrev AsciiString := List Char

namespace WholeSha256

def SHA256_READ_BYTES : ℕ := 2 * 1024 * 1024

def WORK_BYTES : ℕ := 256 * 1024

def ROUND_CONSTANTS : List ℤ := [
  0x428a2f98, 0x71374491, 0xb5c0fbcf, 0xe9b5dba5, 0x3956c25b, 0x59f111f1, 0x923f82a4, 0xab1c5ed5,
  0xd807aa98, 0x12835b01, 0x243185be, 0x550c7dc3, 0x72be5d74, 0x80deb1fe, 0x9bdc06a7, 0xc19bf174,
  0xe49b69c1, 0xefbe4786, 0x0fc19dc6, 0x240ca1cc, 0x2de92c6f, 0x4a7484aa, 0x5cb0a9dc, 0x76f988da,
  0x983e5152, 0xa831c66d, 0xb00327c8, 0xbf597fc7, 0xc6e00bf3, 0xd5a79147, 0x06ca6351, 0x14292967,
  0x27b70a85, 0x2e1b2138, 0x4d2c6dfc, 0x53380d13, 0x650a7354, 0x766a0abb, 0x81c2c92e, 0x92722c85,
  0xa2bfe8a1, 0xa81a664b, 0xc24b8b70, 0xc76c51a3, 0xd192e819, 0xd6990624, 0xf40e3585, 0x106aa070,
  0x19a4c116, 0x1e376c08, 0x2748774c, 0x34b0bcb5, 0x391c0cb3, 0x4ed8aa4a, 0x5b9cca4f, 0x682e6ff3,
  0x748f82ee, 0x78a5636f, 0x84c87814, 0x8cc70208, 0x90befffa, 0xa4506ceb, 0xbef9a3f7, 0xc67178f2]

def rotateRight (value : ℤ) (bits : ℕ) : ℤ := or (ushr value bits) (shl value (32 - bits))

/-- `Number.isSafeInteger`, of a number that is not negative. -/
def isSafeInteger (n : ℕ) : Bool := n ≤ 2 ^ 53 - 1

inductive HashError where
  | aborted
  | range
  | read
  | incomplete
  deriving DecidableEq

/-- One pass of the loop that writes the bytes of the bit length, the last one first. -/
def encodeStep (x : List UInt8 × ℕ) (index : ℕ) : List UInt8 × ℕ :=
  (x.1.set index (UInt8.ofNat (x.2 &&& 255)), x.2 >>> 8)

def encodeSha256BitLength (byteLength : ℕ) : Except HashError (List UInt8) :=
  if isSafeInteger byteLength then
    .ok (([7, 6, 5, 4, 3, 2, 1, 0].foldl encodeStep (List.replicate 8 0, byteLength * 8)).1)
  else .error .range

/-- `TypedArray.set`: writes the bytes at a position. -/
def setBytes (target source : List UInt8) (offset : ℕ) : List UInt8 :=
  target.take offset ++ source ++ target.drop (offset + source.length)

/-- The eight variables of the compression loop. -/
structure Vars where
  a : ℤ
  b : ℤ
  c : ℤ
  d : ℤ
  e : ℤ
  f : ℤ
  g : ℤ
  h : ℤ

structure IncrementalSha256 where
  state : List ℤ
  schedule : List ℤ
  tail : List UInt8
  tailBytes : ℕ
  byteLength : ℕ

namespace IncrementalSha256

def new : IncrementalSha256 where
  state := [0x6a09e667, 0xbb67ae85, 0x3c6ef372, 0xa54ff53a,
    0x510e527f, 0x9b05688c, 0x1f83d9ab, 0x5be0cd19]
  schedule := List.replicate 64 0
  tail := List.replicate 64 0
  tailBytes := 0
  byteLength := 0

/-! ## Compression -/

/-- The byte at a position, as a number. -/
def byteAt (bytes : List UInt8) (i : ℕ) : ℤ := (bytes.getD i 0).toNat

def load (bytes : List UInt8) (offset : ℕ) (words : List ℤ) (index : ℕ) : List ℤ :=
  let start := offset + index * 4
  words.set index (uint32 (or (or (or (shl (byteAt bytes start) 24) (shl (byteAt bytes (start + 1)) 16))
    (shl (byteAt bytes (start + 2)) 8)) (byteAt bytes (start + 3))))

def extend (words : List ℤ) (index : ℕ) : List ℤ :=
  let x := words.getD (index - 15) 0
  let y := words.getD (index - 2) 0
  let sigma0 := xor (xor (rotateRight x 7) (rotateRight x 18)) (ushr x 3)
  let sigma1 := xor (xor (rotateRight y 17) (rotateRight y 19)) (ushr y 10)
  words.set index
    (uint32 (uint32 (sigma1 + words.getD (index - 7) 0 + sigma0 + words.getD (index - 16) 0)))

def round (words : List ℤ) (v : Vars) (index : ℕ) : Vars :=
  let sum1 := xor (xor (rotateRight v.e 6) (rotateRight v.e 11)) (rotateRight v.e 25)
  let choice := xor (and v.e v.f) (and (not v.e) v.g)
  let temp1 := uint32 (v.h + sum1 + choice + ROUND_CONSTANTS.getD index 0 + words.getD index 0)
  let sum0 := xor (xor (rotateRight v.a 2) (rotateRight v.a 13)) (rotateRight v.a 22)
  let majority := xor (xor (and v.a v.b) (and v.a v.c)) (and v.b v.c)
  let temp2 := uint32 (sum0 + majority)
  { h := v.g, g := v.f, f := v.e, e := uint32 (v.d + temp1)
    d := v.c, c := v.b, b := v.a, a := uint32 (temp1 + temp2) }

def compress (s : IncrementalSha256) (bytes : List UInt8) (offset : ℕ) : IncrementalSha256 :=
  let words := (List.range' 16 48).foldl extend ((List.range' 0 16).foldl (load bytes offset) s.schedule)
  let at' := fun i => s.state.getD i 0
  let v := (List.range' 0 64).foldl (round words)
    ⟨at' 0, at' 1, at' 2, at' 3, at' 4, at' 5, at' 6, at' 7⟩
  { s with
    schedule := words
    state := [uint32 (at' 0 + v.a), uint32 (at' 1 + v.b), uint32 (at' 2 + v.c), uint32 (at' 3 + v.d),
      uint32 (at' 4 + v.e), uint32 (at' 5 + v.f), uint32 (at' 6 + v.g), uint32 (at' 7 + v.h)] }

/-! ## Updates -/

/-- The partial block takes bytes, and is compressed when it is full; the number of bytes taken. -/
def fillTail (s : IncrementalSha256) (bytes : List UInt8) : IncrementalSha256 × ℕ :=
  if s.tailBytes > 0 then
    let take := min (64 - s.tailBytes) bytes.length
    let s := { s with tail := setBytes s.tail (bytes.take take) s.tailBytes, tailBytes := s.tailBytes + take }
    (if s.tailBytes = 64 then { s.compress s.tail 0 with tailBytes := 0 } else s, take)
  else (s, 0)

/-- The loop over the full blocks from `offset` on, and where it ends. -/
def compressBlocks (bytes : List UInt8) (s : IncrementalSha256) (offset : ℕ) : IncrementalSha256 × ℕ :=
  if offset + 64 ≤ bytes.length then compressBlocks bytes (s.compress bytes offset) (offset + 64)
  else (s, offset)
termination_by bytes.length - offset

def update (s : IncrementalSha256) (bytes : List UInt8) : IncrementalSha256 :=
  let (s, offset) := fillTail { s with byteLength := s.byteLength + bytes.length } bytes
  let (s, offset) := compressBlocks bytes s offset
  if offset < bytes.length then
    { s with tail := setBytes s.tail (bytes.drop offset) 0, tailBytes := bytes.length - offset }
  else s

/-! ## The digest -/

/-- `word.toString(16).padStart(8, '0')`. -/
def hexWord (word : ℤ) : AsciiString := List.leftpad 8 '0' (Nat.toDigits 16 word.toNat)

/-- The loop over the padded bytes. -/
def compressPadded (padded : List UInt8) (s : IncrementalSha256) (offset : ℕ) : IncrementalSha256 :=
  if offset < padded.length then compressPadded padded (s.compress padded offset) (offset + 64) else s
termination_by padded.length - offset

def digest (s : IncrementalSha256) : Except HashError AsciiString := do
  let padded := List.replicate (if s.tailBytes < 56 then 64 else 128) 0
  let padded := setBytes padded (s.tail.take s.tailBytes) 0
  let padded := padded.set s.tailBytes 0x80
  let bitLength ← encodeSha256BitLength s.byteLength
  let padded := setBytes padded bitLength (padded.length - 8)
  return ((compressPadded padded s 0).state.map hexWord).flatten

end IncrementalSha256

/-! ## Files -/

/-- What a run meets: whether the signal has been raised at its `n`th look, what the read of a slice
gives, and whether eight milliseconds have passed at the `n`th look at the clock. -/
structure HashEnv where
  aborted : ℕ → Bool
  read : ℕ → ℕ → Except HashError (List UInt8)
  late : ℕ → Bool

/-- A run with the number of its looks. -/
abbrev Hashing := StateT ℕ (Except HashError)

def checkAbort (env : HashEnv) : Hashing Unit := do
  let n ← get
  set (n + 1)
  if env.aborted n then throw .aborted

/-- Whether it is time to yield. -/
def isLate (env : HashEnv) : Hashing Bool := do
  let n ← get
  set (n + 1)
  return env.late n

def readSlice (env : HashEnv) (start stop : ℕ) : Hashing (List UInt8) := do
  checkAbort env
  match env.read start stop with
  | .ok bytes => return bytes
  | .error e => throw e

/-- The loop over the pieces of a slice. -/
def hashSlice (env : HashEnv) (bytes : List UInt8) (hash : IncrementalSha256) (offset : ℕ) :
    Hashing IncrementalSha256 :=
  if h : offset < bytes.length then do
    checkAbort env
    let workEnd := min bytes.length (offset + WORK_BYTES)
    let hash := hash.update ((bytes.take workEnd).drop offset)
    if (← isLate env) || workEnd = bytes.length then checkAbort env
    hashSlice env bytes hash (offset + WORK_BYTES)
  else return hash
termination_by bytes.length - offset
decreasing_by
  have hw : 0 < WORK_BYTES := by decide
  omega

/-- The loop over the slices of a file. -/
def hashSlices (env : HashEnv) (size : ℕ) (hash : IncrementalSha256) (start : ℕ) :
    Hashing IncrementalSha256 :=
  if h : start < size then do
    checkAbort env
    let stop := min size (start + SHA256_READ_BYTES)
    let bytes ← readSlice env start stop
    checkAbort env
    if bytes.length ≠ stop - start then throw .incomplete
    let hash ← hashSlice env bytes hash 0
    hashSlices env size hash (start + SHA256_READ_BYTES)
  else return hash
termination_by size - start
decreasing_by
  have hw : 0 < SHA256_READ_BYTES := by decide
  omega

def hashFileSha256 (env : HashEnv) (size : ℕ) : Hashing AsciiString := do
  checkAbort env
  if !isSafeInteger size then throw .range
  let hash ← hashSlices env size .new 0
  checkAbort env
  (hash.digest : Except HashError AsciiString)

end WholeSha256

end HomeCloud
