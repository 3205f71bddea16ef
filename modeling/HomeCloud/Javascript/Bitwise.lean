import Mathlib.Algebra.Order.Ring.Int
import Mathlib.Tactic.Common

/-!
# Bitwise operators of JavaScript

Numbers that are integers, with the operators that work on 32 bits: they take their operands modulo
`2 ^ 32`, and all but `>>>` have a signed result.

* `word`: the 32 bits of a number, which turns the operators into those of words.
* `or`, `xor`, `and`, `not`, `shl`, `ushr`: `|`, `^`, `&`, `~`, `<<` and `>>>`.
* `uint32`: what a `Uint32Array` stores, and `>>> 0`.
-/

namespace Javascript

/-- The 32 bits of a number. -/
def word (x : ℤ) : BitVec 32 := BitVec.ofInt 32 x

def or (x y : ℤ) : ℤ := (word x ||| word y).toInt

def xor (x y : ℤ) : ℤ := (word x ^^^ word y).toInt

def and (x y : ℤ) : ℤ := (word x &&& word y).toInt

def not (x : ℤ) : ℤ := (~~~word x).toInt

def shl (x : ℤ) (n : ℕ) : ℤ := (word x <<< (n % 32)).toInt

def ushr (x : ℤ) (n : ℕ) : ℤ := (word x >>> (n % 32)).toNat

def uint32 (x : ℤ) : ℤ := (word x).toNat

section Words

variable (x y : ℤ) (n : ℕ)

@[simp]
theorem word_toNat (w : BitVec 32) : word (w.toNat : ℤ) = w := by
  simp [word]

@[simp]
theorem word_or : word (or x y) = word x ||| word y := BitVec.ofInt_toInt

@[simp]
theorem word_xor : word (xor x y) = word x ^^^ word y := BitVec.ofInt_toInt

@[simp]
theorem word_and : word (and x y) = word x &&& word y := BitVec.ofInt_toInt

@[simp]
theorem word_not : word (not x) = ~~~word x := BitVec.ofInt_toInt

@[simp]
theorem word_shl : word (shl x n) = word x <<< (n % 32) := BitVec.ofInt_toInt

@[simp]
theorem word_ushr : word (ushr x n) = word x >>> (n % 32) := word_toNat _

@[simp]
theorem word_uint32 : word (uint32 x) = word x := word_toNat _

@[simp]
theorem word_add : word (x + y) = word x + word y := BitVec.ofInt_add x y

end Words

end Javascript
