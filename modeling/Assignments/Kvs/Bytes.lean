import Assignments.Framework.Basic

/-!
# Byte strings and machine integers of the key-value server

`Bytes` is the `std::string` of the server: any sequence of bytes, compared byte by byte as
unsigned numbers, which is the key order of its `std::map`s. `int32` reduces an exact integer
to the 32-bit two's complement `int` the server computes with.
-/

namespace Kvs

abbrev Byte : Type := Fin 256

abbrev Bytes : Type := List Byte

/-- The instance can be found in several ways; with a name it is the same one in every module. -/
instance lawfulBEq_bytes : LawfulBEq Bytes := inferInstance

/-- The bytes of an ASCII text. -/
def ascii (cs : List Char) : Bytes := cs.map fun c => Fin.ofNat 256 c.toNat

/-- The blank byte that pads the fields of a record. -/
def blank : Byte := 32

/-- The reply `"-1"` with which the caches and `getkey` say that a key is absent. -/
def notFound : Bytes := ascii ['-', '1']

/-- `trim`: the string up to its first blank, the whole string when there is none
(`find_first_of` then gives `npos`). -/
def trim (str : Bytes) : Bytes := str.takeWhile (· ≠ blank)

/-- The `std::string` built from a `char*`: the memory up to its first zero byte. -/
def cstring (memory : Bytes) : Bytes := memory.takeWhile (· ≠ 0)

/-- The value of an exact integer in a 32-bit two's complement `int`. -/
def int32 (x : ℤ) : ℤ := x.bmod (2 ^ 32)

theorem int32_of_range {x : ℤ} (h₁ : -2 ^ 31 ≤ x) (h₂ : x < 2 ^ 31) : int32 x = x :=
  Int.bmod_eq_of_le (by simpa using h₁) (by simpa using h₂)

theorem int32_range (x : ℤ) : -2 ^ 31 ≤ int32 x ∧ int32 x < 2 ^ 31 := by
  have h₁ := Int.le_bmod (x := x) (m := 2 ^ 32) (by decide)
  have h₂ := Int.bmod_lt (x := x) (m := 2 ^ 32) (by decide)
  unfold int32
  constructor
  · simpa using h₁
  · simpa using h₂

theorem int32_int32_add (x y : ℤ) : int32 (int32 x + y) = int32 (x + y) :=
  Int.bmod_add_bmod

theorem int32_int32_mul (x y : ℤ) : int32 (int32 x * y) = int32 (x * y) :=
  Int.bmod_mul_bmod

theorem int32_emod (x : ℤ) : int32 x % 2 ^ 32 = x % 2 ^ 32 :=
  Int.bmod_emod

/-- Counting up changes an `int`, also where it wraps. -/
theorem int32_succ_ne (x : ℤ) : int32 (x + 1) ≠ x := by
  intro h
  have hmod := int32_emod (x + 1)
  omega

/-- The natural numbers below `2 ^ 32` have distinct values as an `int`. -/
theorem int32_inj {i j : ℕ} (hi : i < 2 ^ 32) (hj : j < 2 ^ 32) (h : int32 i = int32 j) :
    i = j := by
  have hmod : (i : ℤ) % 2 ^ 32 = (j : ℤ) % 2 ^ 32 := by
    rw [← int32_emod i, ← int32_emod j, h]
  omega

/-- Two strings agree after `takeWhile` exactly up to the first stopping byte. -/
theorem takeWhile_append_of_stop {p : Byte → Bool} {xs ys : Bytes} {b : Byte}
    (hxs : ∀ x ∈ xs, p x = true) (hb : p b = false) : (xs ++ b :: ys).takeWhile p = xs := by
  rw [List.takeWhile_append_of_pos hxs, List.takeWhile_cons, hb]
  simp

end Kvs
