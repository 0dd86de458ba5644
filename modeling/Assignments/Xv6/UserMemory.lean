import Assignments.Xv6.ProcTable

/-!
# User memory and system call arguments

The memory of a user process as its bytes, the words in it, and the functions of `syscall.c` that
fetch the arguments of a system call from the user's stack and check them against the size of the
process.
-/

namespace Xv6.Ptable

abbrev Byte : Type := Fin 256

/-- The bytes at the virtual addresses of one process. -/
abbrev Memory : Type := ℕ → Byte

/-- The `i`th byte of an `int`, the least significant first. -/
def byteOf (v : ℤ) (i : ℕ) : Byte :=
  ⟨(v / 256 ^ i % 256).toNat, by omega⟩

/-- `*(int *)addr = v`. -/
def storeInt (mem : Memory) (addr : ℕ) (v : ℤ) : Memory := fun a =>
  if addr ≤ a ∧ a < addr + 4 then byteOf v (a - addr) else mem a

/-- `*(int *)addr`. -/
def loadInt (mem : Memory) (addr : ℕ) : ℤ :=
  int (mem addr + 256 * mem (addr + 1) + 65536 * mem (addr + 2) + 16777216 * mem (addr + 3) : ℕ)

/-! ### Arguments -/

def fetchint (sz : ℕ) (mem : Memory) (addr : ℕ) : Option ℤ :=
  if addr ≥ sz ∨ uint (addr + 4) > sz then none else some (loadInt mem addr)

def argint (sz esp : ℕ) (mem : Memory) (n : ℕ) : Option ℤ :=
  fetchint sz mem (uint (esp + 4 + 4 * n))

/-- The address that the `n`th argument points to. -/
def argptr (sz esp : ℕ) (mem : Memory) (n : ℕ) (size : ℤ) : Option ℕ :=
  match argint sz esp mem n with
  | none => none
  | some i => if size < 0 ∨ uint i ≥ sz ∨ uint (uint i + size) > sz then none else some (uint i)

theorem argptr_eq_some {sz esp : ℕ} {mem : Memory} {n : ℕ} {size : ℤ} {addr : ℕ}
    (h : argptr sz esp mem n size = some addr) :
    ∃ i, argint sz esp mem n = some i ∧ addr = uint i ∧ addr < sz := by
  unfold argptr at h
  cases hi : argint sz esp mem n with
  | none =>
    rw [hi] at h
    cases h
  | some i =>
    rw [hi] at h
    dsimp only at h
    split at h
    · cases h
    · next hok =>
      cases h
      exact ⟨i, rfl, rfl, by omega⟩

/-- The address of a null pointer is the argument 0. -/
theorem argptr_eq_zero {sz esp : ℕ} {mem : Memory} {n : ℕ} {size : ℤ} {addr : ℕ}
    (h : argptr sz esp mem n size = some addr) : addr = 0 ↔ argint sz esp mem n = some 0 := by
  obtain ⟨i, hi, rfl, -⟩ := argptr_eq_some h
  rw [hi, Option.some.injEq]
  constructor
  · intro hzero
    -- an `int` is determined by its value modulo `2 ^ 32`
    unfold argint fetchint at hi
    split at hi
    · cases hi
    · obtain rfl : loadInt mem _ = i := Option.some.inj hi
      unfold loadInt int uint at *
      generalize ((mem _ : ℕ) + _ + _ + _ : ℕ) = w at *
      have hmod : Int.bmod (w : ℤ) (2 ^ 32) % 2 ^ 32 = 0 := by omega
      have hlow : -(2 ^ 31 : ℤ) ≤ Int.bmod (w : ℤ) (2 ^ 32) := Int.le_bmod (by decide)
      have hhigh : Int.bmod (w : ℤ) (2 ^ 32) < 2 ^ 31 := Int.bmod_lt (by decide)
      omega
  · rintro rfl
    rfl

/-! ### Words in memory -/

theorem storeInt_of_lt {mem : Memory} {addr a : ℕ} {v : ℤ} (h : a < addr ∨ addr + 4 ≤ a) :
    storeInt mem addr v a = mem a := by
  unfold storeInt
  rw [if_neg (by omega)]

theorem storeInt_add {mem : Memory} {addr i : ℕ} {v : ℤ} (hi : i < 4) :
    storeInt mem addr v (addr + i) = byteOf v i := by
  unfold storeInt
  rw [if_pos (by omega), Nat.add_sub_cancel_left]

/-- Storing a word changes nothing just if the word is there already. -/
theorem storeInt_eq_self {mem : Memory} {addr : ℕ} {v : ℤ} :
    storeInt mem addr v = mem ↔ loadInt mem addr = int v := by
  have hbytes : storeInt mem addr v = mem ↔ ∀ i < 4, mem (addr + i) = byteOf v i := by
    constructor
    · intro h i hi
      rw [← storeInt_add hi, h]
    · intro h
      funext a
      by_cases ha : addr ≤ a ∧ a < addr + 4
      · obtain ⟨i, rfl⟩ := Nat.exists_eq_add_of_le ha.1
        rw [storeInt_add (by omega), h i (by omega)]
      · exact storeInt_of_lt (by omega)
  rw [hbytes, loadInt, int_eq_int]
  have hval (i : ℕ) (x : Byte) : x = byteOf v i ↔ (x.val : ℤ) = v / 256 ^ i % 256 := by
    rw [Fin.ext_iff]
    simp only [byteOf]
    omega
  simp only [hval]
  -- the four bytes of a word, as one linear condition
  constructor
  · intro h
    have h0 := h 0 (by decide)
    have h1 := h 1 (by decide)
    have h2 := h 2 (by decide)
    have h3 := h 3 (by decide)
    simp only [Nat.add_zero] at h0
    push_cast at h0 h1 h2 h3 ⊢
    omega
  · intro h i hi
    have b0 := (mem addr).isLt
    have b1 := (mem (addr + 1)).isLt
    have b2 := (mem (addr + 2)).isLt
    have b3 := (mem (addr + 3)).isLt
    push_cast at h
    interval_cases i
    · simp only [Nat.add_zero]
      omega
    · omega
    · omega
    · omega

end Xv6.Ptable
