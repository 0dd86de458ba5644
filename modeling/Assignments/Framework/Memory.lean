import Assignments.Framework.Basic

/-!
# Bytes in memory

A piece of memory gives the byte at every offset.

* `splice`, `slice` — bytes copied into memory and out of it (`memmove`);
* `fill` — one byte written over and over (`memset`);
* `putLE`, `getLE` — a number of several bytes, least significant byte first; `putWords` — an
  array of them;
* for each pair, what is read where it was written (`splice_of_mem`, `getLE_putLE`), and that
  nothing else changes (`splice_of_disjoint`, `putLE_of_disjoint` with the `_congr` lemmas).
-/

namespace Framework

abbrev Byte : Type := BitVec 8

/-- The bytes of a piece of memory, by their offsets. -/
abbrev Memory : Type := ℕ → Byte

/-- `memmove(f + off, bs, length of bs)`. -/
def splice (f : Memory) (off : ℕ) (bs : List Byte) : Memory := fun k =>
  if off ≤ k ∧ k < off + bs.length then bs.getD (k - off) 0 else f k

/-- The `n` bytes from `off` on. -/
def slice (f : Memory) (off n : ℕ) : List Byte := (List.range n).map fun i => f (off + i)

/-- `memset(f + off, c, n)`. -/
def fill (f : Memory) (off n : ℕ) (c : Byte) : Memory := fun k =>
  if off ≤ k ∧ k < off + n then c else f k

/-- The number that the `n` bytes from `off` on are, least significant byte first. -/
def getLE (f : Memory) (off : ℕ) : ℕ → ℕ
  | 0 => 0
  | n + 1 => (f off).toNat + 256 * getLE f (off + 1) n

/-- A number is stored in the `n` bytes from `off` on. -/
def putLE (f : Memory) (off n v : ℕ) : Memory := fun k =>
  if off ≤ k ∧ k < off + n then BitVec.ofNat 8 (v / 256 ^ (k - off)) else f k

/-- The numbers `ws 0`, ..., `ws (n - 1)` are stored from `off` on, four bytes each. -/
def putWords (f : Memory) (off n : ℕ) (ws : ℕ → ℕ) : Memory := fun k =>
  if off ≤ k ∧ k < off + 4 * n then
    BitVec.ofNat 8 (ws ((k - off) / 4) / 256 ^ ((k - off) % 4))
  else f k

variable {f g : Memory} {off off' n n' k v : ℕ} {bs : List Byte}

/-! ### Copied bytes -/

@[simp] theorem length_slice : (slice f off n).length = n := by
  simp [slice]

theorem getElem_slice {i : ℕ} (h : i < (slice f off n).length) :
    (slice f off n)[i] = f (off + i) := by
  simp [slice]

theorem slice_congr (h : ∀ k, off ≤ k → k < off + n → f k = g k) :
    slice f off n = slice g off n := by
  apply List.map_congr_left
  intro i hi
  have hlt : i < n := List.mem_range.mp hi
  exact h (off + i) (Nat.le_add_right off i) (Nat.add_lt_add_left hlt off)

theorem splice_of_disjoint (h : k < off ∨ off + bs.length ≤ k) : splice f off bs k = f k := by
  apply if_neg
  omega

theorem splice_of_mem (h : k < bs.length) : splice f off bs (off + k) = bs.getD k 0 := by
  have hin : off ≤ off + k ∧ off + k < off + bs.length := by omega
  rw [splice, if_pos hin, Nat.add_sub_cancel_left]

theorem slice_add (f : Memory) (off m n : ℕ) :
    slice f off (m + n) = slice f off m ++ slice f (off + m) n := by
  simp [slice, List.range_add, Nat.add_assoc]

theorem fill_of_disjoint {c : Byte} (h : k < off ∨ off + n ≤ k) : fill f off n c k = f k := by
  apply if_neg
  omega

theorem fill_of_mem {c : Byte} (h : off ≤ k) (h' : k < off + n) : fill f off n c k = c :=
  if_pos ⟨h, h'⟩

/-! ### Numbers -/

theorem getLE_congr : ∀ {n off : ℕ}, (∀ k, off ≤ k → k < off + n → f k = g k) →
    getLE f off n = getLE g off n
  | 0, _, _ => rfl
  | n + 1, off, h => by
    have hrest : getLE f (off + 1) n = getLE g (off + 1) n :=
      getLE_congr fun k hk hk' => h k (by omega) (by omega)
    rw [getLE, getLE, h off (Nat.le_refl off) (by omega), hrest]

theorem getLE_eq_zero : ∀ {n off : ℕ}, (∀ k, off ≤ k → k < off + n → f k = 0) → getLE f off n = 0
  | 0, _, _ => rfl
  | n + 1, off, h => by
    have hrest : getLE f (off + 1) n = 0 := getLE_eq_zero fun k hk hk' => h k (by omega) (by omega)
    rw [getLE, h off (Nat.le_refl off) (by omega), hrest]
    rfl

theorem putLE_of_disjoint (h : k < off ∨ off + n ≤ k) : putLE f off n v k = f k := by
  apply if_neg
  omega

theorem getLE_lt : ∀ {n off : ℕ}, getLE f off n < 256 ^ n
  | 0, _ => Nat.one_pos
  | n + 1, off => by
    have hbyte : (f off).toNat < 256 := (f off).isLt
    have hrest : getLE f (off + 1) n < 256 ^ n := getLE_lt
    rw [getLE, Nat.pow_succ]
    omega

/-- The bytes from the second one on hold the number without its lowest byte. -/
theorem putLE_succ (h : off + 1 ≤ k) :
    putLE f off (n + 1) v k = putLE f (off + 1) n (v / 256) k := by
  unfold putLE
  by_cases hk : k < off + (n + 1)
  · have hpow : v / 256 ^ (k - off) = v / 256 / 256 ^ (k - (off + 1)) := by
      rw [Nat.div_div_eq_div_mul, ← Nat.pow_succ']
      congr 2
      omega
    rw [if_pos ⟨by omega, hk⟩, if_pos ⟨h, by omega⟩, hpow]
  · rw [if_neg (by omega), if_neg (by omega)]

/-- What was stored is read, as far as it fits. -/
theorem getLE_putLE : ∀ {n off v : ℕ}, getLE (putLE f off n v) off n = v % 256 ^ n
  | 0, _, v => by simp [getLE, Nat.mod_one]
  | n + 1, off, v => by
    have ih : getLE (putLE f (off + 1) n (v / 256)) (off + 1) n = v / 256 % 256 ^ n := getLE_putLE
    have hrest : getLE (putLE f off (n + 1) v) (off + 1) n = v / 256 % 256 ^ n := by
      rw [← ih]
      exact getLE_congr fun k hk _ => putLE_succ hk
    have hfirst : (putLE f off (n + 1) v off).toNat = v % 256 := by
      simp [putLE]
    rw [getLE, hrest, hfirst, Nat.pow_succ', Nat.mod_mul]

theorem getLE_putLE_of_disjoint (h : off' + n' ≤ off ∨ off + n ≤ off') :
    getLE (putLE f off n v) off' n' = getLE f off' n' := by
  apply getLE_congr
  intro k hk hk'
  exact putLE_of_disjoint (by omega)

theorem putWords_of_disjoint {ws : ℕ → ℕ} (h : k < off ∨ off + 4 * n ≤ k) :
    putWords f off n ws k = f k := by
  apply if_neg
  omega

/-- Each of the numbers is read where it was stored. -/
theorem getLE_putWords {ws : ℕ → ℕ} {i : ℕ} (hi : i < n) :
    getLE (putWords f off n ws) (off + 4 * i) 4 = ws i % 2 ^ 32 := by
  have hword : getLE (putWords f off n ws) (off + 4 * i) 4
      = getLE (putLE f (off + 4 * i) 4 (ws i)) (off + 4 * i) 4 := by
    apply getLE_congr
    intro k hk hk'
    have hdiv : (k - off) / 4 = i := by omega
    have hmod : (k - off) % 4 = k - (off + 4 * i) := by omega
    rw [putWords, putLE, if_pos ⟨by omega, by omega⟩, if_pos ⟨hk, hk'⟩, hdiv, hmod]
  rw [hword, getLE_putLE]
  rfl

theorem getLE_putWords_of_disjoint {ws : ℕ → ℕ} (h : off' + n' ≤ off ∨ off + 4 * n ≤ off') :
    getLE (putWords f off n ws) off' n' = getLE f off' n' := by
  apply getLE_congr
  intro k hk hk'
  exact putWords_of_disjoint (by omega)

end Framework
