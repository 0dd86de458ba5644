import Assignments.Framework.Memory

/-!
# Memory in blocks, and who holds them

Memory is cut into blocks of one size, each named by its first address. Data structures are built
in blocks that they get from a common pool, so that two things have to be followed: which blocks a
step writes to, and who holds which block.

* `blockOf`, `AgreeOff` — the block of an address; two memories that agree off some blocks;
* `heldIn` — the blocks in some places, each of which may be empty, as a multiset: moving a block
  between places is an equation between sums (`heldIn_update`), and that no block is held twice is
  `Multiset.Nodup` (`heldIn_unique`).
-/

namespace Framework

open Function

/-! ### Blocks -/

section Blocks

variable {size : ℕ} {f g h : Memory} {a b : ℕ} {ps qs : Multiset ℕ}

/-- The first address of the block that `a` is in. -/
def blockOf (size a : ℕ) : ℕ := a / size * size

theorem blockOf_add {size b i : ℕ} (hb : b % size = 0) (hi : i < size) :
    blockOf size (b + i) = b := by
  obtain ⟨c, rfl⟩ := Nat.dvd_of_mod_eq_zero hb
  have hpos : 0 < size := Nat.zero_lt_of_lt hi
  rw [blockOf, Nat.mul_add_div hpos, Nat.div_eq_of_lt hi, Nat.add_zero, Nat.mul_comm]

/-- A block holds the addresses from its first one on. -/
theorem blockOf_eq (hsize : 0 < size) (hb : b % size = 0) :
    blockOf size a = b ↔ b ≤ a ∧ a < b + size := by
  constructor
  · rintro rfl
    have hdiv : size * (a / size) + a % size = a := Nat.div_add_mod a size
    have hmod : a % size < size := Nat.mod_lt a hsize
    rw [blockOf, Nat.mul_comm]
    omega
  · rintro ⟨hle, hlt⟩
    obtain ⟨i, rfl⟩ := Nat.exists_eq_add_of_le hle
    exact blockOf_add hb (by omega)

/-- The two memories have the same bytes in all blocks but `ps`. -/
def AgreeOff (size : ℕ) (ps : Multiset ℕ) (f g : Memory) : Prop :=
  ∀ a, blockOf size a ∉ ps → g a = f a

theorem AgreeOff.refl (f : Memory) : AgreeOff size ps f f := fun _ _ => rfl

theorem AgreeOff.trans (h₁ : AgreeOff size ps f g) (h₂ : AgreeOff size ps g h) :
    AgreeOff size ps f h := fun a ha => (h₂ a ha).trans (h₁ a ha)

theorem AgreeOff.mono (h : AgreeOff size ps f g) (hsub : ps ⊆ qs) : AgreeOff size qs f g :=
  fun a ha => h a fun hmem => ha (hsub hmem)

/-- The two memories have the same bytes in the blocks `ps`. -/
def AgreeOn (size : ℕ) (ps : Multiset ℕ) (f g : Memory) : Prop :=
  ∀ a, blockOf size a ∈ ps → g a = f a

theorem AgreeOn.refl (f : Memory) : AgreeOn size ps f f := fun _ _ => rfl

theorem AgreeOn.trans (h₁ : AgreeOn size ps f g) (h₂ : AgreeOn size ps g h) :
    AgreeOn size ps f h := fun a ha => (h₂ a ha).trans (h₁ a ha)

theorem AgreeOn.mono (h : AgreeOn size ps f g) (hsub : qs ⊆ ps) : AgreeOn size qs f g :=
  fun a ha => h a (hsub ha)

theorem AgreeOff.agreeOn (h : AgreeOff size ps f g) (hdisjoint : Disjoint ps qs) :
    AgreeOn size qs f g :=
  fun a ha => h a fun hmem => Multiset.disjoint_left.mp hdisjoint hmem ha

/-- A number in a block where the memories agree. -/
theorem AgreeOff.getLE {i n : ℕ} (h : AgreeOff size ps f g) (hb : b % size = 0) (hnot : b ∉ ps)
    (hi : i + n ≤ size) : getLE g (b + i) n = getLE f (b + i) n := by
  apply getLE_congr
  intro k hk hk'
  obtain ⟨j, rfl⟩ := Nat.exists_eq_add_of_le (Nat.le_trans (Nat.le_add_right b i) hk)
  apply h
  rwa [blockOf_add hb (by omega)]

theorem AgreeOn.getLE {i n : ℕ} (h : AgreeOn size ps f g) (hb : b % size = 0) (hmem : b ∈ ps)
    (hi : i + n ≤ size) : getLE g (b + i) n = getLE f (b + i) n := by
  apply getLE_congr
  intro k hk hk'
  obtain ⟨j, rfl⟩ := Nat.exists_eq_add_of_le (Nat.le_trans (Nat.le_add_right b i) hk)
  apply h
  rwa [blockOf_add hb (by omega)]

/-- Writing a number changes only the block it is in. -/
theorem agreeOff_putLE {i n v : ℕ} (hb : b % size = 0) (hi : i + n ≤ size) :
    AgreeOff size {b} f (putLE f (b + i) n v) := by
  intro a ha
  apply putLE_of_disjoint
  by_contra hin
  obtain ⟨j, rfl⟩ := Nat.exists_eq_add_of_le (show b ≤ a by omega)
  exact ha (Multiset.mem_singleton.mpr (blockOf_add hb (by omega)))

theorem agreeOff_fill {c : Byte} (hb : b % size = 0) : AgreeOff size {b} f (fill f b size c) := by
  intro a ha
  apply fill_of_disjoint
  by_contra hin
  obtain ⟨j, rfl⟩ := Nat.exists_eq_add_of_le (show b ≤ a by omega)
  exact ha (Multiset.mem_singleton.mpr (blockOf_add hb (by omega)))

theorem agreeOff_splice {i : ℕ} {bs : List Byte} (hb : b % size = 0)
    (hi : i + bs.length ≤ size) : AgreeOff size {b} f (splice f (b + i) bs) := by
  intro a ha
  apply splice_of_disjoint
  by_contra hin
  obtain ⟨j, rfl⟩ := Nat.exists_eq_add_of_le (show b ≤ a by omega)
  exact ha (Multiset.mem_singleton.mpr (blockOf_add hb (by omega)))

end Blocks

/-! ### Places that hold blocks -/

section Places

variable {α ι : Type} {s : Finset ι} {ref ref' : ι → Option α} {i j : ι} {x : α}

/-- What a place holds. -/
def holds : Option α → Multiset α
  | none => 0
  | some x => {x}

@[simp] theorem holds_none : holds (none : Option α) = 0 := rfl

@[simp] theorem holds_some (x : α) : holds (some x) = {x} := rfl

@[simp] theorem mem_holds {o : Option α} : x ∈ holds o ↔ o = some x := by
  cases o with
  | none => simp
  | some y =>
    rw [holds_some, Multiset.mem_singleton, Option.some.injEq]
    exact eq_comm

/-- What the places of `s` hold. -/
noncomputable def heldIn (s : Finset ι) (ref : ι → Option α) : Multiset α := ∑ i ∈ s, holds (ref i)

theorem mem_heldIn : x ∈ heldIn s ref ↔ ∃ i ∈ s, ref i = some x := by
  simp [heldIn, Multiset.mem_sum]

theorem heldIn_congr (h : ∀ i ∈ s, ref i = ref' i) : heldIn s ref = heldIn s ref' :=
  Finset.sum_congr rfl fun i hi => congrArg holds (h i hi)

theorem heldIn_eq_zero (h : ∀ i ∈ s, ref i = none) : heldIn s ref = 0 :=
  Finset.sum_eq_zero fun i hi => congrArg holds (h i hi)

/-- Places that are emptied. -/
theorem heldIn_le (h : ∀ i ∈ s, ref' i = none ∨ ref' i = ref i) : heldIn s ref' ≤ heldIn s ref := by
  apply Finset.sum_le_sum
  intro i hi
  rcases h i hi with hnone | heq
  · rw [hnone]
    exact Multiset.zero_le _
  · rw [heq]

theorem card_heldIn_le : (heldIn s ref).card ≤ s.card := by
  unfold heldIn
  rw [Multiset.card_sum]
  calc ∑ i ∈ s, (holds (ref i)).card ≤ ∑ _i ∈ s, 1 := by
        apply Finset.sum_le_sum
        intro i _
        cases ref i with
        | none => exact Nat.zero_le 1
        | some x => exact le_of_eq (Multiset.card_singleton x)
    _ = s.card := (Finset.card_eq_sum_ones s).symm

/-- Places that hold nothing may be left out. -/
theorem heldIn_subset {t : Finset ι} (hsub : s ⊆ t) (hnone : ∀ i ∈ t, i ∉ s → ref i = none) :
    heldIn t ref = heldIn s ref :=
  (Finset.sum_subset hsub fun i hi hnot => congrArg holds (hnone i hi hnot)).symm

@[simp] theorem heldIn_empty : heldIn ∅ ref = 0 := Finset.sum_empty

/-- The first of several numbered places. -/
theorem heldIn_Ico {ref : ℕ → Option α} {m n : ℕ} (h : m < n) :
    heldIn (Finset.Ico m n) ref = holds (ref m) + heldIn (Finset.Ico (m + 1) n) ref :=
  Finset.sum_eq_sum_Ico_succ_bot h _

variable [DecidableEq ι]

theorem heldIn_erase (hi : i ∈ s) : heldIn s ref = holds (ref i) + heldIn (s.erase i) ref :=
  (Finset.add_sum_erase s (fun j => holds (ref j)) hi).symm

/-- A place outside does not matter. -/
theorem heldIn_update_of_notMem (hi : i ∉ s) (o : Option α) :
    heldIn s (update ref i o) = heldIn s ref := by
  apply heldIn_congr
  intro j hj
  have hne : j ≠ i := fun heq => hi (heq ▸ hj)
  exact update_of_ne hne o ref

/-- **One place changes.** What it held goes, what it holds now comes. -/
theorem heldIn_update (hi : i ∈ s) (o : Option α) :
    heldIn s (update ref i o) + holds (ref i) = heldIn s ref + holds o := by
  rw [heldIn_erase hi, heldIn_erase hi, update_self,
    heldIn_update_of_notMem (Finset.notMem_erase i s)]
  abel

/-- If no block is held twice, each is held in one place. -/
theorem heldIn_unique (hnodup : (heldIn s ref).Nodup) (hi : i ∈ s) (hj : j ∈ s)
    (hxi : ref i = some x) (hxj : ref j = some x) : i = j := by
  by_contra hne
  have hmem : x ∈ heldIn (s.erase i) ref :=
    mem_heldIn.mpr ⟨j, Finset.mem_erase.mpr ⟨fun heq => hne heq.symm, hj⟩, hxj⟩
  rw [heldIn_erase hi, hxi, holds_some, Multiset.singleton_add, Multiset.nodup_cons] at hnodup
  exact hnodup.1 hmem

end Places

-- a sum over many places is used through its lemmas only
attribute [irreducible] heldIn

end Framework
