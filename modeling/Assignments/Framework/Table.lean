import Assignments.Framework.Basic

/-!
# Counting over a table

A table is a function from a finite index type. `total w t` adds up the weights `w` of the entries
of `t`: with weight `1` for the entries that point at something and `0` for the others it counts
the references to it. What an update of the table does to such a count:

* `total_update` — one entry replaced by another;
* `total_of_agree` — two entries replaced, whatever the order and the number of the writes;
* `le_total` — an entry weighs no more than the table.
-/

namespace Framework

open Function

variable {ι α : Type} [Fintype ι]

/-- What the entries of `t` weigh together. -/
@[irreducible] def total (w : α → ℕ) (t : ι → α) : ℕ := ∑ i, w (t i)

theorem total_eq_sum (w : α → ℕ) (t : ι → α) : total w t = ∑ i, w (t i) := by
  unfold total
  rfl

theorem le_total (w : α → ℕ) (t : ι → α) (i : ι) : w (t i) ≤ total w t := by
  rw [total_eq_sum]
  exact Finset.single_le_sum (f := fun i => w (t i)) (fun _ _ => Nat.zero_le _)
    (Finset.mem_univ i)

theorem total_le_total {w w' : α → ℕ} {t : ι → α} (h : ∀ i, w (t i) ≤ w' (t i)) :
    total w t ≤ total w' t := by
  rw [total_eq_sum, total_eq_sum]
  exact Finset.sum_le_sum fun i _ => h i

theorem total_mul (n : ℕ) (w : α → ℕ) (t : ι → α) : total (fun a => n * w a) t = n * total w t := by
  rw [total_eq_sum, total_eq_sum, Finset.mul_sum]

theorem total_eq_zero_iff {w : α → ℕ} {t : ι → α} : total w t = 0 ↔ ∀ i, w (t i) = 0 := by
  simp [total_eq_sum]

theorem total_pos_iff {w : α → ℕ} {t : ι → α} : 0 < total w t ↔ ∃ i, 0 < w (t i) := by
  simp only [Nat.pos_iff_ne_zero, Ne, total_eq_zero_iff, not_forall]

theorem total_eq_single {w : α → ℕ} {t : ι → α} (i : ι) (h : ∀ k, k ≠ i → w (t k) = 0) :
    total w t = w (t i) := by
  rw [total_eq_sum]
  exact Finset.sum_eq_single i (fun k _ hk => h k hk) fun hi => absurd (Finset.mem_univ i) hi

variable [DecidableEq ι]

/-- **One entry replaced.** Written without a subtraction: what the old entry weighed is added on
the other side. -/
theorem total_update (w : α → ℕ) (t : ι → α) (i : ι) (a : α) :
    total w (update t i a) + w (t i) = total w t + w a := by
  have hnew := Finset.add_sum_erase Finset.univ (fun k => w (update t i a k))
    (Finset.mem_univ i)
  have hold := Finset.add_sum_erase Finset.univ (fun k => w (t k)) (Finset.mem_univ i)
  have hrest : ∑ k ∈ Finset.univ.erase i, w (update t i a k) =
      ∑ k ∈ Finset.univ.erase i, w (t k) := by
    refine Finset.sum_congr rfl fun k hk => ?_
    rw [update_of_ne (Finset.ne_of_mem_erase hk)]
  simp only [update_self] at hnew
  rw [total_eq_sum, total_eq_sum]
  omega

/-- **Two entries replaced.** The tables agree everywhere else. -/
theorem total_of_agree (w : α → ℕ) {t t' : ι → α} {i j : ι} (hne : i ≠ j)
    (hagree : ∀ k, k ≠ i → k ≠ j → t' k = t k) :
    total w t' + w (t i) + w (t j) = total w t + w (t' i) + w (t' j) := by
  have ht' : t' = update (update t i (t' i)) j (t' j) := by
    funext k
    by_cases hj : k = j
    · rw [hj, update_self]
    · rw [update_of_ne hj]
      by_cases hi : k = i
      · rw [hi, update_self]
      · rw [update_of_ne hi, hagree k hi hj]
  have hi := total_update w t i (t' i)
  have hj := total_update w (update t i (t' i)) j (t' j)
  rw [update_of_ne hne.symm, ← ht'] at hj
  omega

end Framework
