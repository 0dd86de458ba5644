import Assignments.Framework.Basic

/-!
# Queues in a ring

A queue `q` of at most `N` elements in an array of `N` cells, from the cell of a counter `r` on
(`Holds`). The counters only count up, and a cell is found by reducing one modulo `N`; so it does
not matter that a counter wraps around at a multiple of `N` (`Holds.congr`).

* `Holds.push` — a store behind the last element adds one at the end;
* `Holds.pop` — the first element is in the cell of `r`, and the rest is the queue from `r + 1` on;
* `window`, `Holds.eq_window` — the queue as it is read off the array.
-/

namespace Framework.Ring

variable {α : Type} {N : ℕ} [NeZero N]

/-- The cells from that of `r` on hold `q`. -/
structure Holds (cells : Fin N → α) (r : ℕ) (q : List α) : Prop where
  length : q.length ≤ N
  cell : ∀ k (hk : k < q.length), cells (Fin.ofNat N (r + k)) = q[k]

variable {cells : Fin N → α} {r : ℕ} {q : List α} {a : α}

theorem ofNat_eq_ofNat {x y : ℕ} : Fin.ofNat N x = Fin.ofNat N y ↔ x ≡ y [MOD N] := by
  rw [Fin.ext_iff]
  exact Iff.rfl

theorem holds_nil (cells : Fin N → α) (r : ℕ) : Holds cells r [] :=
  ⟨Nat.zero_le N, nofun⟩

/-- Only the remainder of the counter counts. -/
theorem Holds.congr (h : Holds cells r q) {r' : ℕ} (hr : r' ≡ r [MOD N]) : Holds cells r' q where
  length := h.length
  cell k hk := by
    rw [ofNat_eq_ofNat.mpr (hr.add_right k)]
    exact h.cell k hk

/-- **At the end.** The cell behind the last element is a cell of none of the others. -/
theorem Holds.push (h : Holds cells r q) (hroom : q.length < N) (a : α) :
    Holds (Function.update cells (Fin.ofNat N (r + q.length)) a) r (q ++ [a]) where
  length := by
    rw [List.length_append, List.length_singleton]
    exact hroom
  cell k hk := by
    rw [List.length_append, List.length_singleton] at hk
    rcases Nat.lt_succ_iff_lt_or_eq.mp hk with hlt | rfl
    · have hne : Fin.ofNat N (r + k) ≠ Fin.ofNat N (r + q.length) := by
        intro heq
        have hmod : k ≡ q.length [MOD N] := Nat.ModEq.add_left_cancel' r (ofNat_eq_ofNat.mp heq)
        have := hmod.eq_of_lt_of_lt (hlt.trans hroom) hroom
        omega
      rw [Function.update_of_ne hne, List.getElem_append_left hlt]
      exact h.cell k hlt
    · rw [Function.update_self, List.getElem_append_right (le_refl _)]
      simp

/-- **At the front.** -/
theorem Holds.pop (h : Holds cells r (a :: q)) :
    cells (Fin.ofNat N r) = a ∧ Holds cells (r + 1) q := by
  refine ⟨h.cell 0 (Nat.succ_pos _), ⟨(Nat.le_succ _).trans h.length, fun k hk => ?_⟩⟩
  have hcell := h.cell (k + 1) (Nat.succ_lt_succ hk)
  rw [List.getElem_cons_succ] at hcell
  rw [← hcell]
  congr 2
  omega

/-- The `n` elements from the cell of `r` on. -/
def window (cells : Fin N → α) (r n : ℕ) : List α :=
  (List.range n).map fun k => cells (Fin.ofNat N (r + k))

theorem Holds.eq_window (h : Holds cells r q) : q = window cells r q.length := by
  apply List.ext_getElem
  · simp [window]
  · intro k hk _
    simp only [window, List.getElem_map, List.getElem_range]
    exact (h.cell k hk).symm

end Framework.Ring
