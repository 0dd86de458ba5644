import Assignments.Framework.Basic

/-!
# Blocks owned by places

A store gives out numbered blocks from a pool and marks those that are in use. A block in use is
held in a place; a place that holds none has 0, which is not in the pool.

* `Owns ref used pool` — what the places hold comes from the pool, no block is held twice, and a
  block is marked iff it is held;
* `Owns.link`, `Owns.unlink` — a free block is marked and put in an empty place; a place is
  emptied and its block's mark cleared.
-/

namespace Framework

open Function

/-- Place `p` holds the block `ref p`, or none if that is 0. -/
structure Owns {P : Type} (ref : P → ℕ) (used : ℕ → Bool) (pool : ℕ → Prop) : Prop where
  mem_pool : ∀ p, ref p ≠ 0 → pool (ref p)
  unique : ∀ p q, ref p ≠ 0 → ref p = ref q → p = q
  used_iff : ∀ b, pool b → (used b = true ↔ ∃ p, ref p = b)

namespace Owns

variable {P : Type} {ref ref' : P → ℕ} {used used' : ℕ → Bool} {pool : ℕ → Prop} {p : P} {b : ℕ}

/-- What a place holds is marked. -/
theorem marked (h : Owns ref used pool) (hp : ref p ≠ 0) : used (ref p) = true :=
  (h.used_iff _ (h.mem_pool p hp)).mpr ⟨p, rfl⟩

/-- No place holds a block that is not marked. -/
theorem ne_of_free (h : Owns ref used pool) (hb : pool b) (hfree : used b = false) (p : P) :
    ref p ≠ b := by
  intro hp
  have hused := (h.used_iff b hb).mpr ⟨p, hp⟩
  rw [hfree] at hused
  cases hused

theorem congr (h : Owns ref used pool) (href : ∀ p, ref' p = ref p)
    (hused : ∀ b, pool b → used' b = used b) : Owns ref' used' pool where
  mem_pool p hp := by
    rw [href p] at hp ⊢
    exact h.mem_pool p hp
  unique p q hp hpq := by
    rw [href p] at hp
    rw [href p, href q] at hpq
    exact h.unique p q hp hpq
  used_iff b hb := by
    rw [hused b hb, h.used_iff b hb]
    exact exists_congr fun p => by rw [href p]

variable [DecidableEq P]

/-- **A free block is put in an empty place.** -/
theorem link (h : Owns ref used pool) (hp : ref p = 0) (hb : pool b) (hzero : ¬ pool 0)
    (hfree : used b = false) :
    Owns (update ref p b) (update used b true) pool where
  mem_pool q hq := by
    rw [update_apply] at hq ⊢
    split at hq
    next hqp => rwa [if_pos hqp]
    next hqp =>
      rw [if_neg hqp]
      exact h.mem_pool q hq
  unique q r hq hqr := by
    rw [update_apply] at hq hqr
    rw [update_apply] at hqr
    by_cases hqp : q = p
    · by_cases hrp : r = p
      · exact hqp.trans hrp.symm
      · rw [if_pos hqp, if_neg hrp] at hqr
        exact absurd hqr.symm (h.ne_of_free hb hfree r)
    · rw [if_neg hqp] at hq hqr
      by_cases hrp : r = p
      · rw [if_pos hrp] at hqr
        exact absurd hqr (h.ne_of_free hb hfree q)
      · rw [if_neg hrp] at hqr
        exact h.unique q r hq hqr
  used_iff c hc := by
    rw [update_apply]
    split
    next hcb =>
      subst hcb
      exact iff_of_true rfl ⟨p, update_self ..⟩
    next hcb =>
      rw [h.used_iff c hc]
      constructor
      · rintro ⟨q, rfl⟩
        have hqp : q ≠ p := by
          rintro rfl
          exact hzero (hp ▸ hc)
        exact ⟨q, update_of_ne hqp ..⟩
      · rintro ⟨q, hq⟩
        rw [update_apply] at hq
        split at hq
        next => exact absurd hq.symm hcb
        next => exact ⟨q, hq⟩

/-- **A place is emptied.** -/
theorem unlink (h : Owns ref used pool) (hp : ref p ≠ 0) (hzero : ¬ pool 0) :
    Owns (update ref p 0) (update used (ref p) false) pool where
  mem_pool q hq := by
    rw [update_apply] at hq ⊢
    split at hq
    next => exact absurd rfl hq
    next hqp =>
      rw [if_neg hqp]
      exact h.mem_pool q hq
  unique q r hq hqr := by
    rw [update_apply] at hq hqr
    rw [update_apply] at hqr
    by_cases hqp : q = p
    · rw [if_pos hqp] at hq
      exact absurd rfl hq
    · rw [if_neg hqp] at hq hqr
      by_cases hrp : r = p
      · rw [if_pos hrp] at hqr
        exact absurd hqr hq
      · rw [if_neg hrp] at hqr
        exact h.unique q r hq hqr
  used_iff c hc := by
    have hczero : c ≠ 0 := fun heq => hzero (heq ▸ hc)
    rw [update_apply]
    split
    next hcp =>
      refine iff_of_false Bool.false_ne_true ?_
      rintro ⟨q, hq⟩
      rw [update_apply] at hq
      split at hq
      next => exact hczero hq.symm
      next hqp => exact hqp (h.unique q p (hq.symm ▸ hczero) (hq.trans hcp))
    next hcp =>
      rw [h.used_iff c hc]
      constructor
      · rintro ⟨q, rfl⟩
        have hqp : q ≠ p := by
          rintro rfl
          exact hcp rfl
        exact ⟨q, update_of_ne hqp ..⟩
      · rintro ⟨q, hq⟩
        rw [update_apply] at hq
        split at hq
        next => exact absurd hq.symm hczero
        next => exact ⟨q, hq⟩

end Owns

end Framework
