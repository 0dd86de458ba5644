import Assignments.Framework.Basic

/-!
# Singly linked chains of cells

A chain is a pointer to its first cell and, for every cell, a pointer to the next; the null
pointer is `none`.

* `Chain next o l` — following `next` from the pointer `o` leads through the cells `l`, in this
  order, and ends;
* `lastCell` — the loop that follows a chain to its last cell;
* `appendCell` — hang a cell on the end of a chain, with `appendCell_spec`.
-/

namespace Framework

open Function

variable {β : Type}

/-- The pointers from `o` on lead through the cells `l`, in this order, and end there. -/
def Chain (next : β → Option β) : Option β → List β → Prop
  | o, [] => o = none
  | o, x :: xs => o = some x ∧ Chain next (next x) xs

variable {next : β → Option β} {o : Option β} {l : List β} {x b : β} {fuel : ℕ}

@[simp] theorem chain_nil : Chain next o [] ↔ o = none := Iff.rfl

@[simp] theorem chain_cons {xs : List β} :
    Chain next o (x :: xs) ↔ o = some x ∧ Chain next (next x) xs := Iff.rfl

/-- Following a chain from the cell `x` to the cell whose pointer is null. The source's loop has
no bound; one that has not ended after `fuel` cells gives no result. -/
def lastCell (next : β → Option β) : ℕ → β → Option β
  | 0, _ => none
  | fuel + 1, x =>
    match next x with
    | none => some x
    | some y => lastCell next fuel y

theorem Chain.head? (h : Chain next o l) : l.head? = o := by
  cases l with
  | nil => exact h.symm
  | cons x xs => exact h.1.symm

/-- A chain depends on the pointers of its cells only. -/
theorem Chain.congr {next' : β → Option β} : ∀ {o : Option β} {l : List β},
    Chain next o l → (∀ x ∈ l, next' x = next x) → Chain next' o l
  | _, [], h, _ => h
  | _, x :: xs, h, heq => by
    refine ⟨h.1, ?_⟩
    rw [heq x List.mem_cons_self]
    exact Chain.congr h.2 fun y hy => heq y (List.mem_cons_of_mem x hy)

/-- A chain of at most `fuel` cells is followed to its last one. -/
theorem Chain.lastCell : ∀ {fuel : ℕ} {x : β} {xs : List β}, Chain next (some x) (x :: xs) →
    xs.length < fuel → lastCell next fuel x = some ((x :: xs).getLast (List.cons_ne_nil x xs))
  | 0, _, _, _, hlen => absurd hlen (Nat.not_lt_zero _)
  | fuel + 1, x, [], h, _ => by
    have hnext : next x = none := h.2
    simp [Framework.lastCell, hnext]
  | fuel + 1, x, y :: ys, h, hlen => by
    obtain ⟨hnext, hys⟩ := h.2
    have hchain : Chain next (some y) (y :: ys) := ⟨rfl, hys⟩
    have hlast := hchain.lastCell (Nat.lt_of_succ_lt_succ hlen)
    simp [Framework.lastCell, hnext, hlast]

variable [DecidableEq β]

/-- A pointer of a cell that is not on the chain may be rewritten. -/
theorem Chain.update_of_notMem : ∀ {o : Option β} {l : List β} {p : Option β},
    Chain next o l → x ∉ l → Chain (update next x p) o l
  | _, [], _, h, _ => h
  | _, y :: ys, _, h, hx => by
    have hne : y ≠ x := fun heq => hx (heq ▸ List.mem_cons_self)
    refine ⟨h.1, ?_⟩
    rw [update_of_ne hne]
    exact Chain.update_of_notMem h.2 fun hmem => hx (List.mem_cons_of_mem y hmem)

/-- Rewriting the null pointer at the end of a chain hangs another cell on it. -/
theorem Chain.concat : ∀ {o : Option β} {x : β} {xs : List β}, Chain next o (x :: xs) →
    (x :: xs).Nodup → b ∉ x :: xs → next b = none →
    Chain (update next ((x :: xs).getLast (List.cons_ne_nil x xs)) (some b)) o
      (x :: xs ++ [b])
  | _, x, [], h, _, hb, hnull => by
    have hne : b ≠ x := fun heq => hb (heq ▸ List.mem_cons_self)
    refine ⟨h.1, ?_⟩
    simp [hne, hnull]
  | _, x, y :: ys, h, hnodup, hb, hnull => by
    obtain ⟨hx, hnodup⟩ := List.nodup_cons.mp hnodup
    have hne : x ≠ (y :: ys).getLast (List.cons_ne_nil y ys) :=
      fun heq => hx (heq ▸ List.getLast_mem _)
    refine ⟨h.1, ?_⟩
    rw [List.getLast_cons (List.cons_ne_nil y ys), update_of_ne hne]
    exact Chain.concat h.2 hnodup (fun hmem => hb (List.mem_cons_of_mem x hmem)) hnull

/-- Hang the cell `b` on the end of the chain `o`: its own pointer becomes null, and the null
pointer that ends the chain, the pointer to its first cell if it is empty, becomes `b`. -/
def appendCell (next : β → Option β) (fuel : ℕ) (o : Option β) (b : β) :
    Option (Option β × (β → Option β)) :=
  match o with
  | none => some (some b, update next b none)
  | some x =>
    (lastCell (update next b none) fuel x).map fun y =>
      (some x, update (update next b none) y (some b))

/-- **Appending.** With enough fuel the loop ends, and the chain is the old one with `b` at its
end. -/
theorem appendCell_spec (h : Chain next o l) (hnodup : l.Nodup) (hb : b ∉ l)
    (hlen : l.length ≤ fuel) :
    ∃ o' next', appendCell next fuel o b = some (o', next') ∧ Chain next' o' (l ++ [b]) := by
  cases l with
  | nil =>
    obtain rfl : o = none := h
    exact ⟨_, _, rfl, by simp⟩
  | cons x xs =>
    have hcleared : Chain (update next b none) o (x :: xs) := h.update_of_notMem hb
    obtain rfl : o = some x := h.1
    have hlast := hcleared.lastCell hlen
    refine ⟨some x, _, ?_, hcleared.concat hnodup hb (update_self ..)⟩
    simp only [appendCell, hlast, Option.map_some]

end Framework
