import Assignments.Framework.Basic

/-!
# Circular doubly linked lists

A list of cells is closed to a circle by a sentinel: the sentinel's `next` is the first cell, its
`prev` the last one. A place on the circle is an `Option`, with `none` for the sentinel, so that
the `next` of the last cell and the `next` of the sentinel of an empty list are both `none`.

* `Circle next prev l` — the links lead through the cells `l` in both directions;
* `Circle.next_prev`, `Circle.prev_next` — on such a circle the two links are inverse;
* `unlink`, `linkFront` — the pointer writes that take a cell out and put one in front, with
  what they do to the list;
* `search` — the loop that looks for the first cell with a property, and `Circle.search_next` and
  `Circle.search_prev`, by which it is `find?` from either end.
-/

namespace Framework

open Function List

variable {β : Type}

/-- Following `next` from the sentinel leads through the cells `l` and back to the sentinel, and
following `prev` leads through them the other way. -/
structure Circle (next prev : Option β → Option β) (l : List β) : Prop where
  nodup : l.Nodup
  first : next none = l.head?
  last : prev none = l.getLast?
  link : ∀ xs x ys, l = xs ++ x :: ys →
    next (some x) = ys.head? ∧ prev (some x) = xs.getLast?

namespace Circle

variable {next prev : Option β → Option β} {l xs ys : List β} {x : β}

/-- The empty list: the sentinel points to itself. -/
theorem nil (hfirst : next none = none) (hlast : prev none = none) : Circle next prev [] where
  nodup := nodup_nil
  first := hfirst
  last := hlast
  link xs x ys h := by simp at h

/-- The same circle the other way round. -/
theorem reverse (h : Circle next prev l) : Circle prev next l.reverse where
  nodup := nodup_reverse.mpr h.nodup
  first := h.last.trans head?_reverse.symm
  last := h.first.trans getLast?_reverse.symm
  link xs x ys hl := by
    have hl' : l = ys.reverse ++ x :: xs.reverse := by
      rw [← reverse_reverse l, hl]
      simp
    obtain ⟨hnext, hprev⟩ := h.link _ _ _ hl'
    exact ⟨hprev.trans getLast?_reverse, hnext.trans head?_reverse⟩

/-- Going on and coming back. -/
theorem prev_next (h : Circle next prev l) {n : Option β} (hn : ∀ x ∈ n, x ∈ l) :
    prev (next n) = n := by
  cases n with
  | none =>
    rw [h.first]
    cases l with
    | nil => exact h.last
    | cons y ys => exact (h.link [] y ys rfl).2
  | some x =>
    obtain ⟨xs, ys, rfl⟩ := append_of_mem (hn x rfl)
    rw [(h.link xs x ys rfl).1]
    cases ys with
    | nil => simp [h.last]
    | cons y zs =>
      have hy := (h.link (xs ++ [x]) y zs (by simp)).2
      simpa using hy

theorem next_prev (h : Circle next prev l) {n : Option β} (hn : ∀ x ∈ n, x ∈ l) :
    next (prev n) = n :=
  h.reverse.prev_next fun x hx => mem_reverse.mpr (hn x hx)

end Circle

/-! ### The pointer writes -/

/-- In a list without repetition an element has one place. -/
theorem append_cons_unique {as bs cs ds : List β} {z : β} (hnodup : (as ++ z :: bs).Nodup)
    (h : as ++ z :: bs = cs ++ z :: ds) : as = cs ∧ bs = ds := by
  obtain ⟨hz, -⟩ := nodup_cons.mp (nodup_middle.mp hnodup)
  obtain ⟨has, hbs⟩ := not_or.mp fun hmem => hz (mem_append.mpr hmem)
  obtain ⟨h₁, -, h₂⟩ := (append_cons_inj_of_notMem has hbs).mp h
  exact ⟨h₁, h₂⟩

section Writes

variable [DecidableEq β]

/-- `x->next->prev = x->prev; x->prev->next = x->next;` -/
def unlink (next prev : Option β → Option β) (x : β) :
    (Option β → Option β) × (Option β → Option β) :=
  (update next (prev (some x)) (next (some x)),
    update prev (next (some x)) (prev (some x)))

/-- `x->next = head.next; x->prev = &head; head.next->prev = x; head.next = x;` -/
def linkFront (next prev : Option β → Option β) (x : β) :
    (Option β → Option β) × (Option β → Option β) :=
  (update (update next (some x) (next none)) none (some x),
    update (update prev (some x) none) (next none) (some x))

variable {next prev : Option β → Option β} {l xs ys : List β} {x : β}

/-- Taking a cell out, the way forward. -/
theorem Circle.unlink_next (h : Circle next prev (xs ++ x :: ys)) :
    (unlink next prev x).1 none = (xs ++ ys).head? ∧
      ∀ as z bs, xs ++ ys = as ++ z :: bs → (unlink next prev x).1 (some z) = bs.head? := by
  obtain ⟨hnext, hprev⟩ := h.link xs x ys rfl
  have hnodup : (xs ++ ys).Nodup :=
    h.nodup.sublist ((List.Sublist.refl xs).append (sublist_cons_self x ys))
  simp only [unlink, hnext, hprev, update_apply]
  constructor
  · cases xs with
    | nil => simp
    | cons y xs => simpa [getLast?_cons] using h.first
  · intro as z bs heq
    have hz : z ∈ xs ++ ys := heq ▸ mem_append_right as mem_cons_self
    obtain hz | hz := mem_append.mp hz
    · -- before the cell taken out, perhaps right before it
      obtain ⟨as', cs, rfl⟩ := append_of_mem hz
      rw [append_assoc, cons_append] at heq hnodup
      obtain ⟨rfl, rfl⟩ := append_cons_unique hnodup heq
      have hlink := (h.link as' z (cs ++ x :: ys) (by simp)).1
      cases cs with
      | nil => simp
      | cons c cs =>
        have hlast : some z ≠ (as' ++ z :: c :: cs).getLast? := by
          intro hlast
          have hmem : z ∈ c :: cs := by
            apply mem_of_getLast?
            simpa [getLast?_append, getLast?_cons] using hlast.symm
          have hz := (nodup_cons.mp (nodup_middle.mp hnodup)).1
          exact hz (by simp only [mem_append]; exact .inr (.inl hmem))
        rw [if_neg hlast]
        exact hlink
    · -- after the cell taken out
      have hlast : some z ≠ xs.getLast? := fun hlast =>
        (nodup_append.mp hnodup).2.2 z (mem_of_getLast? hlast.symm) z hz rfl
      obtain ⟨as', cs, rfl⟩ := append_of_mem hz
      rw [← append_assoc] at heq hnodup
      obtain ⟨rfl, rfl⟩ := append_cons_unique hnodup heq
      have hlink := (h.link (xs ++ x :: as') z cs (by simp)).1
      simpa [hlast] using hlink

/-- **Taking a cell out** of the circle. -/
theorem Circle.unlink (h : Circle next prev (xs ++ x :: ys)) :
    Circle (unlink next prev x).1 (unlink next prev x).2 (xs ++ ys) := by
  obtain ⟨hfirst, hnext⟩ := h.unlink_next
  -- the way back is the way forward on the reversed circle
  have hreverse : Circle prev next (ys.reverse ++ x :: xs.reverse) := by simpa using h.reverse
  obtain ⟨hlast, hprev⟩ := hreverse.unlink_next
  refine
    { nodup := h.nodup.sublist ((List.Sublist.refl xs).append (sublist_cons_self x ys))
      first := hfirst
      last := ?_
      link := fun as z bs heq => ⟨hnext as z bs heq, ?_⟩ }
  · rw [← head?_reverse, reverse_append]
    exact hlast
  · rw [← head?_reverse]
    apply hprev bs.reverse z
    rw [← reverse_append, heq]
    simp

/-- **Putting a cell in front** of the others. -/
theorem Circle.linkFront (h : Circle next prev l) (hx : x ∉ l) :
    Circle (linkFront next prev x).1 (linkFront next prev x).2 (x :: l) := by
  have hhead : ∀ z, l.head? = some z → z ≠ x :=
    fun z hz heq => hx (heq ▸ mem_of_mem_head? hz)
  refine
    { nodup := nodup_cons.mpr ⟨hx, h.nodup⟩
      first := by simp [Framework.linkFront]
      last := ?_
      link := ?_ }
  · simp only [Framework.linkFront, h.first, update_apply]
    cases l with
    | nil => simp
    | cons y ys => simpa [getLast?_cons] using h.last
  · intro as z bs heq
    cases as with
    | nil =>
      obtain ⟨rfl, rfl⟩ := cons.inj heq
      simp only [Framework.linkFront, h.first, update_apply]
      refine ⟨by simp, ?_⟩
      have hne : some x ≠ l.head? := fun heq => hhead x heq.symm rfl
      simp [hne]
    | cons a as =>
      obtain ⟨rfl, rfl⟩ := cons.inj heq
      have hz : z ≠ x := by
        rintro rfl
        exact hx (mem_append_right as mem_cons_self)
      obtain ⟨hnext, hprev⟩ := h.link as z bs rfl
      simp only [Framework.linkFront, h.first, update_apply]
      refine ⟨by simpa [hz] using hnext, ?_⟩
      cases as with
      | nil => simp
      | cons c cs =>
        -- `z` is not the first cell, since that is `c`
        have hne : z ≠ c := by
          rintro rfl
          exact (nodup_cons.mp h.nodup).1 (mem_append_right cs mem_cons_self)
        simpa [hz, hne, getLast?_cons] using hprev

/-- Putting one cell after the other in front. -/
theorem Circle.foldl_linkFront : ∀ {links : (Option β → Option β) × (Option β → Option β)}
    {l xs : List β}, Circle links.1 links.2 l → xs.Nodup → (∀ x ∈ xs, x ∉ l) →
    Circle (xs.foldl (fun links x => Framework.linkFront links.1 links.2 x) links).1
      (xs.foldl (fun links x => Framework.linkFront links.1 links.2 x) links).2 (xs.reverse ++ l)
  | _, _, [], h, _, _ => h
  | _, l, x :: xs, h, hnodup, hxs => by
    obtain ⟨hx, hnodup⟩ := nodup_cons.mp hnodup
    have hfront := h.linkFront (hxs x mem_cons_self)
    have hrest : ∀ y ∈ xs, y ∉ x :: l := by
      intro y hy hmem
      obtain rfl | hmem := mem_cons.mp hmem
      · exact hx hy
      · exact hxs y (mem_cons_of_mem x hy) hmem
    rw [reverse_cons, append_assoc]
    exact Circle.foldl_linkFront hfront hnodup hrest

end Writes

/-! ### Searching -/

/-- `for(b = from; b != &head; b = step b) if(p b) return b;` from the place `n`. The loop has no
bound in the source; one that has not come back to the sentinel after `fuel` cells gives no
result. -/
def search (step : Option β → Option β) (p : β → Bool) : ℕ → Option β → Option (Option β)
  | 0, _ => none
  | _ + 1, none => some none
  | fuel + 1, some x => if p x then some (some x) else search step p fuel (step (some x))

section Search

variable {next prev : Option β → Option β} {l : List β} {p : β → Bool}

theorem Circle.search_suffix (h : Circle next prev l) : ∀ {fuel : ℕ} {xs ys : List β},
    l = xs ++ ys → ys.length < fuel → search next p fuel ys.head? = some (ys.find? p)
  | 0, _, _, _, hlen => absurd hlen (Nat.not_lt_zero _)
  | fuel + 1, xs, [], _, _ => rfl
  | fuel + 1, xs, y :: ys, hl, hlen => by
    have hnext := (h.link xs y ys hl).1
    have hl' : l = (xs ++ [y]) ++ ys := by simp [hl]
    have ih := h.search_suffix hl' (Nat.lt_of_succ_lt_succ hlen)
    simp only [head?_cons, search, hnext, ih, find?_cons]
    cases p y <;> rfl

/-- Searching from the first cell on. -/
theorem Circle.search_next (h : Circle next prev l) {fuel : ℕ} (hlen : l.length < fuel) :
    search next p fuel (next none) = some (l.find? p) := by
  rw [h.first]
  exact h.search_suffix (nil_append l).symm hlen

/-- Searching from the last cell back. -/
theorem Circle.search_prev (h : Circle next prev l) {fuel : ℕ} (hlen : l.length < fuel) :
    search prev p fuel (prev none) = some (l.reverse.find? p) :=
  h.reverse.search_next (by rwa [length_reverse])

end Search

end Framework
