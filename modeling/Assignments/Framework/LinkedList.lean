import Assignments.Framework.Basic

/-!
# Doubly linked lists with sentinels, on a heap

Cells live in a bump-allocated heap and are addressed by their index; nothing is ever freed. A
link that has not been written yet is `none`, and reading or following such a link gives no
result: it stands for the undefined behaviour of following an indeterminate pointer.

* `Heap` and its accessors `next`, `prev`, `data`, with the writes `setNext`, `setPrev`,
  `setData` and the allocation `alloc`;
* `linkFront` and `unlink` — the two pointer surgeries on a list between two sentinels;
* `Linked h head tail xs` — the cells `xs`, in this order, are linked between the sentinels
  `head` and `tail` in both directions, and the `prev` link of `head` was never written;
* `linkFront_spec`, `unlink_spec`, `sentinels_spec` — what the surgeries do to the list they
  work on. What they leave alone is a `Frame`, and `Linked.frame` carries every other list over.
-/

namespace Framework

open List

/-- A heap cell: its payload and its two links. -/
structure Cell (α : Type) where
  data : α
  next : Option ℕ
  prev : Option ℕ

/-- A heap of cells, addressed by index. -/
structure Heap (α : Type) where
  cells : List (Cell α)

namespace Heap

variable {α : Type}

/-! ### Accessors and writes -/

/-- The number of cells allocated so far, which is also the next address. -/
def size (h : Heap α) : ℕ := h.cells.length

def next (h : Heap α) (p : ℕ) : Option ℕ := h.cells[p]?.bind Cell.next

def prev (h : Heap α) (p : ℕ) : Option ℕ := h.cells[p]?.bind Cell.prev

def data (h : Heap α) (p : ℕ) : Option α := h.cells[p]?.map Cell.data

/-- Rewrite the cell at `p`; nothing happens at an address that is not allocated. -/
def modify (h : Heap α) (p : ℕ) (g : Cell α → Cell α) : Heap α := ⟨h.cells.modify p g⟩

def setNext (h : Heap α) (p q : ℕ) : Option (Heap α) :=
  if p < h.size then some (h.modify p fun c => { c with next := some q }) else none

def setPrev (h : Heap α) (p q : ℕ) : Option (Heap α) :=
  if p < h.size then some (h.modify p fun c => { c with prev := some q }) else none

def setData (h : Heap α) (p : ℕ) (a : α) : Option (Heap α) :=
  if p < h.size then some (h.modify p fun c => { c with data := a }) else none

/-- A new cell with unwritten links. -/
def alloc (h : Heap α) (a : α) : Heap α × ℕ := (⟨h.cells ++ [⟨a, none, none⟩]⟩, h.size)

/-- Insert `node` right after the sentinel `head`. -/
def linkFront (h : Heap α) (head node : ℕ) : Option (Heap α) := do
  let temp ← h.next head
  let h ← h.setNext node temp
  let h ← h.setPrev node head
  let h ← h.setNext head node
  h.setPrev temp node

/-- Connect the two neighbours of `node` with each other. -/
def unlink (h : Heap α) (node : ℕ) : Option (Heap α) := do
  let before ← h.prev node
  let behind ← h.next node
  let h ← h.setNext before behind
  h.setPrev behind before

/-- Allocate two sentinels with payload `a` and link them to an empty list; the result is the
heap with the addresses of the head and of the tail. -/
def sentinels (h : Heap α) (a : α) : Option (Heap α × ℕ × ℕ) := do
  let (h, head) := h.alloc a
  let (h, tail) := h.alloc a
  let h ← h.setNext head tail
  let h ← h.setPrev tail head
  return (h, head, tail)

variable {h h' : Heap α} {p q x : ℕ} {a : α}

theorem lt_size_of_next (hn : h.next p = some q) : p < h.size := by
  unfold next at hn
  obtain ⟨c, hc, -⟩ := Option.bind_eq_some_iff.mp hn
  exact (List.getElem?_eq_some_iff.mp hc).1

theorem lt_size_of_prev (hn : h.prev p = some q) : p < h.size := by
  unfold prev at hn
  obtain ⟨c, hc, -⟩ := Option.bind_eq_some_iff.mp hn
  exact (List.getElem?_eq_some_iff.mp hc).1

theorem exists_data (hp : p < h.size) : ∃ a, h.data p = some a :=
  ⟨_, by unfold data; rw [getElem?_eq_getElem hp]; rfl⟩

/-! ### What the writes do -/

/-- `h'` is `h` with the `next` link of `p` rewritten. -/
structure NextWritten (h h' : Heap α) (p q : ℕ) : Prop where
  size : h'.size = h.size
  next : ∀ x, h'.next x = if x = p then some q else h.next x
  prev : ∀ x, h'.prev x = h.prev x
  data : ∀ x, h'.data x = h.data x

/-- `h'` is `h` with the `prev` link of `p` rewritten. -/
structure PrevWritten (h h' : Heap α) (p q : ℕ) : Prop where
  size : h'.size = h.size
  next : ∀ x, h'.next x = h.next x
  prev : ∀ x, h'.prev x = if x = p then some q else h.prev x
  data : ∀ x, h'.data x = h.data x

theorem setNext_spec (hp : p < h.size) (q : ℕ) :
    ∃ h', h.setNext p q = some h' ∧ NextWritten h h' p q := by
  refine ⟨_, if_pos hp, ⟨by simp [size, modify], fun x => ?_, fun x => ?_, fun x => ?_⟩⟩
  · unfold next modify
    rw [getElem?_modify]
    by_cases hx : x = p
    · subst hx; simp [getElem?_eq_getElem (show x < h.cells.length from hp)]
    · simp [hx, Ne.symm hx]
  · unfold prev modify
    rw [getElem?_modify]
    by_cases hx : p = x <;> cases h.cells[x]? <;> simp [hx]
  · unfold data modify
    rw [getElem?_modify]
    by_cases hx : p = x <;> cases h.cells[x]? <;> simp [hx]

theorem setPrev_spec (hp : p < h.size) (q : ℕ) :
    ∃ h', h.setPrev p q = some h' ∧ PrevWritten h h' p q := by
  refine ⟨_, if_pos hp, ⟨by simp [size, modify], fun x => ?_, fun x => ?_, fun x => ?_⟩⟩
  · unfold next modify
    rw [getElem?_modify]
    by_cases hx : p = x <;> cases h.cells[x]? <;> simp [hx]
  · unfold prev modify
    rw [getElem?_modify]
    by_cases hx : x = p
    · subst hx; simp [getElem?_eq_getElem (show x < h.cells.length from hp)]
    · simp [hx, Ne.symm hx]
  · unfold data modify
    rw [getElem?_modify]
    by_cases hx : p = x <;> cases h.cells[x]? <;> simp [hx]

/-- `h'` is `h` with the payload of `p` rewritten. -/
structure DataWritten (h h' : Heap α) (p : ℕ) (a : α) : Prop where
  size : h'.size = h.size
  next : ∀ x, h'.next x = h.next x
  prev : ∀ x, h'.prev x = h.prev x
  data : ∀ x, h'.data x = if x = p then some a else h.data x

theorem setData_spec (hp : p < h.size) (a : α) :
    ∃ h', h.setData p a = some h' ∧ DataWritten h h' p a := by
  refine ⟨_, if_pos hp, ⟨by simp [size, modify], fun x => ?_, fun x => ?_, fun x => ?_⟩⟩
  · unfold next modify
    rw [getElem?_modify]
    by_cases hx : p = x <;> cases h.cells[x]? <;> simp [hx]
  · unfold prev modify
    rw [getElem?_modify]
    by_cases hx : p = x <;> cases h.cells[x]? <;> simp [hx]
  · unfold data modify
    rw [getElem?_modify]
    by_cases hx : x = p
    · subst hx; simp [getElem?_eq_getElem (show x < h.cells.length from hp)]
    · simp [hx, Ne.symm hx]

/-- `h'` is `h` with one fresh cell of payload `a`. -/
structure Allocated (h h' : Heap α) (a : α) : Prop where
  size : h'.size = h.size + 1
  next : ∀ x, h'.next x = h.next x
  prev : ∀ x, h'.prev x = h.prev x
  data : ∀ x, h'.data x = if x = h.size then some a else h.data x

theorem alloc_spec (h : Heap α) (a : α) : Allocated h (h.alloc a).1 a := by
  have hget : ∀ x, (h.alloc a).1.cells[x]? =
      if x = h.size then some ⟨a, none, none⟩ else h.cells[x]? := by
    intro x
    unfold alloc size
    rw [getElem?_append]
    rcases lt_trichotomy x h.cells.length with hx | hx | hx
    · rw [if_pos hx, if_neg hx.ne]
    · rw [if_neg (by omega), if_pos hx]; simp [hx]
    · rw [if_neg (by omega), if_neg hx.ne', getElem?_eq_none (by simp; omega),
        getElem?_eq_none (by omega)]
  have hnone : h.cells[h.size]? = none := getElem?_eq_none (le_refl _)
  refine ⟨by simp [size, alloc], fun x => ?_, fun x => ?_, fun x => ?_⟩
  · unfold next
    rw [hget]
    split_ifs with hx
    · rw [hx, hnone]; rfl
    · rfl
  · unfold prev
    rw [hget]
    split_ifs with hx
    · rw [hx, hnone]; rfl
    · rfl
  · unfold data
    rw [hget]
    split_ifs <;> rfl

/-! ### Frames -/

/-- `h'` extends `h`, keeps every payload, and keeps the links of every address outside
`touched`. -/
structure Frame (h h' : Heap α) (touched : List ℕ) : Prop where
  size : h.size ≤ h'.size
  data : ∀ x, x < h.size → h'.data x = h.data x
  next : ∀ x, x < h.size → x ∉ touched → h'.next x = h.next x
  prev : ∀ x, x < h.size → x ∉ touched → h'.prev x = h.prev x

theorem Frame.trans {h'' : Heap α} {T T' : List ℕ} (h₁ : Frame h h' T) (h₂ : Frame h' h'' T') :
    Frame h h'' (T ++ T') where
  size := h₁.size.trans h₂.size
  data x hx := (h₂.data x (hx.trans_le h₁.size)).trans (h₁.data x hx)
  next x hx hT := by
    rw [mem_append, not_or] at hT
    exact (h₂.next x (hx.trans_le h₁.size) hT.2).trans (h₁.next x hx hT.1)
  prev x hx hT := by
    rw [mem_append, not_or] at hT
    exact (h₂.prev x (hx.trans_le h₁.size) hT.2).trans (h₁.prev x hx hT.1)

theorem Frame.mono {T T' : List ℕ} (hf : Frame h h' T) (hT : ∀ x ∈ T, x ∈ T') :
    Frame h h' T' where
  size := hf.size
  data := hf.data
  next x hx hx' := hf.next x hx fun hm => hx' (hT x hm)
  prev x hx hx' := hf.prev x hx fun hm => hx' (hT x hm)

theorem NextWritten.frame (hw : NextWritten h h' p q) : Frame h h' [p] where
  size := hw.size.ge
  data x _ := hw.data x
  next x _ hx := by rw [hw.next, if_neg (by simpa using hx)]
  prev x _ _ := hw.prev x

theorem PrevWritten.frame (hw : PrevWritten h h' p q) : Frame h h' [p] where
  size := hw.size.ge
  data x _ := hw.data x
  next x _ _ := hw.next x
  prev x _ hx := by rw [hw.prev, if_neg (by simpa using hx)]

theorem Allocated.frame (ha : Allocated h h' a) : Frame h h' [] where
  size := by rw [ha.size]; omega
  data x hx := by rw [ha.data, if_neg hx.ne]
  next x _ _ := ha.next x
  prev x _ _ := ha.prev x

/-! ### Lists between sentinels -/

/-- The two links between neighbours. -/
def Link (h : Heap α) (a b : ℕ) : Prop := h.next a = some b ∧ h.prev b = some a

/-- The cells `xs` are linked, in this order, between the sentinels `head` and `tail`. -/
structure Linked (h : Heap α) (head tail : ℕ) (xs : List ℕ) : Prop where
  nodup : (head :: (xs ++ [tail])).Nodup
  chain : (head :: (xs ++ [tail])).IsChain h.Link
  /-- The `prev` link of the head sentinel was never written. -/
  head_prev : h.prev head = none

variable {head tail : ℕ} {xs ys : List ℕ} {T : List ℕ}

section

variable (hl : Linked h head tail xs)

include hl

/-- Every cell of a list is allocated. -/
theorem Linked.lt_size (hx : x ∈ head :: (xs ++ [tail])) : x < h.size := by
  -- the head has a `next` link, every later cell a `prev` link
  rcases mem_cons.mp hx with rfl | hx
  · obtain ⟨b, hb⟩ : ∃ b, b ∈ (xs ++ [tail]).head? := by cases xs <;> simp
    exact lt_size_of_next (hl.chain.rel_head? hb).1
  · obtain ⟨l₁, l₂, hsplit⟩ := append_of_mem hx
    have hchain := hl.chain
    rw [hsplit, ← cons_append] at hchain
    have hlink := (isChain_append.mp hchain).2.2
    obtain ⟨a, ha⟩ : ∃ a, a ∈ (head :: l₁).getLast? := by
      rw [getLast?_cons]; exact ⟨_, rfl⟩
    exact lt_size_of_prev (hlink a ha x rfl).2

/-- A frame that touches no cell of a list carries the list over. -/
theorem Linked.frame (hf : Frame h h' T) (hT : ∀ x ∈ head :: (xs ++ [tail]), x ∉ T) :
    Linked h' head tail xs where
  nodup := hl.nodup
  chain := hl.chain.imp_of_mem_imp fun a b ha hb hab =>
    ⟨(hf.next a (hl.lt_size ha) (hT a ha)).trans hab.1,
      (hf.prev b (hl.lt_size hb) (hT b hb)).trans hab.2⟩
  head_prev := (hf.prev head (hl.lt_size mem_cons_self) (hT head mem_cons_self)).trans
    hl.head_prev

theorem Linked.dataWritten (hw : DataWritten h h' p a) :
    Linked h' head tail xs where
  nodup := hl.nodup
  chain := hl.chain.imp fun a b hab => ⟨(hw.next a).trans hab.1, (hw.prev b).trans hab.2⟩
  head_prev := (hw.prev head).trans hl.head_prev

/-- The cell before the tail sentinel: the last cell of the list, or the head sentinel. -/
theorem Linked.prev_tail : h.prev tail = some (xs.getLast?.getD head) := by
  have hchain := hl.chain
  rw [← cons_append] at hchain
  have hlink := (isChain_append.mp hchain).2.2
  exact (hlink _ (by rw [getLast?_cons]; exact rfl) tail rfl).2

/-- The cell behind the head sentinel: the first cell of the list, or the tail sentinel. -/
theorem Linked.next_head : h.next head = some (xs.head?.getD tail) := by
  refine (hl.chain.rel_head? (y := xs.head?.getD tail) ?_).1
  cases xs <;> rfl

/-- Unlinking the head sentinel follows a link that was never written. -/
theorem Linked.unlink_head : h.unlink head = none := by
  unfold unlink
  rw [hl.head_prev]
  rfl

/-- **Inserting at the front.** -/
theorem linkFront_spec (hnode : x < h.size) (hfresh : x ∉ head :: (xs ++ [tail])) :
    ∃ h', h.linkFront head x = some h' ∧ Linked h' head tail (x :: xs) ∧
      Frame h h' (x :: head :: (xs ++ [tail])) ∧ h'.size = h.size := by
  obtain ⟨temp, rest, hrest⟩ : ∃ temp rest, xs ++ [tail] = temp :: rest :=
    exists_cons_of_ne_nil (by simp)
  have hnd := hl.nodup
  have hchain := hl.chain
  rw [hrest] at hnd hchain hfresh
  obtain ⟨hht, hchain⟩ := isChain_cons_cons.mp hchain
  have hx : x ≠ head ∧ x ≠ temp ∧ x ∉ rest := by simpa using hfresh
  have hn : (head ≠ temp ∧ head ∉ rest) ∧ temp ∉ rest ∧ rest.Nodup := by simpa using hnd
  have hhead : head < h.size := lt_size_of_next hht.1
  have htemp : temp < h.size := lt_size_of_prev hht.2
  -- the four writes, in program order
  obtain ⟨h₁, e₁, w₁⟩ := setNext_spec hnode temp
  obtain ⟨h₂, e₂, w₂⟩ := setPrev_spec (h := h₁) (p := x) (by rw [w₁.size]; exact hnode) head
  obtain ⟨h₃, e₃, w₃⟩ := setNext_spec (h := h₂) (p := head)
    (by rw [w₂.size, w₁.size]; exact hhead) x
  obtain ⟨h₄, e₄, w₄⟩ := setPrev_spec (h := h₃) (p := temp)
    (by rw [w₃.size, w₂.size, w₁.size]; exact htemp) x
  have hnext : ∀ y, h₄.next y = if y = head then some x else if y = x then some temp
      else h.next y := fun y => by rw [w₄.next, w₃.next, w₂.next, w₁.next]
  have hprev : ∀ y, h₄.prev y = if y = temp then some x else if y = x then some head
      else h.prev y := fun y => by rw [w₄.prev, w₃.prev, w₂.prev, w₁.prev]
  refine ⟨h₄, ?_, ⟨?_, ?_, ?_⟩, ?_, ?_⟩
  · unfold linkFront
    rw [hht.1]
    change ((h.setNext x temp).bind fun h => (h.setPrev x head).bind fun h =>
      (h.setNext head x).bind fun h => h.setPrev temp x) = some h₄
    rw [e₁, Option.bind_some, e₂, Option.bind_some, e₃, Option.bind_some, e₄]
  · rw [cons_append, hrest]
    simp only [nodup_cons, mem_cons, not_or]
    exact ⟨⟨hx.1.symm, hn.1⟩, ⟨hx.2.1, hx.2.2⟩, hn.2⟩
  · rw [cons_append, hrest]
    refine isChain_cons_cons.mpr ⟨⟨?_, ?_⟩, isChain_cons_cons.mpr ⟨⟨?_, ?_⟩, ?_⟩⟩
    · rw [hnext, if_pos rfl]
    · rw [hprev, if_neg hx.2.1, if_pos rfl]
    · rw [hnext, if_neg hx.1, if_pos rfl]
    · rw [hprev, if_pos rfl]
    · -- behind the insertion point no link is rewritten
      refine hchain.imp_of_mem_tail_imp fun a b ha hb hab => ⟨?_, ?_⟩
      · have ha₁ : a ≠ head := fun e => by
          subst e; exact (mem_cons.mp ha).elim hn.1.1 hn.1.2
        have ha₂ : a ≠ x := fun e => by
          subst e; exact (mem_cons.mp ha).elim hx.2.1 hx.2.2
        rw [hnext, if_neg ha₁, if_neg ha₂]; exact hab.1
      · have hb' : b ∈ rest := hb
        have hb₁ : b ≠ temp := fun e => hn.2.1 (e ▸ hb')
        have hb₂ : b ≠ x := fun e => hx.2.2 (e ▸ hb')
        rw [hprev, if_neg hb₁, if_neg hb₂]; exact hab.2
  · rw [hprev, if_neg hn.1.1, if_neg hx.1.symm]; exact hl.head_prev
  · refine ((w₁.frame.trans w₂.frame).trans (w₃.frame.trans w₄.frame)).mono ?_
    rw [hrest]
    intro y hy
    simp only [mem_append, mem_cons, not_mem_nil, or_false] at hy ⊢
    tauto
  · rw [w₄.size, w₃.size, w₂.size, w₁.size]

end

/-- **Unlinking a cell.** -/
theorem unlink_spec (hl : Linked h head tail (xs ++ x :: ys)) :
    ∃ h', h.unlink x = some h' ∧ Linked h' head tail (xs ++ ys) ∧
      Frame h h' (head :: (xs ++ ys ++ [tail])) ∧ h'.size = h.size := by
  -- name the two neighbours of `x`
  obtain ⟨A, b, hA⟩ : ∃ A b, head :: xs = A ++ [b] := by
    rcases eq_nil_or_concat (head :: xs) with h | ⟨A, b, h⟩
    · exact absurd h (by simp)
    · exact ⟨A, b, by rw [h, concat_eq_append]⟩
  obtain ⟨n, B, hB⟩ : ∃ n B, ys ++ [tail] = n :: B := exists_cons_of_ne_nil (by simp)
  have hlist : head :: (xs ++ x :: ys ++ [tail]) = (A ++ [b]) ++ x :: n :: B := by
    rw [append_assoc, cons_append, ← cons_append, hA, hB]
  have hlist' : head :: (xs ++ ys ++ [tail]) = (A ++ [b]) ++ n :: B := by
    rw [append_assoc, ← cons_append, hA, hB]
  have hnd := hl.nodup
  have hchain := hl.chain
  rw [hlist] at hnd hchain
  obtain ⟨hchA, hchB, hlink⟩ := isChain_append.mp hchain
  have hbx : h.Link b x := hlink b (by simp) x rfl
  obtain ⟨hxn, hchB⟩ := isChain_cons_cons.mp hchB
  obtain ⟨hndA, hndB, hdisj⟩ := nodup_append.mp hnd
  have hxA : x ∉ A ++ [b] := fun hm => hdisj x hm x mem_cons_self rfl
  have hnA : n ∉ A ++ [b] := fun hm => hdisj n hm n (by simp) rfl
  have hbB : b ∉ n :: B := fun hm => hdisj b (by simp) b (mem_cons_of_mem x hm) rfl
  have hnB : n ∉ B := (nodup_cons.mp (nodup_cons.mp hndB).2).1
  obtain ⟨h₁, e₁, w₁⟩ := setNext_spec (lt_size_of_next hbx.1) n
  obtain ⟨h₂, e₂, w₂⟩ := setPrev_spec (h := h₁) (p := n)
    (by rw [w₁.size]; exact lt_size_of_prev hxn.2) b
  have hnext : ∀ y, h₂.next y = if y = b then some n else h.next y :=
    fun y => by rw [w₂.next, w₁.next]
  have hprev : ∀ y, h₂.prev y = if y = n then some b else h.prev y :=
    fun y => by rw [w₂.prev, w₁.prev]
  refine ⟨h₂, ?_, ⟨?_, ?_, ?_⟩, ?_, ?_⟩
  · unfold unlink
    rw [hbx.2, hxn.1]
    change ((h.setNext b n).bind fun h => h.setPrev n b) = some h₂
    rw [e₁, Option.bind_some, e₂]
  · rw [hlist']
    exact hnd.sublist ((sublist_cons_self x (n :: B)).append_left (A ++ [b]))
  · rw [hlist']
    refine isChain_append.mpr ⟨?_, ?_, ?_⟩
    · -- up to `b` only the link of `b` itself is rewritten, and that one pointed to `x`
      refine hchA.imp_of_mem_imp fun a c ha hc hac => ⟨?_, ?_⟩
      · have hab : a ≠ b := fun e => by
          subst e
          exact hxA (Option.some.inj (hac.1.symm.trans hbx.1) ▸ hc)
        rw [hnext, if_neg hab]
        exact hac.1
      · have hcn : c ≠ n := fun e => hnA (e ▸ hc)
        rw [hprev, if_neg hcn]
        exact hac.2
    · refine hchB.imp_of_mem_tail_imp fun a c ha hc hac => ⟨?_, ?_⟩
      · have hab : a ≠ b := fun e => hbB (e ▸ ha)
        rw [hnext, if_neg hab]
        exact hac.1
      · have hc' : c ∈ B := hc
        have hcn : c ≠ n := fun e => hnB (e ▸ hc')
        rw [hprev, if_neg hcn]
        exact hac.2
    · intro y hy z hz
      obtain rfl : b = y := by simpa using hy
      obtain rfl : n = z := by simpa using hz
      exact ⟨by rw [hnext, if_pos rfl], by rw [hprev, if_pos rfl]⟩
  · rw [hprev, if_neg fun e => hnA (by rw [← e, ← hA]; exact mem_cons_self)]
    exact hl.head_prev
  · refine (w₁.frame.trans w₂.frame).mono fun y hy => ?_
    rw [hlist']
    simp only [mem_append, mem_cons, not_mem_nil, or_false] at hy ⊢
    tauto
  · rw [w₂.size, w₁.size]

/-- **A fresh pair of sentinels** holds the empty list. -/
theorem sentinels_spec (h : Heap α) (a : α) :
    ∃ h', h.sentinels a = some (h', h.size, h.size + 1) ∧ Linked h' h.size (h.size + 1) [] ∧
      Frame h h' [] ∧ h'.size = h.size + 2 := by
  have a₁ := alloc_spec h a
  have a₂ := alloc_spec (h.alloc a).1 a
  have hsz : ((h.alloc a).1.alloc a).1.size = h.size + 2 := by rw [a₂.size, a₁.size]
  obtain ⟨h₁, e₁, w₁⟩ := setNext_spec (h := ((h.alloc a).1.alloc a).1) (p := h.size)
    (by omega) (h.size + 1)
  obtain ⟨h₂, e₂, w₂⟩ := setPrev_spec (h := h₁) (p := h.size + 1)
    (by rw [w₁.size]; omega) h.size
  have hnone : h.prev h.size = none := by
    cases hp : h.prev h.size with
    | none => rfl
    | some q => exact absurd (lt_size_of_prev hp) (lt_irrefl _)
  refine ⟨h₂, ?_, ⟨by simp, ?_, ?_⟩, ?_, ?_⟩
  · have htail : ((h.alloc a).1.alloc a).2 = h.size + 1 := a₁.size
    unfold sentinels
    change ((((h.alloc a).1.alloc a).1.setNext h.size ((h.alloc a).1.alloc a).2).bind fun h' =>
      (h'.setPrev ((h.alloc a).1.alloc a).2 h.size).bind fun h'' =>
        some (h'', h.size, ((h.alloc a).1.alloc a).2)) = _
    rw [htail, e₁, Option.bind_some, e₂, Option.bind_some]
  · refine isChain_pair.mpr ⟨?_, ?_⟩
    · rw [w₂.next, w₁.next, if_pos rfl]
    · rw [w₂.prev, if_pos rfl]
  · rw [w₂.prev, if_neg (by omega), w₁.prev, a₂.prev, a₁.prev, hnone]
  · have hf := (a₁.frame.trans a₂.frame).trans (w₁.frame.trans w₂.frame)
    refine ⟨hf.size, hf.data, fun x hx _ => hf.next x hx ?_, fun x hx _ => hf.prev x hx ?_⟩ <;>
      simp <;> omega
  · rw [w₂.size, w₁.size, hsz]

end Heap

end Framework
