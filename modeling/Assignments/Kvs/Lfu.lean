import Assignments.Framework.LinkedList
import Assignments.Framework.SortedMap
import Assignments.Kvs.Bytes

/-!
# The LFU cache

`LFUCache` is the class of the server of that name: an index `knMap` from keys to nodes, and for
each use count a doubly linked list of the nodes with that count (`flMap`), most recently used
first. `minFreq` and `currentSize` are kept by hand. The counts and `minFreq` are `int`s that go up
with every use, so they wrap (`int32`); a size is at most the capacity and does not. A call without
a result is one that follows a null or an indeterminate pointer.

`Shape` is the part of the class invariant that every operation keeps: the lists of `flMap` are
well linked and pairwise disjoint, a node sits in the list of its own count, and the index is
exactly the nodes in the lists. It says nothing about `minFreq` and `currentSize`, so it holds
along every run. The three operations are put together from two steps, and so are the proofs:

* `detach` takes a node out of the index and of its list (`Shape.detach`);
* `attach` puts a node in front of the list of its count, and into the index (`Shape.attach`).
-/

namespace Kvs

open Framework Function Option

/-- The payload of the struct `Node`: its links are those of the heap cell. -/
structure Node where
  key : Bytes
  value : Bytes
  cnt : ℤ
  deriving DecidableEq, Repr

/-- The struct `List`: its nodes are linked between two sentinels. The objects are reached
through `flMap` alone, so they are kept in that map. -/
structure FreqList where
  size : ℤ
  head : ℕ
  tail : ℕ
  deriving DecidableEq, Repr

/-- The class `LFUCache`. -/
structure LFUCache where
  heap : Heap Node
  knMap : SortedMap Bytes ℕ
  flMap : SortedMap ℤ FreqList
  mxsize : ℤ
  minFreq : ℤ
  currentSize : ℤ

namespace LFUCache

/-! ### The class -/

def new (capacity : ℤ) : LFUCache :=
  { heap := ⟨[]⟩, knMap := SortedMap.empty, flMap := SortedMap.empty, mxsize := capacity,
    minFreq := 0, currentSize := 0 }

/-- `new List()`: two sentinels with key `"0"`. -/
def newList (c : LFUCache) : Option (LFUCache × FreqList) := do
  let (heap, head, tail) ← c.heap.sentinels ⟨ascii ['0'], ascii ['0'], 1⟩
  return ({ c with heap }, ⟨0, head, tail⟩)

/-- `knMap.erase(key); flMap[freq]->removeNode(node);` -/
def detach (c : LFUCache) (freq : ℤ) (key : Bytes) (node : ℕ) : Option LFUCache := do
  let list ← c.flMap.find? freq
  let heap ← c.heap.unlink node
  return { c with heap, knMap := c.knMap.erase key,
                  flMap := c.flMap.insert freq { list with size := list.size - 1 } }

/-- Put `node` in front of `flMap[freq]`, or of the list `fresh` when there is none, store the
list back and enter the node in `knMap`. -/
def attach (c : LFUCache) (fresh : FreqList) (freq : ℤ) (key : Bytes) (node : ℕ) :
    Option LFUCache := do
  let list := (c.flMap.find? freq).getD fresh
  let heap ← c.heap.linkFront list.head node
  return { c with heap, knMap := c.knMap.insert key node,
                  flMap := c.flMap.insert freq { list with size := list.size + 1 } }

/-- `if(node->cnt == minFreq && flMap[node->cnt]->size == 0) minFreq++;` -/
def bumpMinFreq (c : LFUCache) (freq : ℤ) : Option LFUCache := do
  let list ← c.flMap.find? freq
  if freq = c.minFreq ∧ list.size = 0 then
    return { c with minFreq := int32 (c.minFreq + 1) }
  else return c

def updateflMap (c : LFUCache) (node : ℕ) : Option LFUCache := do
  let d ← c.heap.data node
  let c ← c.detach d.cnt d.key node
  let c ← c.bumpMinFreq d.cnt
  let (c, fresh) ← c.newList
  let heap ← c.heap.setData node { d with cnt := int32 (d.cnt + 1) }
  { c with heap }.attach fresh (int32 (d.cnt + 1)) d.key node

def get (c : LFUCache) (key : Bytes) : Option (LFUCache × Bytes) :=
  match c.knMap.find? key with
  | some node => do
    let d ← c.heap.data node
    let c ← c.updateflMap node
    return (c, d.value)
  | none => some (c, notFound)

/-- The block `if(currentSize == mxsize) { ... }` of `put`: the last node of `flMap[minFreq]`
leaves. -/
def makeRoom (c : LFUCache) : Option LFUCache :=
  if c.currentSize = c.mxsize then do
    let list ← c.flMap.find? c.minFreq
    let last ← c.heap.prev list.tail
    let d ← c.heap.data last
    let c' ← c.detach c.minFreq d.key last
    return { c' with currentSize := c'.currentSize - 1 }
  else some c

/-- The rest of the `else` branch of `put`: a new node with count 1. -/
def insertNew (c : LFUCache) (key value : Bytes) : Option LFUCache := do
  let (c, fresh) ← { c with currentSize := c.currentSize + 1, minFreq := 1 }.newList
  let (heap, node) := c.heap.alloc ⟨key, value, 1⟩
  { c with heap }.attach fresh 1 key node

def put (c : LFUCache) (key value : Bytes) : Option LFUCache :=
  if c.mxsize = 0 then some c
  else match c.knMap.find? key with
    | some node => do
      let d ← c.heap.data node
      let heap ← c.heap.setData node { d with value }
      { c with heap }.updateflMap node
    | none => do
      let c ← c.makeRoom
      c.insertNew key value

def del (c : LFUCache) (key : Bytes) : Option LFUCache :=
  match c.knMap.find? key with
  | some node => do
    let d ← c.heap.data node
    c.detach d.cnt d.key node
  | none => some c

/-- The value a hit on `key` would return. -/
def lookup (c : LFUCache) (key : Bytes) : Option Bytes :=
  (c.knMap.find? key).bind fun p => (c.heap.data p).map Node.value

/-! ### The shape of the lists -/

/-- The cells of a list, sentinels included. -/
def cells (list : FreqList) (xs : List ℕ) : List ℕ := list.head :: (xs ++ [list.tail])

/-- The list of each count `f` links the cells `xs f`, and no two lists share a cell. -/
structure Lists (heap : Heap Node) (flMap : SortedMap ℤ FreqList) (xs : ℤ → List ℕ) : Prop where
  linked : ∀ f list, flMap.find? f = some list →
    heap.Linked list.head list.tail (xs f) ∧ list.size = (xs f).length
  absent : ∀ f, flMap.find? f = none → xs f = []
  disjoint : ∀ f g list list', f ≠ g → flMap.find? f = some list →
    flMap.find? g = some list' → ∀ p ∈ cells list (xs f), p ∉ cells list' (xs g)

/-- The nodes with count `f` are the cells `xs f`, in this order. -/
structure Shape (c : LFUCache) (xs : ℤ → List ℕ) : Prop where
  lists : Lists c.heap c.flMap xs
  cnt : ∀ f p, p ∈ xs f → ∃ d, c.heap.data p = some d ∧ d.cnt = f
  index : ∀ k p, c.knMap.find? k = some p ↔
    ∃ f, p ∈ xs f ∧ (c.heap.data p).map Node.key = some k

variable {c : LFUCache} {xs : ℤ → List ℕ} {f : ℤ} {p : ℕ} {d : Node} {k : Bytes}

theorem new_shape (capacity : ℤ) : (new capacity).Shape fun _ => [] where
  lists := ⟨fun f list h => by simp [new] at h, fun _ _ => rfl,
    fun f g list list' _ h => by simp [new] at h⟩
  cnt f p h := by simp at h
  index k p := by simp [new]

section Lists

variable {heap heap' : Heap Node} {flMap : SortedMap ℤ FreqList} {list list' : FreqList}
  {ys T : List ℕ}

theorem mem_cells (hp : p ∈ ys) : p ∈ cells list ys := by simp [cells, hp]

theorem Lists.exists_list (hl : Lists heap flMap xs) (hp : p ∈ xs f) :
    ∃ list, flMap.find? f = some list := by
  cases hf : flMap.find? f with
  | some list => exact ⟨list, rfl⟩
  | none => rw [hl.absent f hf] at hp; exact absurd hp List.not_mem_nil

theorem Lists.lt_size (hl : Lists heap flMap xs) (hp : p ∈ xs f) : p < heap.size := by
  obtain ⟨list, hlist⟩ := hl.exists_list hp
  exact (hl.linked f list hlist).1.lt_size (mem_cells hp)

/-- A frame that touches no cell of any list carries the lists over. -/
theorem Lists.frame (hl : Lists heap flMap xs) (hframe : Heap.Frame heap heap' T)
    (hT : ∀ g list, flMap.find? g = some list → ∀ q ∈ cells list (xs g), q ∉ T) :
    Lists heap' flMap xs where
  linked g l hgl := ⟨(hl.linked g l hgl).1.frame hframe (hT g l hgl), (hl.linked g l hgl).2⟩
  absent := hl.absent
  disjoint := hl.disjoint

/-- **Replacing one list.** The list of count `f` becomes `list'` with the cells `ys`, by heap
writes that touch no other list. -/
theorem Lists.replace (hl : Lists heap flMap xs) (hframe : Heap.Frame heap heap' T)
    (hlinked : heap'.Linked list'.head list'.tail ys) (hsize : list'.size = ys.length)
    (hT : ∀ g list, g ≠ f → flMap.find? g = some list → ∀ q ∈ cells list (xs g), q ∉ T)
    (hdisj : ∀ g list, g ≠ f → flMap.find? g = some list →
      ∀ q ∈ cells list (xs g), q ∉ cells list' ys) :
    Lists heap' (flMap.insert f list') (update xs f ys) := by
  refine ⟨fun g l hgl => ?_, fun g hg => ?_, fun g g' l l' hne hgl hgl' => ?_⟩
  · rw [SortedMap.find?_insert] at hgl
    split_ifs at hgl with hg
    · subst hg
      obtain rfl := some.inj hgl
      rw [update_self]
      exact ⟨hlinked, hsize⟩
    · rw [update_of_ne hg]
      exact ⟨(hl.linked g l hgl).1.frame hframe (hT g l hg hgl), (hl.linked g l hgl).2⟩
  · rw [SortedMap.find?_insert] at hg
    split_ifs at hg with hgf
    rw [update_of_ne hgf]
    exact hl.absent g hg
  · rw [SortedMap.find?_insert] at hgl hgl'
    split_ifs at hgl hgl' with hg hg' hg'
    · exact absurd (hg.trans hg'.symm) hne
    · subst hg
      obtain rfl := some.inj hgl
      rw [update_self, update_of_ne hg']
      exact fun q hq hq' => hdisj g' l' hg' hgl' q hq' hq
    · subst hg'
      obtain rfl := some.inj hgl'
      rw [update_self, update_of_ne hg]
      exact hdisj g l hg hgl
    · rw [update_of_ne hg, update_of_ne hg']
      exact hl.disjoint g g' l l' hne hgl hgl'

end Lists

theorem Shape.lt_size (hs : c.Shape xs) (hp : p ∈ xs f) : p < c.heap.size :=
  hs.lists.lt_size hp

/-- A node sits in the list of one count only. -/
theorem Shape.freq_unique (hs : c.Shape xs) {g : ℤ} (hp : p ∈ xs f) (hq : p ∈ xs g) : f = g := by
  obtain ⟨d, hd, rfl⟩ := hs.cnt f p hp
  obtain ⟨d', hd', rfl⟩ := hs.cnt g p hq
  rw [some.inj (hd.symm.trans hd')]

/-- A cached key, its node, and the list the node is in. -/
theorem Shape.of_find? (hs : c.Shape xs) (h : c.knMap.find? k = some p) :
    ∃ d, c.heap.data p = some d ∧ d.key = k ∧ p ∈ xs d.cnt := by
  obtain ⟨f, hp, hk⟩ := (hs.index k p).mp h
  obtain ⟨d, hd, rfl⟩ := hs.cnt f p hp
  rw [hd] at hk
  exact ⟨d, hd, some.inj hk, hp⟩

theorem Shape.find?_of_mem (hs : c.Shape xs) (hp : p ∈ xs f) (hd : c.heap.data p = some d) :
    c.knMap.find? d.key = some p :=
  (hs.index d.key p).mpr ⟨f, hp, by rw [hd]; rfl⟩

/-- The cell `p` is in no list. -/
def Free (c : LFUCache) (xs : ℤ → List ℕ) (p : ℕ) : Prop :=
  ∀ g list, c.flMap.find? g = some list → p ∉ cells list (xs g)

/-! ### The two steps -/

/-- `c'` has the payloads and the counters of `c`. -/
structure Same (c c' : LFUCache) : Prop where
  size : c.heap.size ≤ c'.heap.size
  data : ∀ q, q < c.heap.size → c'.heap.data q = c.heap.data q
  mxsize : c'.mxsize = c.mxsize
  minFreq : c'.minFreq = c.minFreq
  currentSize : c'.currentSize = c.currentSize

/-- **Taking a node out** of the index and of its list. -/
theorem Shape.detach (hs : c.Shape xs) (hp : p ∈ xs f) (hd : c.heap.data p = some d) :
    ∃ c', c.detach f d.key p = some c' ∧ c'.Shape (update xs f ((xs f).erase p)) ∧
      c'.Free (update xs f ((xs f).erase p)) p ∧
      (∃ list, c'.flMap.find? f = some list) ∧ c'.knMap = c.knMap.erase d.key ∧ Same c c' := by
  obtain ⟨list, hlist⟩ := hs.lists.exists_list hp
  obtain ⟨hlinked, hsize⟩ := hs.lists.linked f list hlist
  have hndup : (xs f).Nodup :=
    ((List.nodup_cons.mp hlinked.nodup).2).sublist (List.sublist_append_left _ _)
  have hpnot : p ∉ (xs f).erase p := hndup.not_mem_erase
  have hlen : ((xs f).erase p).length + 1 = (xs f).length := by
    rw [List.length_erase_of_mem hp]
    have := List.length_pos_of_mem hp
    omega
  -- the pointer surgery, on the list split at `p`
  obtain ⟨h', hunlink, hlinked', hframe, hhsize⟩ : ∃ h', c.heap.unlink p = some h' ∧
      h'.Linked list.head list.tail ((xs f).erase p) ∧
      Heap.Frame c.heap h' (cells list ((xs f).erase p)) ∧ h'.size = c.heap.size := by
    obtain ⟨A, B, hAB⟩ := List.append_of_mem hp
    have herase : (xs f).erase p = A ++ B := by
      rw [hAB] at hndup ⊢
      have hpA : p ∉ A := fun h =>
        (List.nodup_cons.mp (List.nodup_middle.mp hndup)).1 (List.mem_append_left B h)
      rw [List.erase_append_right _ hpA, List.erase_cons_head]
    rw [hAB] at hlinked
    rw [herase]
    exact Heap.unlink_spec hlinked
  -- the cells of the shortened list are cells of the old one, without `p`
  have hcells : ∀ q, q ∈ cells list ((xs f).erase p) → q ∈ cells list (xs f) ∧ q ≠ p := by
    intro q hq
    have hnp : p ≠ list.head ∧ p ≠ list.tail := by
      have hnd := hlinked.nodup
      rw [List.nodup_cons, List.nodup_append] at hnd
      exact ⟨fun e => hnd.1 (by rw [← e]; simp [hp]),
        fun e => hnd.2.2.2 p hp list.tail (by simp) e⟩
    simp only [cells, List.mem_cons, List.mem_append, List.not_mem_nil, or_false] at hq ⊢
    rcases hq with rfl | hq | rfl
    · exact ⟨Or.inl rfl, hnp.1.symm⟩
    · exact ⟨Or.inr (Or.inl (List.mem_of_mem_erase hq)), fun e => hpnot (e ▸ hq)⟩
    · exact ⟨Or.inr (Or.inr rfl), hnp.2.symm⟩
  have hother : ∀ g l, g ≠ f → c.flMap.find? g = some l →
      ∀ q ∈ cells l (xs g), q ∉ cells list ((xs f).erase p) := fun g l hg hl q hq hq' =>
    hs.lists.disjoint g f l list hg hl hlist q hq (hcells q hq').1
  have hmem : ∀ q g, q ∈ update xs f ((xs f).erase p) g ↔ q ∈ xs g ∧ q ≠ p := by
    intro q g
    by_cases hg : g = f
    · subst hg
      rw [update_self, hndup.mem_erase_iff, and_comm]
    · rw [update_of_ne hg]
      exact ⟨fun h => ⟨h, fun e => hg (hs.freq_unique (e ▸ h) hp)⟩, fun h => h.1⟩
  refine ⟨{ c with heap := h', knMap := c.knMap.erase d.key,
                   flMap := c.flMap.insert f { list with size := list.size - 1 } },
    ?_, ⟨?_, ?_, ?_⟩, ?_, ⟨_, SortedMap.find?_insert_self _ _ _⟩, rfl,
    ⟨hhsize.ge, hframe.data, rfl, rfl, rfl⟩⟩
  · show ((c.flMap.find? f).bind fun list => (c.heap.unlink p).bind fun heap => some _) = _
    rw [hlist, bind_some, hunlink, bind_some]
  · refine hs.lists.replace hframe hlinked' ?_ hother hother
    show list.size - 1 = _
    omega
  · intro g q hq
    obtain ⟨hq, -⟩ := (hmem q g).mp hq
    obtain ⟨d', hd', hcnt⟩ := hs.cnt g q hq
    exact ⟨d', (hframe.data q (hs.lt_size hq)).trans hd', hcnt⟩
  · -- the index loses the key of `p` and nothing else
    intro j q
    show (c.knMap.erase d.key).find? j = some q ↔ ∃ g, q ∈ update xs f ((xs f).erase p) g ∧
      (h'.data q).map Node.key = some j
    rw [SortedMap.find?_erase]
    split_ifs with hj
    · refine ⟨fun h => absurd h (by simp), fun ⟨g, hq, hqk⟩ => ?_⟩
      obtain ⟨hq, hqp⟩ := (hmem q g).mp hq
      rw [hframe.data q (hs.lt_size hq), hj] at hqk
      have := (hs.index d.key q).mpr ⟨g, hq, hqk⟩
      exact absurd (some.inj (this.symm.trans (hs.find?_of_mem hp hd))) hqp
    · rw [hs.index j q]
      constructor
      · rintro ⟨g, hq, hqk⟩
        have hqp : q ≠ p := fun e => by
          subst e
          rw [hd] at hqk
          exact hj (some.inj hqk).symm
        exact ⟨g, (hmem q g).mpr ⟨hq, hqp⟩, by rw [hframe.data q (hs.lt_size hq)]; exact hqk⟩
      · rintro ⟨g, hq, hqk⟩
        obtain ⟨hq, -⟩ := (hmem q g).mp hq
        exact ⟨g, hq, by rw [← hframe.data q (hs.lt_size hq)]; exact hqk⟩
  · -- `p` is in no list any more
    intro g l hl
    replace hl : (c.flMap.insert f { list with size := list.size - 1 }).find? g = some l := hl
    rw [SortedMap.find?_insert] at hl
    split_ifs at hl with hg
    · subst hg
      obtain rfl := some.inj hl
      rw [update_self]
      exact fun h => (hcells p h).2 rfl
    · rw [update_of_ne hg]
      exact fun h => hs.lists.disjoint g f l list hg hl hlist p h (mem_cells hp)

/-- **Putting a node in front** of the list of its count, and into the index. `fresh` is a list
without nodes, used when the count has no list yet. -/
theorem Shape.attach (hs : c.Shape xs) {fresh : FreqList} (hp : p < c.heap.size)
    (hd : c.heap.data p = some d) (hfree : c.Free xs p) (hkey : c.knMap.find? d.key = none)
    (hfresh : c.heap.Linked fresh.head fresh.tail [] ∧ fresh.size = 0)
    (hfree' : ∀ q ∈ cells fresh [], q ≠ p ∧ c.Free xs q) :
    ∃ c', c.attach fresh d.cnt d.key p = some c' ∧
      c'.Shape (update xs d.cnt (p :: xs d.cnt)) ∧
      c'.knMap = c.knMap.insert d.key p ∧ Same c c' := by
  -- the list that receives `p`, whether it existed before or not
  obtain ⟨list, hlist, hlinked, hsize, hpl, hother⟩ : ∃ list,
      (c.flMap.find? d.cnt).getD fresh = list ∧
      c.heap.Linked list.head list.tail (xs d.cnt) ∧ list.size = (xs d.cnt).length ∧
      p ∉ cells list (xs d.cnt) ∧ ∀ g l, g ≠ d.cnt → c.flMap.find? g = some l →
        ∀ q ∈ cells l (xs g), q ∉ cells list (xs d.cnt) := by
    cases hf : c.flMap.find? d.cnt with
    | some list =>
      exact ⟨list, rfl, (hs.lists.linked _ _ hf).1, (hs.lists.linked _ _ hf).2, hfree _ _ hf,
        fun g l hg hl q hq => hs.lists.disjoint g d.cnt l list hg hl hf q hq⟩
    | none =>
      rw [hs.lists.absent _ hf]
      exact ⟨fresh, rfl, hfresh.1, by simpa using hfresh.2, fun h => (hfree' p h).1 rfl,
        fun g l _ hl q hq hq' => (hfree' q hq').2 g l hl hq⟩
  obtain ⟨h', hlink, hlinked', hframe, hhsize⟩ := Heap.linkFront_spec hlinked hp hpl
  have hcells : ∀ q, q ∈ p :: cells list (xs d.cnt) ↔ q ∈ cells list (p :: xs d.cnt) := by
    intro q
    simp only [cells, List.mem_cons, List.mem_append, List.cons_append, List.not_mem_nil]
    tauto
  have hother' : ∀ g l, g ≠ d.cnt → c.flMap.find? g = some l →
      ∀ q ∈ cells l (xs g), q ∉ p :: cells list (xs d.cnt) := by
    intro g l hg hl q hq hq'
    rcases List.mem_cons.mp hq' with rfl | hq'
    · exact hfree g l hl hq
    · exact hother g l hg hl q hq hq'
  have hmem : ∀ q g, q ∈ update xs d.cnt (p :: xs d.cnt) g ↔
      q ∈ xs g ∨ q = p ∧ g = d.cnt := by
    intro q g
    by_cases hg : g = d.cnt
    · subst hg; rw [update_self, List.mem_cons]; tauto
    · rw [update_of_ne hg]; tauto
  refine ⟨{ c with heap := h', knMap := c.knMap.insert d.key p,
                   flMap := c.flMap.insert d.cnt { list with size := list.size + 1 } },
    ?_, ⟨?_, ?_, ?_⟩, rfl, ⟨hhsize.ge, hframe.data, rfl, rfl, rfl⟩⟩
  · unfold LFUCache.attach
    rw [hlist]
    show ((c.heap.linkFront list.head p).bind fun heap => some _) = _
    rw [hlink, bind_some]
  · refine hs.lists.replace hframe hlinked' ?_ hother' fun g l hg hl q hq hq' =>
      hother' g l hg hl q hq ((hcells q).mpr hq')
    show list.size + 1 = _
    rw [List.length_cons]
    omega
  · intro g q hq
    rcases (hmem q g).mp hq with hq | ⟨rfl, rfl⟩
    · obtain ⟨d', hd', hcnt⟩ := hs.cnt g q hq
      exact ⟨d', (hframe.data q (hs.lt_size hq)).trans hd', hcnt⟩
    · exact ⟨d, (hframe.data q hp).trans hd, rfl⟩
  · -- the index gains the key of `p`, which it did not have
    intro j q
    show (c.knMap.insert d.key p).find? j = some q ↔
      ∃ g, q ∈ update xs d.cnt (p :: xs d.cnt) g ∧ (h'.data q).map Node.key = some j
    have hpkey : (h'.data p).map Node.key = some d.key := by rw [hframe.data p hp, hd]; rfl
    rw [SortedMap.find?_insert]
    split_ifs with hj
    · constructor
      · intro h
        obtain rfl := some.inj h
        exact ⟨d.cnt, (hmem p d.cnt).mpr (Or.inr ⟨rfl, rfl⟩), by rw [hj]; exact hpkey⟩
      · rintro ⟨g, hq, hqk⟩
        rcases (hmem q g).mp hq with hq | ⟨rfl, -⟩
        · rw [hframe.data q (hs.lt_size hq), hj] at hqk
          have := (hs.index d.key q).mpr ⟨g, hq, hqk⟩
          rw [hkey] at this
          exact absurd this (by simp)
        · rfl
    · rw [hs.index j q]
      constructor
      · rintro ⟨g, hq, hqk⟩
        exact ⟨g, (hmem q g).mpr (Or.inl hq), by rw [hframe.data q (hs.lt_size hq)]; exact hqk⟩
      · rintro ⟨g, hq, hqk⟩
        rcases (hmem q g).mp hq with hq | ⟨rfl, -⟩
        · exact ⟨g, hq, by rw [← hframe.data q (hs.lt_size hq)]; exact hqk⟩
        · rw [hpkey] at hqk
          exact absurd (some.inj hqk).symm hj

/-! ### The operations -/

/-- Allocations keep the shape. -/
theorem Shape.frame (hs : c.Shape xs) {heap' : Heap Node} (hf : Heap.Frame c.heap heap' []) :
    Shape { c with heap := heap' } xs where
  lists := hs.lists.frame hf fun _ _ _ _ _ => List.not_mem_nil
  cnt g q hq := by
    obtain ⟨d, hd, hcnt⟩ := hs.cnt g q hq
    exact ⟨d, (hf.data q (hs.lt_size hq)).trans hd, hcnt⟩
  index k q := by
    refine (hs.index k q).trans (exists_congr fun g => and_congr_right fun hq => ?_)
    show _ ↔ (heap'.data q).map Node.key = some k
    rw [hf.data q (hs.lt_size hq)]

/-- Rewriting the payload of a node keeps the shape when the key and, for a node in a list, the
count stay. -/
theorem Shape.dataWritten (hs : c.Shape xs) {heap' : Heap Node} {d' : Node}
    (hw : Heap.DataWritten c.heap heap' p d')
    (hd : ∀ g, p ∈ xs g → d'.cnt = g ∧ (c.heap.data p).map Node.key = some d'.key) :
    Shape { c with heap := heap' } xs where
  lists := ⟨fun g l hl => ⟨(hs.lists.linked g l hl).1.dataWritten hw, (hs.lists.linked g l hl).2⟩,
    hs.lists.absent, hs.lists.disjoint⟩
  cnt g q hq := by
    show ∃ d, heap'.data q = some d ∧ d.cnt = g
    rw [hw.data]
    split_ifs with h
    · subst h; exact ⟨d', rfl, (hd g hq).1⟩
    · exact hs.cnt g q hq
  index k q := by
    refine (hs.index k q).trans (exists_congr fun g => and_congr_right fun hq => ?_)
    show _ ↔ (heap'.data q).map Node.key = some k
    rw [hw.data]
    split_ifs with h
    · subst h; rw [(hd g hq).2]; rfl
    · rfl

/-- `new List()` gives a list without nodes whose two sentinels are in no other list. -/
theorem Shape.newList (hs : c.Shape xs) :
    ∃ c' fresh, c.newList = some (c', fresh) ∧ c'.Shape xs ∧ Same c c' ∧ c'.knMap = c.knMap ∧
      c'.flMap = c.flMap ∧ (c'.heap.Linked fresh.head fresh.tail [] ∧ fresh.size = 0) ∧
      ∀ q ∈ cells fresh [], c.heap.size ≤ q ∧ c'.Free xs q := by
  obtain ⟨h', hs', hlinked, hframe, hsize⟩ :=
    Heap.sentinels_spec c.heap (⟨ascii ['0'], ascii ['0'], 1⟩ : Node)
  refine ⟨{ c with heap := h' }, ⟨0, c.heap.size, c.heap.size + 1⟩, ?_, hs.frame hframe,
    ⟨hframe.size, hframe.data, rfl, rfl, rfl⟩, rfl, rfl, ⟨hlinked, rfl⟩, ?_⟩
  · show ((c.heap.sentinels _).bind fun x => some _) = _
    rw [hs']; rfl
  · intro q hq
    have hge : c.heap.size ≤ q := by
      simp only [cells, List.nil_append, List.mem_cons, List.not_mem_nil, or_false] at hq
      omega
    exact ⟨hge, fun g l hl hq' => absurd ((hs.lists.linked g l hl).1.lt_size hq') (by omega)⟩

/-- Moving the node `p` from the list of count `f` to the front of the next one. -/
def move (xs : ℤ → List ℕ) (f : ℤ) (p : ℕ) : ℤ → List ℕ :=
  update (update xs f ((xs f).erase p)) (int32 (f + 1)) (p :: xs (int32 (f + 1)))

/-- `c'` is `c` with the node `p` moved one list up and holding `d`, whose count is the old one;
`minFreq` has followed when the list of `p` has become empty. -/
structure Raised (c : LFUCache) (xs : ℤ → List ℕ) (p : ℕ) (d : Node) (c' : LFUCache) : Prop where
  shape : c'.Shape (move xs d.cnt p)
  knMap : c'.knMap = c.knMap
  size : c.heap.size ≤ c'.heap.size
  data : ∀ q, q < c.heap.size → q ≠ p → c'.heap.data q = c.heap.data q
  node : c'.heap.data p = some { d with cnt := int32 (d.cnt + 1) }
  mxsize : c'.mxsize = c.mxsize
  currentSize : c'.currentSize = c.currentSize
  minFreq : c'.minFreq =
    if d.cnt = c.minFreq ∧ (xs d.cnt).erase p = [] then int32 (c.minFreq + 1) else c.minFreq

/-- The test on `minFreq`, on a list that exists. -/
theorem Shape.bumpMinFreq (hs : c.Shape xs) {list : FreqList}
    (hlist : c.flMap.find? f = some list) :
    c.bumpMinFreq f = some { c with
      minFreq := if f = c.minFreq ∧ xs f = [] then int32 (c.minFreq + 1) else c.minFreq } := by
  have hsize := (hs.lists.linked f list hlist).2
  have hiff : (f = c.minFreq ∧ list.size = 0) ↔ (f = c.minFreq ∧ xs f = []) := by
    refine and_congr_right fun _ => ?_
    rw [← List.length_eq_zero_iff]
    omega
  unfold LFUCache.bumpMinFreq
  rw [hlist]
  show (if f = c.minFreq ∧ list.size = 0 then _ else _) = _
  simp only [hiff]
  split_ifs <;> rfl

/-- **Raising the count of a node.** -/
theorem Shape.updateflMap (hs : c.Shape xs) (hp : p ∈ xs d.cnt) (hd : c.heap.data p = some d) :
    ∃ c', c.updateflMap p = some c' ∧ Raised c xs p d c' := by
  have hplt := hs.lt_size hp
  have hkn := hs.find?_of_mem hp hd
  -- out of the old list
  obtain ⟨c₁, hdet, hs₁, hfree₁, ⟨list, hlist⟩, hkn₁, hsame₁⟩ := hs.detach hp hd
  have hbump := hs₁.bumpMinFreq hlist
  rw [update_self, hsame₁.minFreq] at hbump
  generalize hM : (if d.cnt = c.minFreq ∧ (xs d.cnt).erase p = [] then int32 (c.minFreq + 1)
    else c.minFreq) = M at hbump
  have hs₂ : Shape { c₁ with minFreq := M } (update xs d.cnt ((xs d.cnt).erase p)) :=
    ⟨hs₁.lists, hs₁.cnt, hs₁.index⟩
  -- the new count is written while the node is in no list
  obtain ⟨c₃, fresh, hnew, hs₃, hsame₃, hkn₃, hfl₃, hfresh, hcells⟩ := hs₂.newList
  have hp₁ : p < c₁.heap.size := hplt.trans_le hsame₁.size
  have hp₃ : p < c₃.heap.size := hp₁.trans_le hsame₃.size
  obtain ⟨h₄, hset, hw⟩ := Heap.setData_spec hp₃ { d with cnt := int32 (d.cnt + 1) }
  have hp₄ : p < h₄.size := hw.size ▸ hp₃
  have hnode : h₄.data p = some { d with cnt := int32 (d.cnt + 1) } := by rw [hw.data, if_pos rfl]
  have hfree₃ : c₃.Free (update xs d.cnt ((xs d.cnt).erase p)) p := by
    intro g l hl
    rw [hfl₃] at hl
    exact hfree₁ g l hl
  have hs₄ : Shape { c₃ with heap := h₄ } (update xs d.cnt ((xs d.cnt).erase p)) := by
    refine hs₃.dataWritten hw fun g hg => ?_
    obtain ⟨l, hl⟩ := hs₃.lists.exists_list hg
    exact absurd (mem_cells hg) (hfree₃ g l hl)
  have habsent : c₃.knMap.find? d.key = none := by
    rw [hkn₃, hkn₁]
    exact SortedMap.find?_erase_self _ _
  have hfree₄ : ∀ q ∈ cells fresh [], q ≠ p ∧
      c₃.Free (update xs d.cnt ((xs d.cnt).erase p)) q := fun q hq =>
    ⟨fun e => absurd (hcells q hq).1 (not_le.mpr (e ▸ hp₁)), (hcells q hq).2⟩
  -- into the next list
  obtain ⟨c₅, hatt, hs₅, hkn₅, hsame₅⟩ := hs₄.attach hp₄ hnode hfree₃ habsent
    ⟨hfresh.1.dataWritten hw, hfresh.2⟩ hfree₄
  refine ⟨c₅, ?_, ⟨?_, ?_, ?_, ?_, ?_, ?_, ?_, ?_⟩⟩
  · show ((c.heap.data p).bind fun d => (c.detach d.cnt d.key p).bind fun c =>
      (c.bumpMinFreq d.cnt).bind fun c => c.newList.bind fun x =>
        (x.1.heap.setData p { d with cnt := int32 (d.cnt + 1) }).bind fun heap =>
          ({ x.1 with heap := heap } : LFUCache).attach x.2 (int32 (d.cnt + 1)) d.key p) = _
    rw [hd, bind_some, hdet, bind_some, hbump, bind_some, hnew,
      bind_some, hset, bind_some, hatt]
  · replace hs₅ : c₅.Shape (update (update xs d.cnt ((xs d.cnt).erase p)) (int32 (d.cnt + 1))
        (p :: update xs d.cnt ((xs d.cnt).erase p) (int32 (d.cnt + 1)))) := hs₅
    rw [update_of_ne (int32_succ_ne d.cnt)] at hs₅
    exact hs₅
  · calc c₅.knMap = c₃.knMap.insert d.key p := hkn₅
      _ = c₁.knMap.insert d.key p := by rw [hkn₃]
      _ = c.knMap := by rw [hkn₁, SortedMap.insert_erase, SortedMap.insert_of_find?_some _ hkn]
  · calc c.heap.size ≤ c₁.heap.size := hsame₁.size
      _ ≤ c₃.heap.size := hsame₃.size
      _ = h₄.size := hw.size.symm
      _ ≤ c₅.heap.size := hsame₅.size
  · intro q hq hqp
    have hq₁ : q < c₁.heap.size := hq.trans_le hsame₁.size
    have hq₄ : q < h₄.size := hw.size ▸ hq₁.trans_le hsame₃.size
    calc c₅.heap.data q = h₄.data q := hsame₅.data q hq₄
      _ = c₃.heap.data q := by rw [hw.data, if_neg hqp]
      _ = c₁.heap.data q := hsame₃.data q hq₁
      _ = c.heap.data q := hsame₁.data q hq
  · exact (hsame₅.data p hp₄).trans hnode
  · exact hsame₅.mxsize.trans (hsame₃.mxsize.trans hsame₁.mxsize)
  · exact hsame₅.currentSize.trans (hsame₃.currentSize.trans hsame₁.currentSize)
  · exact (hsame₅.minFreq.trans hsame₃.minFreq).trans hM.symm

/-- A hit raises the count of the node it found. -/
theorem Shape.get_hit (hs : c.Shape xs) (hk : c.knMap.find? k = some p)
    (hd : c.heap.data p = some d) : ∃ c', c.get k = some (c', d.value) ∧ Raised c xs p d c' := by
  obtain ⟨d', hd', -, hp⟩ := hs.of_find? hk
  obtain rfl := some.inj (hd.symm.trans hd')
  obtain ⟨c', hup, hr⟩ := hs.updateflMap hp hd
  refine ⟨c', ?_, hr⟩
  unfold LFUCache.get
  rw [hk]
  show ((c.heap.data p).bind fun d => (c.updateflMap p).bind fun c => some (c, d.value)) = _
  rw [hd, bind_some, hup, bind_some]

theorem get_miss (hk : c.knMap.find? k = none) : c.get k = some (c, notFound) := by
  unfold LFUCache.get
  rw [hk]

/-- `put` of a cached key overwrites the value and raises the count. -/
theorem Shape.put_hit (hs : c.Shape xs) (hcap : c.mxsize ≠ 0) (hk : c.knMap.find? k = some p)
    (hd : c.heap.data p = some d) (value : Bytes) :
    ∃ c', c.put k value = some c' ∧ Raised c xs p { d with value } c' := by
  obtain ⟨d', hd', -, hp⟩ := hs.of_find? hk
  obtain rfl := some.inj (hd.symm.trans hd')
  obtain ⟨h', hset, hw⟩ := Heap.setData_spec (hs.lt_size hp) { d with value }
  have hs' : Shape { c with heap := h' } xs := by
    refine hs.dataWritten hw fun g hg => ⟨hs.freq_unique hp hg, ?_⟩
    rw [hd]; rfl
  obtain ⟨c', hup, hr⟩ := hs'.updateflMap (d := { d with value }) hp
    (show h'.data p = _ by rw [hw.data, if_pos rfl])
  refine ⟨c', ?_, hr.shape, hr.knMap, hw.size ▸ hr.size, fun q hq hqp => ?_, hr.node, hr.mxsize,
    hr.currentSize, hr.minFreq⟩
  · unfold LFUCache.put
    rw [if_neg hcap, hk]
    show ((c.heap.data p).bind fun d => (c.heap.setData p { d with value }).bind fun heap =>
      ({ c with heap := heap } : LFUCache).updateflMap p) = _
    rw [hd, bind_some, hset, bind_some, hup]
  · calc c'.heap.data q = h'.data q := hr.data q (hw.size ▸ hq) hqp
      _ = c.heap.data q := by rw [hw.data, if_neg hqp]

/-- `del` of a cached key takes its node out and leaves the counters as they are. -/
theorem Shape.del_hit (hs : c.Shape xs) (hk : c.knMap.find? k = some p)
    (hd : c.heap.data p = some d) :
    ∃ c', c.del k = some c' ∧ c'.Shape (update xs d.cnt ((xs d.cnt).erase p)) ∧
      c'.knMap = c.knMap.erase k ∧ Same c c' := by
  obtain ⟨d', hd', hdk, hp⟩ := hs.of_find? hk
  obtain rfl := some.inj (hd.symm.trans hd')
  obtain ⟨c', hdet, hs', -, -, hkn, hsame⟩ := hs.detach hp hd
  refine ⟨c', ?_, hs', hdk ▸ hkn, hsame⟩
  unfold LFUCache.del
  rw [hk]
  show ((c.heap.data p).bind fun d => c.detach d.cnt d.key p) = _
  rw [hd, bind_some, hdet]

theorem del_miss (hk : c.knMap.find? k = none) : c.del k = some c := by
  unfold LFUCache.del
  rw [hk]

/-! ### Eviction -/

/-- An eviction would find no node: the cache counts as full, and `flMap[minFreq]` is missing or
has no node. -/
def Stuck (c : LFUCache) : Prop :=
  c.mxsize ≠ 0 ∧ c.currentSize = c.mxsize ∧
    ∀ list ∈ c.flMap.find? c.minFreq, list.size = 0

instance (c : LFUCache) : Decidable c.Stuck := by unfold Stuck; infer_instance

theorem Shape.size_eq_zero_iff (hs : c.Shape xs) :
    (∀ list ∈ c.flMap.find? f, list.size = 0) ↔ xs f = [] := by
  cases hf : c.flMap.find? f with
  | none => simp [hs.lists.absent f hf]
  | some list =>
    have hsize := (hs.lists.linked f list hf).2
    simp only [mem_some_iff, forall_eq']
    rw [← List.length_eq_zero_iff]
    omega

/-- The node `p` an eviction takes out is the last of the list of `minFreq`. -/
theorem Shape.makeRoom_full (hs : c.Shape xs) (hfull : c.currentSize = c.mxsize)
    (hp : p ∈ (xs c.minFreq).getLast?) (hd : c.heap.data p = some d) :
    ∃ c', c.makeRoom = some { c' with currentSize := c'.currentSize - 1 } ∧
      c'.Shape (update xs c.minFreq ((xs c.minFreq).erase p)) ∧
      c'.knMap = c.knMap.erase d.key ∧ Same c c' := by
  have hmem : p ∈ xs c.minFreq := List.mem_of_getLast? hp
  obtain ⟨list, hlist⟩ := hs.lists.exists_list hmem
  obtain ⟨c', hdet, hs', -, -, hkn, hsame⟩ := hs.detach hmem hd
  refine ⟨c', ?_, hs', hkn, hsame⟩
  have hprev : c.heap.prev list.tail = some p := by
    rw [(hs.lists.linked _ _ hlist).1.prev_tail, mem_def.mp hp]
    rfl
  unfold LFUCache.makeRoom
  rw [if_pos hfull]
  show ((c.flMap.find? c.minFreq).bind fun list => (c.heap.prev list.tail).bind fun last =>
    (c.heap.data last).bind fun d => (c.detach c.minFreq d.key last).bind fun c' => some _) = _
  rw [hlist, bind_some, hprev, bind_some, hd, bind_some, hdet,
    bind_some]

/-- With no node in the list of `minFreq`, an eviction follows a null pointer or unlinks the head
sentinel. -/
theorem Shape.makeRoom_stuck (hs : c.Shape xs) (hfull : c.currentSize = c.mxsize)
    (hnil : xs c.minFreq = []) : c.makeRoom = none := by
  unfold LFUCache.makeRoom
  rw [if_pos hfull]
  show ((c.flMap.find? c.minFreq).bind fun list => (c.heap.prev list.tail).bind fun last =>
    (c.heap.data last).bind fun d => (c.detach c.minFreq d.key last).bind fun c' => some _) = _
  cases hf : c.flMap.find? c.minFreq with
  | none => rfl
  | some list =>
    have hl := (hs.lists.linked _ _ hf).1
    rw [hnil] at hl
    obtain ⟨d, hd⟩ := Heap.exists_data (hl.lt_size List.mem_cons_self)
    have hdet : c.detach c.minFreq d.key list.head = none := by
      show ((c.flMap.find? c.minFreq).bind fun list' => (c.heap.unlink list.head).bind fun heap =>
        some _) = _
      rw [hf, bind_some, hl.unlink_head]
      rfl
    rw [bind_some, hl.prev_tail]
    show ((c.heap.data list.head).bind fun d => (c.detach c.minFreq d.key list.head).bind _) = _
    rw [hd, bind_some, hdet]
    rfl

/-- The new node of a key that is not cached goes to the front of the list of count 1. -/
theorem Shape.insertNew (hs : c.Shape xs) (hk : c.knMap.find? k = none) (value : Bytes) :
    ∃ c' n, c.insertNew k value = some c' ∧ c.heap.size ≤ n ∧
      c'.Shape (update xs 1 (n :: xs 1)) ∧ c'.knMap = c.knMap.insert k n ∧
      c'.heap.data n = some ⟨k, value, 1⟩ ∧
      (∀ q, q < c.heap.size → c'.heap.data q = c.heap.data q) ∧ c'.mxsize = c.mxsize ∧
      c'.minFreq = 1 ∧ c'.currentSize = c.currentSize + 1 := by
  have hs₁ : Shape { c with currentSize := c.currentSize + 1, minFreq := 1 } xs :=
    ⟨hs.lists, hs.cnt, hs.index⟩
  obtain ⟨c₂, fresh, hnew, hs₂, hsame₂, hkn₂, hfl₂, hfresh, hcells⟩ := hs₁.newList
  have ha := Heap.alloc_spec c₂.heap (⟨k, value, 1⟩ : Node)
  generalize hh : (c₂.heap.alloc (⟨k, value, 1⟩ : Node)).1 = h₃ at ha
  have hs₃ : Shape { c₂ with heap := h₃ } xs := hs₂.frame ha.frame
  have hlt : c₂.heap.size < h₃.size := by rw [ha.size]; omega
  have hnode : h₃.data c₂.heap.size = some ⟨k, value, 1⟩ := by rw [ha.data, if_pos rfl]
  -- the new node is beyond every cell of every list
  have hfree : c₂.Free xs c₂.heap.size := fun g l hl h =>
    absurd ((hs₂.lists.linked g l hl).1.lt_size h) (lt_irrefl _)
  have hfree' : ∀ q ∈ cells fresh [], q ≠ c₂.heap.size ∧ c₂.Free xs q := fun q hq =>
    ⟨(hfresh.1.lt_size hq).ne, (hcells q hq).2⟩
  have hlinked : h₃.Linked fresh.head fresh.tail [] :=
    hfresh.1.frame ha.frame fun _ _ => List.not_mem_nil
  obtain ⟨c₄, hatt, hs₄, hkn₄, hsame₄⟩ := hs₃.attach hlt hnode hfree
    (by show c₂.knMap.find? k = none; rw [hkn₂]; exact hk) ⟨hlinked, hfresh.2⟩ hfree'
  refine ⟨c₄, c₂.heap.size, ?_, hsame₂.size, hs₄, ?_, (hsame₄.data _ hlt).trans hnode, ?_,
    hsame₄.mxsize.trans hsame₂.mxsize, hsame₄.minFreq.trans hsame₂.minFreq,
    hsame₄.currentSize.trans hsame₂.currentSize⟩
  · show (({ c with currentSize := c.currentSize + 1, minFreq := 1 } : LFUCache).newList.bind
      fun x => ({ x.1 with heap := (x.1.heap.alloc ⟨k, value, 1⟩).1 } : LFUCache).attach x.2 1 k
        (x.1.heap.alloc (⟨k, value, 1⟩ : Node)).2) = _
    rw [hnew, bind_some, hh]
    exact hatt
  · rw [hkn₄]
    show c₂.knMap.insert k _ = _
    rw [hkn₂]
  · intro q hq
    have hq₂ : q < c₂.heap.size := hq.trans_le hsame₂.size
    calc c₄.heap.data q = h₃.data q := hsame₄.data q (hq₂.trans hlt)
      _ = c₂.heap.data q := ha.frame.data q hq₂
      _ = c.heap.data q := hsame₂.data q hq

theorem put_miss (hcap : c.mxsize ≠ 0) (hk : c.knMap.find? k = none) (value : Bytes) :
    c.put k value = c.makeRoom.bind fun c => c.insertNew k value := by
  unfold LFUCache.put
  rw [if_neg hcap, hk]
  rfl

/-! ### What the operations do to lookups -/

theorem lookup_eq_none_iff (hs : c.Shape xs) : c.lookup k = none ↔ c.knMap.find? k = none := by
  unfold lookup
  cases hk : c.knMap.find? k with
  | none => simp
  | some p =>
    obtain ⟨d, hd, -, -⟩ := hs.of_find? hk
    rw [bind_some, hd]
    simp

/-- The lookup of a key depends on its node only. -/
theorem lookup_congr {c' : LFUCache} (hk : c'.knMap.find? k = c.knMap.find? k)
    (hd : ∀ p, c.knMap.find? k = some p → c'.heap.data p = c.heap.data p) :
    c'.lookup k = c.lookup k := by
  unfold lookup
  rw [hk]
  cases hf : c.knMap.find? k with
  | none => rfl
  | some p => rw [bind_some, bind_some, hd p hf]

variable (hs : c.Shape xs)

include hs

theorem Shape.lt_size_of_find? (hk : c.knMap.find? k = some p) : p < c.heap.size := by
  obtain ⟨d, -, -, hp⟩ := hs.of_find? hk
  exact hs.lt_size hp

theorem Raised.lookup {c' : LFUCache} (hr : Raised c xs p d c') (hk : c.knMap.find? k = some p)
    (j : Bytes) : c'.lookup j = if j = k then some d.value else c.lookup j := by
  split_ifs with hj
  · unfold LFUCache.lookup
    rw [hj, hr.knMap, hk, bind_some, hr.node]
    rfl
  · refine lookup_congr (by rw [hr.knMap]) fun q hq => hr.data q (hs.lt_size_of_find? hq) ?_
    -- a node has one key
    rintro rfl
    obtain ⟨d₁, hd₁, rfl, -⟩ := hs.of_find? hk
    obtain ⟨d₂, hd₂, rfl, -⟩ := hs.of_find? hq
    rw [some.inj (hd₁.symm.trans hd₂)] at hj
    exact hj rfl

theorem Same.lookup {c' : LFUCache} (hsame : Same c c') (hkn : c'.knMap = c.knMap.erase k)
    (j : Bytes) : c'.lookup j = if j = k then none else c.lookup j := by
  split_ifs with hj
  · unfold LFUCache.lookup
    rw [hkn, hj, SortedMap.find?_erase_self]
    rfl
  · refine lookup_congr (by rw [hkn, SortedMap.find?_erase_of_ne _ hj]) fun q hq =>
      hsame.data q (hs.lt_size_of_find? hq)

/-- **A get** returns the cached value, or `"-1"`, and changes no lookup. -/
theorem Shape.get_lookup (k : Bytes) :
    ∃ c' xs', c.get k = some (c', (c.lookup k).getD notFound) ∧ c'.Shape xs' ∧
      ∀ j, c'.lookup j = c.lookup j := by
  cases hk : c.knMap.find? k with
  | none =>
    refine ⟨c, xs, ?_, hs, fun _ => rfl⟩
    rw [get_miss hk, (lookup_eq_none_iff hs).mpr hk]
    rfl
  | some p =>
    obtain ⟨d, hd, -, -⟩ := hs.of_find? hk
    obtain ⟨c', hget, hr⟩ := hs.get_hit hk hd
    have hlook : c.lookup k = some d.value := by
      unfold lookup
      rw [hk, bind_some, hd]
      rfl
    refine ⟨c', _, by rw [hget, hlook]; rfl, hr.shape, fun j => ?_⟩
    rw [hr.lookup hs hk]
    split_ifs with hj
    · rw [hj, hlook]
    · rfl

/-- **A del** removes the lookup of its key. -/
theorem Shape.del_lookup (k : Bytes) :
    ∃ c' xs', c.del k = some c' ∧ c'.Shape xs' ∧
      ∀ j, c'.lookup j = if j = k then none else c.lookup j := by
  cases hk : c.knMap.find? k with
  | none =>
    refine ⟨c, xs, del_miss hk, hs, fun j => ?_⟩
    split_ifs with hj
    · rw [hj, (lookup_eq_none_iff hs).mpr hk]
    · rfl
  | some p =>
    obtain ⟨d, hd, -, -⟩ := hs.of_find? hk
    obtain ⟨c', hdel, hs', hkn, hsame⟩ := hs.del_hit hk hd
    exact ⟨c', _, hdel, hs', hsame.lookup hs hkn⟩

/-- The eviction test of `put` brings no key in. -/
theorem Shape.makeRoom_lookup (hcap : c.mxsize ≠ 0) (hstuck : ¬ c.Stuck) :
    ∃ c' xs', c.makeRoom = some c' ∧ c'.Shape xs' ∧
      (∀ j w, c'.lookup j = some w → c.lookup j = some w) := by
  by_cases hfull : c.currentSize = c.mxsize
  · have hne : xs c.minFreq ≠ [] := fun hnil =>
      hstuck ⟨hcap, hfull, hs.size_eq_zero_iff.mpr hnil⟩
    obtain ⟨p, hlast⟩ := ne_none_iff_exists'.mp (mt List.getLast?_eq_none_iff.mp hne)
    obtain ⟨d, hd, -⟩ := hs.cnt _ p (List.mem_of_getLast? hlast)
    obtain ⟨c', hroom, hs', hkn, hsame⟩ := hs.makeRoom_full hfull hlast hd
    refine ⟨_, _, hroom, ⟨hs'.lists, hs'.cnt, hs'.index⟩, fun j w hj => ?_⟩
    replace hj : c'.lookup j = some w := hj
    rw [hsame.lookup hs hkn] at hj
    split_ifs at hj
    exact hj
  · exact ⟨c, xs, if_neg hfull, hs, fun _ _ h => h⟩

/-- **A put** of a key that is not cached, into a cache that is not stuck, caches the pair and
brings no other key in. -/
theorem Shape.put_lookup (hk : c.lookup k = none) (hcap : c.mxsize ≠ 0) (hstuck : ¬ c.Stuck)
    (value : Bytes) :
    ∃ c' xs', c.put k value = some c' ∧ c'.Shape xs' ∧ c'.lookup k = some value ∧
      ∀ j w, j ≠ k → c'.lookup j = some w → c.lookup j = some w := by
  obtain ⟨c₁, xs₁, hroom, hs₁, hlook₁⟩ := hs.makeRoom_lookup hcap hstuck
  have hk₁ : c₁.knMap.find? k = none := by
    refine (lookup_eq_none_iff hs₁).mp (eq_none_iff_forall_ne_some.mpr fun w hw => ?_)
    rw [hlook₁ k w hw] at hk
    exact absurd hk (by simp)
  obtain ⟨c₂, n, hins, hn, hs₂, hkn₂, hnode₂, hdata₂, -, -, -⟩ := hs₁.insertNew hk₁ value
  refine ⟨c₂, _, ?_, hs₂, ?_, fun j w hj hw => hlook₁ j w ?_⟩
  · rw [put_miss hcap ((lookup_eq_none_iff hs).mp hk), hroom, bind_some, hins]
  · unfold lookup
    rw [hkn₂, SortedMap.find?_insert_self, bind_some, hnode₂]
    rfl
  · rw [← hw]
    refine (lookup_congr (by rw [hkn₂, SortedMap.find?_insert_of_ne _ _ hj]) fun q hq => ?_).symm
    exact hdata₂ q (hs₁.lt_size_of_find? hq)

/-- A put of a key that is not cached into a stuck cache has no result. -/
theorem Shape.put_stuck (hk : c.lookup k = none) (hstuck : c.Stuck) (value : Bytes) :
    c.put k value = none := by
  obtain ⟨hcap, hfull, hnil⟩ := hstuck
  rw [put_miss hcap ((lookup_eq_none_iff hs).mp hk),
    hs.makeRoom_stuck hfull (hs.size_eq_zero_iff.mp hnil)]
  rfl

end LFUCache

end Kvs
