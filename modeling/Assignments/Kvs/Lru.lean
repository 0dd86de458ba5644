import Assignments.Framework.LinkedList
import Assignments.Framework.SortedMap
import Assignments.Kvs.Bytes

/-!
# The LRU cache

`LRUCache` is the class of the server of that name: a doubly linked list of nodes between the
sentinels `head` and `tail`, most recently used first, and an index `m` from keys to nodes. A
call without a result is one that follows an indeterminate pointer.

`Recency` is what the class is for: the list of its entries, front first. `LRUCache.Repr` ties
the two together, and each operation is proved to be the operation of that list:

* `get_repr` — a hit moves the entry to the front (`Recency.touch`);
* `put_repr` — the entry goes to the front, after its old copy and, in a full cache, the last
  entry have been dropped (`Recency.put`);
* `del_repr` — the entry is dropped (`Recency.drop`).

Only a put into a cache of capacity 0 is without a result (`put_repr`, `put_stuck`).
-/

namespace Kvs

open Framework List

/-- Key and value of a cached pair. -/
structure Entry where
  key : Bytes
  value : Bytes
  deriving DecidableEq, Repr

/-- The class `LRUCache`. -/
structure LRUCache where
  heap : Heap Entry
  head : ℕ
  tail : ℕ
  cap : ℤ
  m : SortedMap Bytes ℕ

namespace LRUCache

/-! ### The class -/

/-- The constructor: two sentinels `"-1"` linked to each other, and an empty index. -/
def new (capacity : ℤ) : Option LRUCache := do
  let (heap, head, tail) ← Heap.sentinels ⟨[]⟩ ⟨notFound, notFound⟩
  return { heap, head, tail, cap := capacity, m := SortedMap.empty }

def addnode (c : LRUCache) (newnode : ℕ) : Option LRUCache :=
  (c.heap.linkFront c.head newnode).map fun heap => { c with heap }

def deletenode (c : LRUCache) (delnode : ℕ) : Option LRUCache :=
  (c.heap.unlink delnode).map fun heap => { c with heap }

/-- `m[k] = head->next`. -/
def indexFront (c : LRUCache) (k : Bytes) : Option LRUCache :=
  (c.heap.next c.head).map fun first => { c with m := c.m.insert k first }

/-- The block `if (m.find(k) != m.end()) { ... m.erase(k); deletenode(existingnode); }` that
`put` starts with and that is all of `del`. -/
def del (c : LRUCache) (k : Bytes) : Option LRUCache :=
  match c.m.find? k with
  | some existingnode => { c with m := c.m.erase k }.deletenode existingnode
  | none => some c

def get (c : LRUCache) (k : Bytes) : Option (LRUCache × Bytes) :=
  match c.m.find? k with
  | some resnode => do
    let res ← c.heap.data resnode
    let c ← { c with m := c.m.erase k }.deletenode resnode
    let c ← c.addnode resnode
    let c ← c.indexFront k
    return (c, res.value)
  | none => some (c, notFound)

/-- `m.erase(tail->prev->key); deletenode(tail->prev);` -/
def evict (c : LRUCache) : Option LRUCache := do
  let last ← c.heap.prev c.tail
  let entry ← c.heap.data last
  { c with m := c.m.erase entry.key }.deletenode last

/-- The block `if(m.size() == cap) { ... }` of `put`. -/
def makeRoom (c : LRUCache) : Option LRUCache :=
  if (c.m.size : ℤ) = c.cap then c.evict else some c

def put (c : LRUCache) (k value : Bytes) : Option LRUCache := do
  let c ← c.del k
  let c ← c.makeRoom
  let (heap, newnode) := c.heap.alloc ⟨k, value⟩
  let c ← { c with heap }.addnode newnode
  c.indexFront k

/-- The value a hit on `k` would return. -/
def lookup (c : LRUCache) (k : Bytes) : Option Bytes :=
  (c.m.find? k).bind fun p => (c.heap.data p).map Entry.value

end LRUCache

/-! ### The recency list -/

/-- The cached entries, most recently used first. -/
abbrev Recency : Type := List Entry

namespace Recency

def lookup (l : Recency) (k : Bytes) : Option Bytes :=
  (l.find? fun e => e.key = k).map Entry.value

/-- Drop the entry of `k`. -/
def drop (l : Recency) (k : Bytes) : Recency := l.filter fun e => e.key ≠ k

/-- Move the entry of `k` to the front. -/
def touch (l : Recency) (k : Bytes) : Recency :=
  match l.find? fun e => e.key = k with
  | some e => e :: l.drop k
  | none => l

/-- Put a pair in front, dropping its old entry and, in a full list, the last one. -/
def put (cap : ℤ) (l : Recency) (k value : Bytes) : Recency :=
  ⟨k, value⟩ :: if ((drop l k).length : ℤ) = cap then (drop l k).dropLast else drop l k

variable {l : Recency} {k : Bytes}

theorem lookup_cons (e : Entry) (l : Recency) (j : Bytes) :
    Recency.lookup (e :: l) j = if e.key = j then some e.value else l.lookup j := by
  unfold lookup
  rw [find?_cons]
  by_cases h : e.key = j <;> simp [h]

theorem lookup_drop (l : Recency) (k j : Bytes) :
    (l.drop k).lookup j = if j = k then none else l.lookup j := by
  induction l with
  | nil => simp [drop, lookup]
  | cons e l ih =>
    have hdrop : Recency.drop (e :: l) k =
        if e.key = k then Recency.drop l k else e :: Recency.drop l k := by
      unfold drop
      rw [filter_cons]
      by_cases h : e.key = k <;> simp [h]
    rw [hdrop, lookup_cons]
    split_ifs with hek hjk hej hjk hej
    · rw [ih, if_pos hjk]
    · exact absurd (hej.symm.trans hek) hjk
    · rw [ih, if_neg hjk]
    · rw [lookup_cons, if_neg fun h => hek (h.trans hjk), ih, if_pos hjk]
    · rw [lookup_cons, if_pos hej]
    · rw [lookup_cons, if_neg hej, ih, if_neg hjk]

/-- Moving an entry to the front changes no lookup. -/
theorem lookup_touch (l : Recency) (k j : Bytes) : (l.touch k).lookup j = l.lookup j := by
  unfold touch
  cases hf : l.find? fun e => e.key = k with
  | none => rfl
  | some e =>
    have hek : e.key = k := by simpa using find?_some hf
    show Recency.lookup (e :: l.drop k) j = l.lookup j
    rw [lookup_cons, lookup_drop]
    split_ifs with hj hjk
    · rw [← hj, hek]
      unfold lookup
      rw [hf]
      rfl
    · exact absurd (hek.trans hjk.symm) hj
    · rfl

theorem lookup_put_self (cap : ℤ) (l : Recency) (k value : Bytes) :
    (Recency.put cap l k value).lookup k = some value := by
  unfold put
  rw [lookup_cons, if_pos rfl]

/-- A put brings no entry in but its own. -/
theorem lookup_put_of_ne {cap : ℤ} {value j w : Bytes} (hj : j ≠ k)
    (h : (Recency.put cap l k value).lookup j = some w) : l.lookup j = some w := by
  have hsub : (l.drop k).lookup j = some w := by
    unfold put at h
    rw [lookup_cons, if_neg hj.symm] at h
    split_ifs at h with hfull
    · -- an entry found in a part of the list is found in the whole
      unfold lookup at h ⊢
      obtain ⟨e, he, hw⟩ := Option.map_eq_some_iff.mp h
      rw [(List.dropLast_prefix _).find?_eq_some he]
      exact congrArg some hw
    · exact h
  rwa [lookup_drop, if_neg hj] at hsub

end Recency

/-! ### The representation invariant -/

namespace LRUCache

/-- The entries of the cells `xs`. -/
def contents (c : LRUCache) (xs : List ℕ) : Recency := xs.filterMap c.heap.data

/-- The cells `xs` are the list of the cache, and the index maps each cached key to its cell. -/
structure Shape (c : LRUCache) (xs : List ℕ) : Prop where
  linked : c.heap.Linked c.head c.tail xs
  index : ∀ k p, c.m.find? k = some p ↔ p ∈ xs ∧ (c.heap.data p).map Entry.key = some k
  size : c.m.size = xs.length

/-- The cache holds the entries `l`, front first. -/
def Repr (c : LRUCache) (l : Recency) : Prop := ∃ xs, c.Shape xs ∧ c.contents xs = l

variable {c : LRUCache} {xs A B : List ℕ} {p : ℕ} {e : Entry} {k : Bytes}

theorem Shape.data_of_mem (hs : c.Shape xs) (hp : p ∈ xs) : ∃ e, c.heap.data p = some e :=
  Heap.exists_data (hs.linked.lt_size (by simp [hp]))

theorem Shape.length_contents (hs : c.Shape xs) : (c.contents xs).length = xs.length := by
  have hall : ∀ p ∈ xs, (c.heap.data p).isSome := fun p hp => by
    obtain ⟨e, he⟩ := hs.data_of_mem hp
    rw [he]; rfl
  clear hs
  unfold contents
  induction xs with
  | nil => rfl
  | cons p xs ih =>
    obtain ⟨e, he⟩ := Option.isSome_iff_exists.mp (hall p mem_cons_self)
    rw [filterMap_cons_some he, length_cons, length_cons,
      ih fun q hq => hall q (mem_cons_of_mem p hq)]

/-- Two cells of the list with one key are the same cell. -/
theorem Shape.key_inj (hs : c.Shape xs) {q : ℕ} {e' : Entry} (hp : p ∈ xs) (hq : q ∈ xs)
    (hpe : c.heap.data p = some e) (hqe : c.heap.data q = some e') (hk : e.key = e'.key) :
    p = q := by
  have h₁ := (hs.index e.key p).mpr ⟨hp, by rw [hpe]; rfl⟩
  have h₂ := (hs.index e.key q).mpr ⟨hq, by rw [hqe, hk]; rfl⟩
  exact Option.some.inj (h₁.symm.trans h₂)

/-- A lookup in the index is a lookup in the recency list. -/
theorem Shape.lookup_eq (hs : c.Shape xs) (k : Bytes) :
    c.lookup k = Recency.lookup (c.contents xs) k := by
  unfold lookup Recency.lookup contents
  cases hf : c.m.find? k with
  | none =>
    have hnone : (xs.filterMap c.heap.data).find? (fun e => e.key = k) = none := by
      rw [find?_eq_none]
      intro e he hek
      obtain ⟨p, hp, hpe⟩ := mem_filterMap.mp he
      have := (hs.index k p).mpr ⟨hp, by rw [hpe]; simpa using hek⟩
      rw [hf] at this
      exact absurd this (by simp)
    rw [hnone]; rfl
  | some p =>
    obtain ⟨hp, hk⟩ := (hs.index k p).mp hf
    obtain ⟨e, hpe, rfl⟩ := Option.map_eq_some_iff.mp hk
    have hmem : e ∈ xs.filterMap c.heap.data := mem_filterMap.mpr ⟨p, hp, hpe⟩
    cases hfind : (xs.filterMap c.heap.data).find? (fun e' => e'.key = e.key) with
    | none => exact absurd (find?_eq_none.mp hfind e hmem) (by simp)
    | some e' =>
      obtain ⟨q, hq, hqe⟩ := mem_filterMap.mp (mem_of_find?_eq_some hfind)
      have hkey : e'.key = e.key := by simpa using find?_some hfind
      obtain rfl := hs.key_inj hq hp hqe hpe hkey
      rw [Option.bind_some, hpe, Option.map_some, Option.map_some,
        Option.some.inj (hpe.symm.trans hqe)]

/-- Taking one cell out of the list drops its key from the contents. -/
theorem Shape.contents_drop (hs : c.Shape (A ++ p :: B)) (hpe : c.heap.data p = some e) :
    c.contents (A ++ B) = Recency.drop (c.contents (A ++ p :: B)) e.key := by
  have hne : ∀ q ∈ A ++ B, ∀ e', c.heap.data q = some e' → e'.key ≠ e.key := by
    intro q hq e' hqe hk
    have hpmem : p ∈ A ++ p :: B := by simp
    have hqmem : q ∈ A ++ p :: B := by
      rcases mem_append.mp hq with h | h <;> simp [h]
    obtain rfl := hs.key_inj hqmem hpmem hqe hpe hk
    have hnd : (A ++ q :: B).Nodup :=
      ((nodup_cons.mp hs.linked.nodup).2).sublist (sublist_append_left _ _)
    have hnq := (nodup_middle.mp hnd)
    exact (nodup_cons.mp hnq).1 hq
  have hkeep : ∀ l : List ℕ, (∀ q ∈ l, q ∈ A ++ B) →
      (c.contents l).filter (fun e' => e'.key ≠ e.key) = c.contents l := by
    intro l hl
    refine filter_eq_self.mpr fun e' he' => ?_
    obtain ⟨q, hq, hqe⟩ := mem_filterMap.mp he'
    simpa using hne q (hl q hq) e' hqe
  unfold Recency.drop
  have hsplit : c.contents (A ++ p :: B) = c.contents A ++ e :: c.contents B := by
    unfold contents
    rw [filterMap_append, filterMap_cons_some hpe]
  rw [hsplit, filter_append, filter_cons_of_neg (by simp),
    hkeep A fun q hq => mem_append_left B hq, hkeep B fun q hq => mem_append_right A hq]
  unfold contents
  rw [filterMap_append]

/-- **Taking a cell out**: `m.erase(key); deletenode(p)`. -/
theorem Shape.deletenode (hs : c.Shape (A ++ p :: B)) (hpe : c.heap.data p = some e) :
    ∃ h', { c with m := c.m.erase e.key }.deletenode p =
        some { c with heap := h', m := c.m.erase e.key } ∧
      LRUCache.Shape { c with heap := h', m := c.m.erase e.key } (A ++ B) ∧
      (∀ q, q < c.heap.size → h'.data q = c.heap.data q) ∧ h'.size = c.heap.size := by
  obtain ⟨h', hunlink, hlinked, hframe, hsize⟩ := Heap.unlink_spec hs.linked
  have hpmem : p ∈ A ++ p :: B := by simp
  have hfind : c.m.find? e.key = some p := (hs.index e.key p).mpr ⟨hpmem, by rw [hpe]; rfl⟩
  have hpAB : p ∉ A ++ B := by
    have hnd : (A ++ p :: B).Nodup :=
      ((nodup_cons.mp hs.linked.nodup).2).sublist (sublist_append_left _ _)
    exact (nodup_cons.mp (nodup_middle.mp hnd)).1
  have hmem : ∀ q, q ∈ A ++ p :: B ↔ q = p ∨ q ∈ A ++ B := by
    intro q; simp only [mem_append, mem_cons]; tauto
  refine ⟨h', ?_, ⟨hlinked, ?_, ?_⟩, hframe.data, hsize⟩
  · show ((c.heap.unlink p).map fun heap => { c with heap, m := c.m.erase e.key }) = _
    rw [hunlink]; rfl
  · intro k q
    show (c.m.erase e.key).find? k = some q ↔ q ∈ A ++ B ∧ (h'.data q).map Entry.key = some k
    have hdata : q ∈ A ++ B → h'.data q = c.heap.data q := fun hq =>
      hframe.data q (hs.linked.lt_size (by
        have := (hmem q).mpr (Or.inr hq)
        simp only [mem_cons, mem_append] at this ⊢
        tauto))
    rw [SortedMap.find?_erase]
    split_ifs with hk
    · -- the erased key belongs to `p` alone
      refine ⟨fun h => absurd h (by simp), fun ⟨hq, hqk⟩ => ?_⟩
      rw [hdata hq, hk] at hqk
      have := (hs.index e.key q).mpr ⟨(hmem q).mpr (Or.inr hq), hqk⟩
      rw [hfind] at this
      exact absurd (Option.some.inj this ▸ hq) hpAB
    · rw [hs.index k q, hmem q]
      constructor
      · rintro ⟨rfl | hq, hqk⟩
        · rw [hpe] at hqk
          exact absurd (Option.some.inj hqk).symm hk
        · exact ⟨hq, by rw [hdata hq]; exact hqk⟩
      · rintro ⟨hq, hqk⟩
        exact ⟨Or.inr hq, by rw [← hdata hq]; exact hqk⟩
  · have h₁ := c.m.size_erase_of_find?_some hfind
    have h₂ := hs.size
    show (c.m.erase e.key).size = (A ++ B).length
    simp only [length_append, length_cons] at h₂ ⊢
    omega

/-- **Putting a cell in front**: `addnode(p); m[key] = head->next`, for a key not indexed. -/
theorem Shape.pushFront (hs : c.Shape xs) (hp : p < c.heap.size)
    (hfresh : p ∉ c.head :: (xs ++ [c.tail])) (hpe : c.heap.data p = some e)
    (hfind : c.m.find? e.key = none) :
    ∃ h', (c.addnode p).bind (fun c => c.indexFront e.key) =
        some { c with heap := h', m := c.m.insert e.key p } ∧
      LRUCache.Shape { c with heap := h', m := c.m.insert e.key p } (p :: xs) ∧
      (∀ q, q < c.heap.size → h'.data q = c.heap.data q) := by
  obtain ⟨h', hlink, hlinked, hframe, hsize⟩ := Heap.linkFront_spec hs.linked hp hfresh
  have hpxs : p ∉ xs := fun h => hfresh (by simp [h])
  refine ⟨h', ?_, ⟨hlinked, ?_, ?_⟩, hframe.data⟩
  · show ((c.heap.linkFront c.head p).map fun heap => { c with heap }).bind _ = _
    rw [hlink]
    show ((h'.next c.head).map fun first =>
      { c with heap := h', m := c.m.insert e.key first }) = _
    rw [hlinked.next_head]; rfl
  · intro k q
    show (c.m.insert e.key p).find? k = some q ↔
      q ∈ p :: xs ∧ (h'.data q).map Entry.key = some k
    have hdata : ∀ q, q < c.heap.size → h'.data q = c.heap.data q := hframe.data
    have hlt : ∀ q ∈ xs, q < c.heap.size := fun q hq => hs.linked.lt_size (by simp [hq])
    rw [SortedMap.find?_insert, mem_cons]
    split_ifs with hk
    · subst hk
      constructor
      · intro h
        obtain rfl := Option.some.inj h
        exact ⟨Or.inl rfl, by rw [hdata p hp, hpe]; rfl⟩
      · rintro ⟨rfl | hq, hqk⟩
        · rfl
        · rw [hdata q (hlt q hq)] at hqk
          have := (hs.index e.key q).mpr ⟨hq, hqk⟩
          rw [hfind] at this
          exact absurd this (by simp)
    · rw [hs.index k q]
      constructor
      · rintro ⟨hq, hqk⟩
        exact ⟨Or.inr hq, by rw [hdata q (hlt q hq)]; exact hqk⟩
      · rintro ⟨rfl | hq, hqk⟩
        · rw [hdata q hp, hpe] at hqk
          exact absurd (Option.some.inj hqk).symm hk
        · exact ⟨hq, by rw [← hdata q (hlt q hq)]; exact hqk⟩
  · show (c.m.insert e.key p).size = (p :: xs).length
    rw [SortedMap.size_insert_of_find?_none _ _ hfind, hs.size, length_cons]

/-- The contents depend on the payloads of the listed cells only. -/
theorem contents_congr {c' : LRUCache} (h : ∀ q ∈ xs, c'.heap.data q = c.heap.data q) :
    c'.contents xs = c.contents xs :=
  filterMap_congr h

theorem Shape.lt_size (hs : c.Shape xs) (hp : p ∈ xs) : p < c.heap.size :=
  hs.linked.lt_size (by simp [hp])

/-! ### The operations -/

variable {l : Recency}

theorem new_repr (capacity : ℤ) :
    ∃ c, LRUCache.new capacity = some c ∧ c.Repr [] ∧ c.cap = capacity := by
  obtain ⟨h', hs, hlinked, -, -⟩ := Heap.sentinels_spec (⟨[]⟩ : Heap Entry) ⟨notFound, notFound⟩
  refine ⟨⟨h', _, _, capacity, SortedMap.empty⟩, ?_, ⟨[], ⟨hlinked, ?_, rfl⟩, rfl⟩, rfl⟩
  · unfold LRUCache.new
    rw [hs]; rfl
  · intro k p
    simp

section

variable (hr : c.Repr l)

include hr

/-- **Deleting** drops the key from the recency list. -/
theorem del_repr (k : Bytes) :
    ∃ c', c.del k = some c' ∧ c'.Repr (Recency.drop l k) ∧ c'.cap = c.cap := by
  obtain ⟨xs, hs, rfl⟩ := hr
  unfold del
  cases hf : c.m.find? k with
  | none =>
    refine ⟨c, rfl, ⟨xs, hs, ?_⟩, rfl⟩
    refine (filter_eq_self.mpr fun e he => ?_).symm
    obtain ⟨p, hp, hpe⟩ := mem_filterMap.mp he
    simp only [decide_not, Bool.not_eq_eq_eq_not, Bool.not_true, decide_eq_false_iff_not]
    intro hek
    have := (hs.index k p).mpr ⟨hp, by rw [hpe, ← hek]; rfl⟩
    rw [hf] at this
    exact absurd this (by simp)
  | some p =>
    obtain ⟨hp, hk⟩ := (hs.index k p).mp hf
    obtain ⟨e, hpe, rfl⟩ := Option.map_eq_some_iff.mp hk
    obtain ⟨A, B, rfl⟩ := append_of_mem hp
    obtain ⟨h', hdel, hs', hdata, -⟩ := hs.deletenode hpe
    refine ⟨_, hdel, ⟨A ++ B, hs', ?_⟩, rfl⟩
    rw [← hs.contents_drop hpe]
    refine contents_congr fun q hq => hdata q (hs.lt_size ?_)
    rcases mem_append.mp hq with h | h <;> simp [h]

/-- **A get** returns the cached value or `"-1"`, and moves a hit to the front. -/
theorem get_repr (k : Bytes) :
    ∃ c', c.get k = some (c', (Recency.lookup l k).getD notFound) ∧
      c'.Repr (Recency.touch l k) ∧ c'.cap = c.cap := by
  obtain ⟨xs, hs, rfl⟩ := hr
  have hlookup := hs.lookup_eq k
  unfold get
  cases hf : c.m.find? k with
  | none =>
    have hnone : (c.contents xs).find? (fun e => e.key = k) = none := by
      unfold lookup Recency.lookup at hlookup
      rw [hf] at hlookup
      exact Option.map_eq_none_iff.mp hlookup.symm
    refine ⟨c, ?_, ⟨xs, hs, ?_⟩, rfl⟩
    · unfold Recency.lookup; rw [hnone]; rfl
    · unfold Recency.touch; rw [hnone]
  | some p =>
    obtain ⟨hp, hk⟩ := (hs.index k p).mp hf
    obtain ⟨e, hpe, rfl⟩ := Option.map_eq_some_iff.mp hk
    obtain ⟨A, B, rfl⟩ := append_of_mem hp
    obtain ⟨h₁, hdel, hs₁, hdata₁, hsize₁⟩ := hs.deletenode hpe
    have hplt : p < c.heap.size := hs.lt_size (by simp)
    -- the cell taken out is outside the remaining list
    have hfresh : p ∉ c.head :: (A ++ B ++ [c.tail]) := by
      have hnd := hs.linked.nodup
      rw [append_assoc, cons_append, ← cons_append] at hnd
      have := (nodup_cons.mp (nodup_middle.mp hnd)).1
      rwa [append_assoc]
    obtain ⟨h₂, hpush, hs₂, hdata₂⟩ := hs₁.pushFront (p := p) (e := e)
      (show p < h₁.size by rw [hsize₁]; exact hplt) hfresh
      (show h₁.data p = some e by rw [hdata₁ p hplt]; exact hpe) (SortedMap.find?_erase_self _ _)
    refine ⟨_, ?_, ⟨p :: (A ++ B), hs₂, ?_⟩, rfl⟩
    · have hval : (Recency.lookup (c.contents (A ++ p :: B)) e.key).getD notFound = e.value := by
        rw [← hlookup, lookup, hf, Option.bind_some, hpe]; rfl
      rw [hval]
      obtain ⟨c₃, hadd, hidx⟩ := Option.bind_eq_some_iff.mp hpush
      show ((c.heap.data p).bind fun res =>
        (({ c with m := c.m.erase e.key } : LRUCache).deletenode p).bind fun c => (c.addnode p).bind
          fun c => (c.indexFront e.key).bind fun c => some (c, res.value)) = _
      rw [hpe, Option.bind_some, hdel, Option.bind_some, hadd, Option.bind_some, hidx,
        Option.bind_some]
    · have hfront : c.heap.data p = some e := hpe
      have hfind : (c.contents (A ++ p :: B)).find? (fun e' => e'.key = e.key) = some e := by
        have hmem : e ∈ c.contents (A ++ p :: B) := mem_filterMap.mpr ⟨p, by simp, hpe⟩
        cases hfe : (c.contents (A ++ p :: B)).find? (fun e' => e'.key = e.key) with
        | none => exact absurd (find?_eq_none.mp hfe e hmem) (by simp)
        | some e' =>
          obtain ⟨q, hq, hqe⟩ := mem_filterMap.mp (mem_of_find?_eq_some hfe)
          obtain rfl := hs.key_inj hq (by simp) hqe hpe (by simpa using find?_some hfe)
          exact hqe.symm.trans hpe
      unfold Recency.touch
      rw [hfind]
      show contents _ (p :: (A ++ B)) = e :: Recency.drop (c.contents (A ++ p :: B)) e.key
      rw [← hs.contents_drop hpe]
      have hlt : ∀ q ∈ A ++ B, q < c.heap.size := fun q hq => hs.lt_size (by
        rcases mem_append.mp hq with h | h <;> simp [h])
      have hpe₂ : h₂.data p = some e := by
        rw [hdata₂ p (by show p < h₁.size; rw [hsize₁]; exact hplt)]
        exact (hdata₁ p hplt).trans hpe
      unfold contents
      rw [filterMap_cons_some (show _ = some e from hpe₂)]
      refine congrArg (e :: ·) (filterMap_congr fun q hq => ?_)
      refine (hdata₂ q ?_).trans (hdata₁ q (hlt q hq))
      show q < h₁.size
      rw [hsize₁]; exact hlt q hq

/-- **Evicting** drops the last entry of a non-empty recency list. -/
theorem evict_repr (hne : l ≠ []) :
    ∃ c', c.evict = some c' ∧ c'.Repr l.dropLast ∧ c'.cap = c.cap := by
  obtain ⟨xs, hs, rfl⟩ := hr
  obtain ⟨A, p, rfl⟩ : ∃ A p, xs = A ++ [p] := by
    rcases eq_nil_or_concat xs with h | ⟨A, p, h⟩
    · subst h; exact absurd rfl hne
    · exact ⟨A, p, by rw [h, concat_eq_append]⟩
  obtain ⟨e, hpe⟩ := hs.data_of_mem (p := p) (by simp)
  obtain ⟨h', hdel, hs', hdata, -⟩ := hs.deletenode hpe
  refine ⟨{ c with heap := h', m := c.m.erase e.key }, ?_, ⟨A, by simpa using hs', ?_⟩, rfl⟩
  · show ((c.heap.prev c.tail).bind fun last => (c.heap.data last).bind fun entry =>
      ({ c with m := c.m.erase entry.key } : LRUCache).deletenode last) = _
    rw [hs.linked.prev_tail]
    simp only [getLast?_append, getLast?_singleton, Option.some_or, Option.getD_some,
      Option.bind_some]
    rw [hpe, Option.bind_some, hdel]
  · have hlt : ∀ q ∈ A, q < c.heap.size := fun q hq => hs.lt_size (by simp [hq])
    refine (contents_congr fun q hq => hdata q (hlt q hq)).trans ?_
    unfold contents
    rw [filterMap_append, filterMap_cons_some hpe, filterMap_nil,
      dropLast_concat]

/-- **A put** is the put of the recency list, as long as there is an entry to evict in a cache
that is full. -/
theorem put_repr (k value : Bytes)
    (hfull : ((Recency.drop l k).length : ℤ) = c.cap → Recency.drop l k ≠ []) :
    ∃ c', c.put k value = some c' ∧ c'.Repr (Recency.put c.cap l k value) ∧ c'.cap = c.cap := by
  obtain ⟨c₁, hdel, hr₁, hcap₁⟩ := del_repr hr k
  -- the eviction, when the cache is full without `k`
  obtain ⟨c₂, hev, ⟨xs, hs₂, hl₂⟩, hcap₂⟩ : ∃ c₂, c₁.makeRoom = some c₂ ∧
      c₂.Repr (if ((Recency.drop l k).length : ℤ) = c.cap then (Recency.drop l k).dropLast
        else Recency.drop l k) ∧ c₂.cap = c.cap := by
    have hsize : c₁.m.size = (Recency.drop l k).length := by
      obtain ⟨ys, hs₁, hl₁⟩ := hr₁
      rw [hs₁.size, ← hl₁, hs₁.length_contents]
    unfold makeRoom
    rw [hsize, hcap₁]
    split_ifs with hsz
    · obtain ⟨c₂, h₁, h₂, h₃⟩ := evict_repr hr₁ (hfull hsz)
      exact ⟨c₂, h₁, h₂, h₃.trans hcap₁⟩
    · exact ⟨c₁, rfl, hr₁, hcap₁⟩
  have hput : c.put k value = ({ c₂ with heap := (c₂.heap.alloc ⟨k, value⟩).1 }.addnode
      c₂.heap.size).bind fun c => c.indexFront k := by
    show ((c.del k).bind fun c₁ => c₁.makeRoom.bind fun c₂ =>
      ({ c₂ with heap := (c₂.heap.alloc ⟨k, value⟩).1 }.addnode c₂.heap.size).bind
        fun c => c.indexFront k) = _
    rw [hdel, Option.bind_some, hev, Option.bind_some]
  -- the new cell is fresh
  have ha := Heap.alloc_spec c₂.heap ⟨k, value⟩
  have hs₃ : Shape { c₂ with heap := (c₂.heap.alloc ⟨k, value⟩).1 } xs := by
    refine ⟨hs₂.linked.frame ha.frame fun _ _ => not_mem_nil, fun j q => ?_, hs₂.size⟩
    rw [show (({ c₂ with heap := (c₂.heap.alloc ⟨k, value⟩).1 } : LRUCache).m.find? j = some q)
      = (c₂.m.find? j = some q) from rfl, hs₂.index j q]
    refine and_congr_right fun hq => ?_
    show _ ↔ Option.map Entry.key ((c₂.heap.alloc ⟨k, value⟩).1.data q) = some j
    rw [ha.data, if_neg (hs₂.lt_size hq).ne]
  have hfresh : c₂.heap.size ∉ c₂.head :: (xs ++ [c₂.tail]) := fun h =>
    absurd (hs₂.linked.lt_size h) (lt_irrefl _)
  have hnone : c₂.m.find? k = none := by
    cases hf : c₂.m.find? k with
    | none => rfl
    | some q =>
      obtain ⟨hq, hk⟩ := (hs₂.index k q).mp hf
      obtain ⟨e, hqe, rfl⟩ := Option.map_eq_some_iff.mp hk
      have hmem : e ∈ Recency.drop l e.key := by
        have : e ∈ c₂.contents xs := mem_filterMap.mpr ⟨q, hq, hqe⟩
        rw [hl₂] at this
        split_ifs at this
        · exact mem_of_mem_dropLast this
        · exact this
      simp [Recency.drop] at hmem
  obtain ⟨h', hpush, hs', hdata⟩ := hs₃.pushFront (p := c₂.heap.size) (e := ⟨k, value⟩)
    (by show _ < (c₂.heap.alloc ⟨k, value⟩).1.size; rw [ha.size]; omega) hfresh
    (by show (c₂.heap.alloc ⟨k, value⟩).1.data _ = _; rw [ha.data, if_pos rfl]) hnone
  refine ⟨_, by rw [hput]; exact hpush, ⟨_, hs', ?_⟩, hcap₂⟩
  have hsz : ∀ q, q < c₂.heap.size → q < (c₂.heap.alloc ⟨k, value⟩).1.size :=
    fun q hq => by rw [ha.size]; omega
  unfold contents Recency.put
  rw [filterMap_cons_some (b := (⟨k, value⟩ : Entry)) ?_, ← hl₂]
  · refine congrArg (_ :: ·) (filterMap_congr fun q hq => ?_)
    refine (hdata q (hsz q (hs₂.lt_size hq))).trans ?_
    show (c₂.heap.alloc ⟨k, value⟩).1.data q = _
    rw [ha.data, if_neg (hs₂.lt_size hq).ne]
  · refine (hdata _ (by show _ < (c₂.heap.alloc ⟨k, value⟩).1.size; rw [ha.size]; omega)).trans ?_
    show (c₂.heap.alloc ⟨k, value⟩).1.data _ = _
    rw [ha.data, if_pos rfl]

theorem Repr.size_eq : c.m.size = l.length := by
  obtain ⟨xs, hs, rfl⟩ := hr
  rw [hs.size, hs.length_contents]

theorem Repr.lookup_eq (k : Bytes) : c.lookup k = Recency.lookup l k := by
  obtain ⟨xs, hs, rfl⟩ := hr
  exact hs.lookup_eq k

end

/-- An empty cache of capacity 0 takes its head sentinel for the entry to evict. -/
theorem put_stuck (hr : c.Repr []) (hcap : c.cap = 0) (k value : Bytes) : c.put k value = none := by
  obtain ⟨c₁, hdel, ⟨xs, hs, hnil⟩, hcap₁⟩ := del_repr hr k
  have hxs : xs = [] := by
    have := hs.length_contents
    rw [hnil] at this
    exact length_eq_zero_iff.mp this.symm
  subst hxs
  obtain ⟨e, he⟩ := Heap.exists_data (hs.linked.lt_size mem_cons_self)
  have hev : c₁.makeRoom = none := by
    unfold makeRoom
    rw [hs.size, hcap₁, hcap]
    show (if (0 : ℤ) = 0 then c₁.evict else some c₁) = none
    rw [if_pos rfl]
    show ((c₁.heap.prev c₁.tail).bind fun last => (c₁.heap.data last).bind fun entry =>
      ({ c₁ with m := c₁.m.erase entry.key } : LRUCache).deletenode last) = _
    rw [hs.linked.prev_tail]
    show ((c₁.heap.data c₁.head).bind fun entry =>
      ({ c₁ with m := c₁.m.erase entry.key } : LRUCache).deletenode c₁.head) = _
    rw [he]
    show (c₁.heap.unlink c₁.head).map _ = none
    rw [hs.linked.unlink_head]
    rfl
  show ((c.del k).bind fun c₁ => c₁.makeRoom.bind _) = _
  rw [hdel, Option.bind_some, hev]
  rfl

end LRUCache

end Kvs
