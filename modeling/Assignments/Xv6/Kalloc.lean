import Assignments.Framework.Blocks
import Assignments.Framework.Chain
import Assignments.Xv6.ProcTable

/-!
# The page allocator

Physical memory as its bytes, and the allocator of `kalloc.c` over it. Free pages are linked
through their own first words, so a page that is on the free list and in use at once would be seen
here as what it is: a pointer that something else overwrites.

A kernel pointer to physical memory is given by the physical address it stands for (`P2V` and
`V2P` are applied where a pointer is stored in memory), and a page by its first address. The lock
is left out: each call runs in one critical section.

`kalloc` fails when the list is empty, and also when `denied` says so: in a run in which other
processes use the allocator at the same time, any call may be the one that finds no page.

* `FreeList k l` — the free list leads through the pages `l`;
* `FreeList.freerange` — the pages that the allocator is given at boot;
* `Pool L k l held` — no page is on the list and in the hands of others twice;
* `Pool.kalloc`, `Pool.kfree` — what the two calls move.
-/

namespace Xv6.Vm

open Framework
open Xv6.Ptable (PGSIZE KERNBASE)

abbrev EXTMEM : ℕ := 0x100000

abbrev PHYSTOP : ℕ := 0xE000000

abbrev DEVSPACE : ℕ := 0xFE000000

/-- Why the kernel stops. -/
inductive Halt where
  | panic (message : String)
  /-- A page fault in the kernel. -/
  | fault
  /-- A loop that does not end. -/
  | loop
deriving DecidableEq, Repr

/-- Where the linker has put the kernel: the physical addresses of the symbols `data`, at a page
boundary, and `end`. The kernel is linked at `EXTMEM` and fits in the 4 MB that are mapped when it
starts. -/
structure Link where
  data : ℕ
  kernelEnd : ℕ
  aligned : data % PGSIZE = 0
  text : EXTMEM < data
  data_le : data ≤ kernelEnd
  fits : kernelEnd ≤ 0x400000

/-- A page that the allocator may be given. -/
structure Link.Page (L : Link) (pa : ℕ) : Prop where
  aligned : pa % PGSIZE = 0
  above : L.kernelEnd ≤ pa
  below : pa < PHYSTOP

def V2P (a : ℕ) : ℕ := (a + (2 ^ 32 - KERNBASE)) % 2 ^ 32

def P2V (a : ℕ) : ℕ := (a + KERNBASE) % 2 ^ 32

/-- The value of a pointer in memory. -/
def pointer : Option ℕ → ℕ
  | none => 0
  | some pa => P2V pa

/-- `r->next`. -/
def next (ram : Memory) (r : ℕ) : Option ℕ :=
  let v := getLE ram r 4
  if v = 0 then none else some (V2P v)

/-- Physical memory and the allocator. -/
structure Kmem where
  ram : Memory
  freelist : Option ℕ
  /-- The calls of `kalloc` that find no page. -/
  denied : ℕ → Bool
  /-- How often `kalloc` has been called. -/
  calls : ℕ

namespace Kmem

def kalloc (k : Kmem) : Option ℕ × Kmem :=
  let called := { k with calls := k.calls + 1 }
  if k.denied k.calls then (none, called)
  else
    match k.freelist with
    | none => (none, called)
    | some r => (some r, { called with freelist := next k.ram r })

def kfree (L : Link) (k : Kmem) (v : ℕ) : Except Halt Kmem :=
  if v % PGSIZE ≠ 0 ∨ v < L.kernelEnd ∨ v ≥ PHYSTOP then .error (.panic "kfree")
  else
    let ram := fill k.ram v PGSIZE 1
    .ok { k with ram := putLE ram v 4 (pointer k.freelist), freelist := some v }

/-- The pages are given to the allocator from the lowest one up. -/
def freerange (L : Link) (k : Kmem) (vstart vend : ℕ) : Except Halt Kmem :=
  let p := (vstart + PGSIZE - 1) / PGSIZE * PGSIZE
  (List.range ((vend - p) / PGSIZE)).foldlM (fun k i => k.kfree L (p + PGSIZE * i)) k

end Kmem

/-- The free list leads through the pages `l`, in this order, and ends there. -/
def FreeList (k : Kmem) (l : List ℕ) : Prop := Chain (next k.ram) k.freelist l

variable {L : Link} {k k' : Kmem} {l : List ℕ} {pa v : ℕ}

theorem pgsize_eq : PGSIZE = 4096 := rfl

theorem kernbase_eq : KERNBASE = 2147483648 := rfl

theorem phystop_eq : PHYSTOP = 234881024 := rfl

theorem Link.Page.pos (h : L.Page pa) : 0 < pa := by
  have hend := h.above
  have htext := L.text
  have hdata := L.data_le
  omega

theorem Link.Page.blockOf_add {i : ℕ} (h : L.Page pa) (hi : i < PGSIZE) :
    blockOf PGSIZE (pa + i) = pa := Framework.blockOf_add h.aligned hi

/-- The pointer to a page is read back as it was stored. -/
theorem pointer_decode {o : Option ℕ} (h : ∀ pa, o = some pa → L.Page pa) :
    (if pointer o = 0 then none else some (V2P (pointer o))) = o := by
  cases o with
  | none => rfl
  | some pa =>
    have hbelow := (h pa rfl).below
    rw [phystop_eq] at hbelow
    have hptr : pointer (some pa) = pa + 2147483648 :=
      Nat.mod_eq_of_lt (by rw [kernbase_eq]; omega)
    have hback : V2P (pa + 2147483648) = pa := by
      rw [V2P, kernbase_eq]
      omega
    rw [hptr, if_neg (by omega), hback]

theorem pointer_lt (o : Option ℕ) : pointer o < 2 ^ 32 := by
  cases o with
  | none => decide
  | some pa => exact Nat.mod_lt _ (by decide)

/-! ### The free list -/

theorem next_congr {ram ram' : Memory} {ps : Multiset ℕ} (h : AgreeOff PGSIZE ps ram ram')
    (haligned : pa % PGSIZE = 0) (hnot : pa ∉ ps) : next ram' pa = next ram pa := by
  have hword : getLE ram' (pa + 0) 4 = getLE ram (pa + 0) 4 :=
    h.getLE haligned hnot (by decide)
  rw [Nat.add_zero] at hword
  unfold next
  rw [hword]

/-- The list does not change with memory outside its pages. -/
theorem FreeList.congr {ps : Multiset ℕ} (h : FreeList k l)
    (hpage : ∀ pa ∈ l, L.Page pa) (hram : AgreeOff PGSIZE ps k.ram k'.ram)
    (hnot : ∀ pa ∈ l, pa ∉ ps) (hfree : k'.freelist = k.freelist) : FreeList k' l := by
  have hchain : Chain (next k'.ram) k.freelist l := by
    apply Chain.congr h
    intro pa hpa
    exact next_congr hram (hpage pa hpa).aligned (hnot pa hpa)
  unfold FreeList
  rwa [hfree]

/-- A call that is not denied takes a page if there is one. -/
theorem FreeList.kalloc_cons (h : FreeList k (pa :: l)) (hdenied : k.denied k.calls = false) :
    k.kalloc = (some pa, { k with calls := k.calls + 1, freelist := next k.ram pa }) := by
  unfold Kmem.kalloc
  dsimp only
  rw [hdenied, h.1]
  rfl

/-- **A page is given back.** It is the first of the list, and no other page changes. -/
theorem FreeList.kfree (h : FreeList k l) (hpage : ∀ pa ∈ l, L.Page pa) (hv : L.Page v)
    (hnot : v ∉ l) :
    ∃ ram, k.kfree L v = .ok { k with ram := ram, freelist := some v } ∧
      FreeList { k with ram := ram, freelist := some v } (v :: l) ∧
      AgreeOff PGSIZE {v} k.ram ram := by
  have hin : ¬(v % PGSIZE ≠ 0 ∨ v < L.kernelEnd ∨ v ≥ PHYSTOP) := by
    have haligned := hv.aligned
    have habove := hv.above
    have hbelow := hv.below
    omega
  refine ⟨_, if_neg hin, ?_, ?_⟩
  · refine ⟨rfl, ?_⟩
    have hfirst : ∀ pa, k.freelist = some pa → L.Page pa := by
      intro pa hpa
      refine hpage pa ?_
      rw [← Chain.head? h] at hpa
      exact List.mem_of_mem_head? hpa
    have hnext : next (putLE (fill k.ram v PGSIZE 1) v 4 (pointer k.freelist)) v = k.freelist := by
      have hword : getLE (putLE (fill k.ram v PGSIZE 1) v 4 (pointer k.freelist)) v 4
          = pointer k.freelist :=
        getLE_putLE.trans (Nat.mod_eq_of_lt (pointer_lt _))
      unfold next
      rw [hword]
      exact pointer_decode hfirst
    have hagree : AgreeOff PGSIZE {v} k.ram
        (putLE (fill k.ram v PGSIZE 1) v 4 (pointer k.freelist)) :=
      (agreeOff_fill hv.aligned).trans (agreeOff_putLE (i := 0) hv.aligned (by decide))
    have hchain : FreeList
        { k with ram := putLE (fill k.ram v PGSIZE 1) v 4 (pointer k.freelist) } l := by
      refine h.congr hpage hagree ?_ rfl
      intro pa hpa hmem
      exact hnot (Multiset.mem_singleton.mp hmem ▸ hpa)
    rw [hnext]
    exact hchain
  · exact (agreeOff_fill hv.aligned).trans (agreeOff_putLE (i := 0) hv.aligned (by decide))

/-- **The pages of a range are given to the allocator,** the highest ends up first. -/
theorem FreeList.freerange {vstart vend p n : ℕ} (h : FreeList k l)
    (hpage : ∀ pa ∈ l, L.Page pa) (hp : p = (vstart + PGSIZE - 1) / PGSIZE * PGSIZE)
    (hn : n = (vend - p) / PGSIZE) (hfresh : ∀ i < n, L.Page (p + PGSIZE * i))
    (hnot : ∀ i < n, p + PGSIZE * i ∉ l) :
    ∃ ram fl, k.freerange L vstart vend = .ok { k with ram := ram, freelist := fl } ∧
      FreeList { k with ram := ram, freelist := fl }
        (((List.range n).map fun i => p + PGSIZE * i).reverse ++ l) ∧
      AgreeOff PGSIZE ((List.range n).map fun i => p + PGSIZE * i : List ℕ) k.ram ram := by
  unfold Kmem.freerange
  dsimp only
  rw [← hp, ← hn]
  clear hn
  induction n with
  | zero => exact ⟨k.ram, k.freelist, rfl, h, .refl _⟩
  | succ n ih =>
    obtain ⟨ram, fl, hrun, hlist, hagree⟩ := ih (fun i hi => hfresh i (Nat.lt_succ_of_lt hi))
      fun i hi => hnot i (Nat.lt_succ_of_lt hi)
    have hpages : ∀ pa ∈ ((List.range n).map fun i => p + PGSIZE * i).reverse ++ l, L.Page pa := by
      intro pa hpa
      rw [List.mem_append, List.mem_reverse, List.mem_map] at hpa
      rcases hpa with ⟨i, hi, rfl⟩ | hpa
      · exact hfresh i (Nat.lt_succ_of_lt (List.mem_range.mp hi))
      · exact hpage pa hpa
    have hlast : p + PGSIZE * n ∉ ((List.range n).map fun i => p + PGSIZE * i).reverse ++ l := by
      intro hmem
      rw [List.mem_append, List.mem_reverse, List.mem_map] at hmem
      rcases hmem with ⟨i, hi, heq⟩ | hmem
      · have hlt := List.mem_range.mp hi
        rw [pgsize_eq] at heq
        omega
      · exact hnot n (Nat.lt_succ_self n) hmem
    obtain ⟨ram', hfree, hlist', hagree'⟩ :=
      hlist.kfree hpages (hfresh n (Nat.lt_succ_self n)) hlast
    refine ⟨ram', some (p + PGSIZE * n), ?_, ?_, ?_⟩
    · rw [List.range_succ, List.foldlM_append, hrun]
      simp only [List.foldlM_cons, List.foldlM_nil]
      change Except.bind _ _ = _
      dsimp only [Except.bind]
      rw [hfree]
      rfl
    · rw [List.range_succ, List.map_append, List.reverse_append]
      exact hlist'
    · rw [List.range_succ, List.map_append]
      refine (hagree.mono ?_).trans (hagree'.mono ?_)
      · intro q hq
        exact List.mem_append_left _ hq
      · intro q hq
        rw [Multiset.mem_singleton] at hq
        exact List.mem_append_right _ (List.mem_singleton.mpr hq)

/-! ### Who has which page -/

/-- The free list is `l`, and no page is on it and in the hands of others (`held`) twice. -/
structure Pool (L : Link) (k : Kmem) (l : List ℕ) (held : Multiset ℕ) : Prop where
  free : FreeList k l
  nodup : ((l : Multiset ℕ) + held).Nodup
  page : ∀ pa ∈ (l : Multiset ℕ) + held, L.Page pa

namespace Pool

variable {held held' : Multiset ℕ} (h : Pool L k l held)

include h

theorem page_free (hpa : pa ∈ l) : L.Page pa := h.page pa (Multiset.mem_add.mpr (.inl hpa))

theorem page_held (hpa : pa ∈ held) : L.Page pa := h.page pa (Multiset.mem_add.mpr (.inr hpa))

theorem disjoint : Disjoint (l : Multiset ℕ) held := (Multiset.nodup_add.mp h.nodup).2.2

theorem notMem_held_of_free (hpa : pa ∈ l) : pa ∉ held :=
  Multiset.disjoint_left.mp h.disjoint hpa

/-- The same pages, with another list of the free ones. -/
theorem of_total {l' : List ℕ} (hfree : FreeList k' l')
    (htotal : (l' : Multiset ℕ) + held' = (l : Multiset ℕ) + held) : Pool L k' l' held' :=
  ⟨hfree, htotal ▸ h.nodup, htotal ▸ h.page⟩

/-- Memory may change in pages that are not free. -/
theorem congr {ps : Multiset ℕ} (hram : AgreeOff PGSIZE ps k.ram k'.ram)
    (hfree : k'.freelist = k.freelist) (hps : ps ⊆ held) : Pool L k' l held := by
  refine ⟨h.free.congr (fun pa hpa => h.page_free hpa) hram ?_ hfree, h.nodup, h.page⟩
  intro pa hpa hmem
  exact h.notMem_held_of_free hpa (hps hmem)

/-- **A page is taken,** or there is none to be had. -/
theorem kalloc :
    (k.kalloc = (none, { k with calls := k.calls + 1 }) ∧
      Pool L { k with calls := k.calls + 1 } l held ∧ (l = [] ∨ k.denied k.calls = true)) ∨
    ∃ pa l' k', k.kalloc = (some pa, k') ∧ l = pa :: l' ∧ k'.ram = k.ram ∧
      k'.denied = k.denied ∧ Pool L k' l' ({pa} + held) := by
  cases hl : l with
  | nil =>
    subst hl
    have hnone : k.freelist = none := h.free
    have hrun : k.kalloc = (none, { k with calls := k.calls + 1 }) := by
      unfold Kmem.kalloc
      rw [hnone]
      exact ite_self _
    exact .inl ⟨hrun, ⟨h.free, h.nodup, h.page⟩, .inl rfl⟩
  | cons pa l' =>
    subst hl
    cases hdenied : k.denied k.calls with
    | true =>
      have hrun : k.kalloc = (none, { k with calls := k.calls + 1 }) := by
        unfold Kmem.kalloc
        rw [if_pos hdenied]
      exact .inl ⟨hrun, ⟨h.free, h.nodup, h.page⟩, .inr rfl⟩
    | false =>
      refine .inr ⟨pa, l', _, h.free.kalloc_cons hdenied, rfl, rfl, rfl, ?_⟩
      refine h.of_total h.free.2 ?_
      rw [← Multiset.cons_coe, ← Multiset.singleton_add]
      abel

/-- **A page is given back** by who holds it. -/
theorem kfree {rest : Multiset ℕ} (hheld : held = {pa} + rest) :
    ∃ ram, k.kfree L pa = .ok { k with ram := ram, freelist := some pa } ∧
      Pool L { k with ram := ram, freelist := some pa } (pa :: l) rest ∧
      AgreeOff PGSIZE {pa} k.ram ram := by
  have hmem : pa ∈ held := by
    rw [hheld]
    exact Multiset.mem_add.mpr (.inl (Multiset.mem_singleton_self pa))
  have hnot : pa ∉ l := fun hpa => h.notMem_held_of_free hpa hmem
  obtain ⟨ram, hrun, hfree, hagree⟩ :=
    h.free.kfree (fun pa hpa => h.page_free hpa) (h.page_held hmem) hnot
  refine ⟨ram, hrun, h.of_total hfree ?_, hagree⟩
  rw [hheld, ← Multiset.cons_coe, ← Multiset.singleton_add]
  abel

end Pool

end Xv6.Vm
