import Assignments.Xv6.Growproc
import Assignments.Xv6.KernelMap

/-!
# Copying an address space

`copyuvm` of `vm.c`, which `fork` uses for the memory of the child. A new directory is set up and
the pages of the parent are copied to fresh pages one by one, with the flags of their entries. When
a page or a page table is not to be had, the new directory is freed with all it has got so far.

* `Owned.copyPages` — the loop: what has been copied, what is given back, and where it panics;
* `Owned.copyuvm` — a call, for a parent of any size and with any pages;
* `Isolated`, `Beside.isolated` — writes through two directories that share no page;
* `copyuvm_exact` — for a parent that maps exactly its pages, the copy is exact and isolated.
-/

namespace Xv6.Vm

open Framework Function
open Multiset hiding bind
open Xv6.Ptable (PGSIZE KERNBASE)

namespace Kmem

def memmove (k : Kmem) (dst src n : ℕ) : Kmem :=
  { k with ram := splice k.ram dst (slice k.ram src n) }

/-- One round of the loop of `copyuvm` for the page `pa`; `false` where it goes to `bad`. -/
def copyPage (L : Link) (d i pa flags : ℕ) (k : Kmem) : Except Halt (Bool × Kmem) :=
  match k.kalloc with
  | (none, k) => .ok (false, k)
  | (some mem, k) => do
    let k := k.memmove mem pa PGSIZE
    let (r, k) ← k.mappages d i PGSIZE mem flags
    if r < 0 then
      let k ← k.kfree L mem
      return (false, k)
    return (true, k)

/-- The loop of `copyuvm`, which ends after as many rounds as there are pages. -/
def copyPages (L : Link) (pgdir d sz : ℕ) : ℕ → ℕ → Kmem → Except Halt (Option ℕ × Kmem)
  | 0, _, _ => .error .loop
  | fuel + 1, i, k =>
    if i < sz then
      match (k.walkpgdir pgdir i false).1 with
      | none => .error (.panic "copyuvm: pte should exist")
      | some pte =>
        if load k.ram pte &&& PTE_P = 0 then .error (.panic "copyuvm: page not present")
        else do
          let pa := PTE_ADDR (load k.ram pte)
          let flags := PTE_FLAGS (load k.ram pte)
          let (copied, k) ← copyPage L d i pa flags k
          if copied = false then
            let k ← k.freevm L (some d)
            return (none, k)
          copyPages L pgdir d sz fuel ((i + PGSIZE) % 2 ^ 32) k
    else
      .ok (some d, k)

/-- The directory of the copy, or `none` for a null pointer. -/
def copyuvm (L : Link) (k : Kmem) (pgdir sz : ℕ) : Except Halt (Option ℕ × Kmem) := do
  let (d, k) ← k.setupkvm L
  match d with
  | none => return (none, k)
  | some d => copyPages L pgdir d sz (2 ^ 20 + 1) 0 k

end Kmem

section CopyUvm

variable {L : Link} {k k' k₁ : Kmem} {S D D' : Space} {l l' l₁ : List ℕ} {held : Multiset ℕ}
  {a sz v n : ℕ}

/-- The pages of `S` from `a` up to `sz` are copied to `D'`, the other entries are those of `D`. -/
structure PagesCopied (S D : Space) (a sz : ℕ) (ram ram' : Memory) (D' : Space) : Prop where
  other : ∀ v, ¬(a ≤ PGSIZE * v ∧ PGSIZE * v < sz) → D'.entry v = D.entry v
  copy : ∀ v, a ≤ PGSIZE * v → PGSIZE * v < sz →
    ∃ e mem, S.entry v = some e ∧ D'.entry v = some (mem ||| PTE_FLAGS e ||| PTE_P) ∧
      mem % PGSIZE = 0 ∧ ∀ i < PGSIZE, ram' (mem + i) = ram (PTE_ADDR e + i)

/-- A panic in the loop: a page below the size is missing. -/
def Hole (S : Space) (a sz : ℕ) : Prop := ∃ v, a ≤ PGSIZE * v ∧ PGSIZE * v < sz ∧ S.entry v = none

/-- A page that has been taken is written to. -/
theorem Owned.memmove {mem : ℕ} (src : ℕ) (h : Owned L k D l ({mem} + held)) :
    Owned L (k.memmove mem src PGSIZE) D l ({mem} + held) ∧
      AgreeOff PGSIZE {mem} k.ram (k.memmove mem src PGSIZE).ram ∧
      ∀ i < PGSIZE, (k.memmove mem src PGSIZE).ram (mem + i) = k.ram (src + i) := by
  have hmem : mem ∈ {mem} + held := mem_add.mpr (.inl (mem_singleton_self mem))
  have hwrite : AgreeOff PGSIZE {mem} k.ram (k.memmove mem src PGSIZE).ram :=
    agreeOff_splice (i := 0) (h.page_held hmem).aligned (by rw [length_slice, Nat.zero_add])
  refine ⟨h.congr hwrite rfl ?_, hwrite, ?_⟩
  · intro q hq
    exact mem_add.mpr (.inr (mem_singleton.mp hq ▸ hmem))
  · intro i hi
    have hlt : i < (slice k.ram src PGSIZE).length := by rwa [length_slice]
    change splice k.ram mem (slice k.ram src PGSIZE) (mem + i) = _
    rw [splice_of_mem hlt, List.getD_eq_getElem?_getD, List.getElem?_eq_getElem hlt,
      Option.getD_some, getElem_slice]

/-- **One page is copied** to a fresh page of the child, or there is none to be had and nothing has
changed but for page tables. -/
theorem Owned.copyPage (pa flags : ℕ) (h : Owned L k D l held) (ha : a % PGSIZE = 0)
    (hbase : a < KERNBASE) (hflags : flags < PGSIZE) (hnone : D.entry (a / PGSIZE) = none) :
    ∃ ok k' D' l', Kmem.copyPage L D.pgdir a pa flags k = .ok (ok, k') ∧ Owned L k' D' l' held ∧
      D'.pgdir = D.pgdir ∧ (l' : Multiset ℕ) + D'.pages = (l : Multiset ℕ) + D.pages ∧
      AgreeOn PGSIZE held k.ram k'.ram ∧ k'.denied = k.denied ∧
      (ok = true → AgreeOn PGSIZE D.user k.ram k'.ram ∧
        ∃ mem, mem % PGSIZE = 0 ∧ mem ∈ D'.user ∧
          D'.entry = update D.entry (a / PGSIZE) (some (mem ||| flags ||| PTE_P)) ∧
          ∀ i < PGSIZE, k'.ram (mem + i) = k.ram (pa + i)) := by
  have hva : a < 2 ^ 32 := hbase.trans (by decide)
  have hvu : a / PGSIZE < NUSER := Nat.div_lt_of_lt_mul hbase
  unfold Kmem.copyPage
  rcases h.kalloc with ⟨hrun, hown, hgrows, -⟩ | ⟨mem, l₁, k₁, hrun, hl, hram, hown, hgrows⟩
  · rw [hrun]
    exact ⟨false, _, D, l, rfl, hown, rfl, rfl, hgrows.agreeOn h, hgrows.denied, nofun⟩
  · obtain ⟨hown₂, hwrite, hbytes⟩ := hown.memmove pa
    have hmem : mem ∈ {mem} + held := mem_add.mpr (.inl (mem_singleton_self mem))
    have hpage : L.Page mem := hown.page_held hmem
    -- the page was free, so writing to it is not seen by anybody
    have hfree : mem ∈ l := hl ▸ List.mem_cons_self
    have hunseen : ∀ ps, mem ∉ ps →
        AgreeOn PGSIZE ps k.ram (k₁.memmove mem pa PGSIZE).ram := by
      intro ps hnot
      rw [← hram]
      refine hwrite.agreeOn ?_
      rw [disjoint_left]
      intro q hq
      rwa [mem_singleton.mp hq]
    have hagree := hunseen held (h.notMem_held_of_free hfree)
    have hagree' := hunseen D.user fun huser =>
      h.notMem_pages_of_free hfree (mem_add.mpr (.inr huser))
    obtain ⟨ok, k₃, D₃, l₃, hmap, hcases⟩ := hown₂.mapPage flags held hva hpage.aligned
      (hpage.below.trans (by decide)) hflags hnone (by rw [if_pos hvu])
    have hpages := (k₁.memmove mem pa PGSIZE).mappages_page D.pgdir mem flags ha hva
    rw [hmap] at hpages
    have htotal : (l : Multiset ℕ) = {mem} + (l₁ : Multiset ℕ) := by
      rw [hl, ← cons_coe, ← singleton_add]
    rw [hrun]
    rcases hcases with ⟨rfl, hown₃, hgrows₃, -, -⟩ | ⟨rfl, hown₃, hgrows₃, hentry, -⟩
    · -- there is no page table, and the page is given back
      obtain ⟨ram, hkfree, hown₄, hagree₄⟩ := hown₃.kfree rfl
      refine ⟨false, _, D₃, mem :: l₃, ?_, hown₄, hgrows₃.pgdir, ?_, ?_, ?_, nofun⟩
      · simp only [hpages, hkfree, Except.map, bind, Except.bind, pure, Except.pure,
          Bool.false_eq_true, if_false]
        rfl
      · have hsame := add_right_cancel hgrows₃.total
        rw [← cons_coe, ← singleton_add, add_assoc, hsame, htotal, add_assoc]
      · refine hagree.trans (.trans ?_ (hagree₄.agreeOn ?_))
        · exact (hgrows₃.agreeOn hown₂).mono (subset_of_le (le_add_left _ _))
        · rw [disjoint_left]
          intro q hq hq'
          exact h.notMem_held_of_free hfree (mem_singleton.mp hq ▸ hq')
      · exact hgrows₃.denied.trans hgrows.denied
    · refine ⟨true, k₃, D₃, l₃, ?_, hown₃, hgrows₃.pgdir, ?_, ?_, ?_, fun _ => ⟨?_, mem,
        hpage.aligned, ?_, hentry, ?_⟩⟩
      · simp only [hpages, Except.map, bind, Except.bind, pure, Except.pure, if_true,
          Int.lt_irrefl, if_false]
      · apply add_right_cancel (b := held)
        rw [hgrows₃.total, htotal]
        abel
      · exact hagree.trans
          ((hgrows₃.agreeOn hown₂).mono (subset_of_le (le_add_left _ _)))
      · exact hgrows₃.denied.trans hgrows.denied
      · exact hagree'.trans fun x hx => hgrows₃.user hown₂ hx rfl
      · refine Space.mem_user.mpr ⟨a / PGSIZE, hvu, ?_⟩
        rw [Space.page, hentry, update_self, Option.map_some, Nat.or_assoc,
          addr_lor hpage.aligned (lor_lt_pgsize hflags (by decide))]
      · intro i hi
        have hblock : blockOf PGSIZE (mem + i) = mem := hpage.blockOf_add hi
        rw [hgrows₃.others hown₂ hmem hblock, hbytes i hi, hram]

/-- The parent stays in memory while the child is worked on. -/
theorem Owned.other_space (h : Owned L k D l (S.pages + held)) (hS : S.At k.ram)
    (hagree : AgreeOn PGSIZE (S.pages + held) k.ram k'.ram) : S.At k'.ram := by
  refine hS.of_agreeOn hagree fun pa hpa => ?_
  have hmem : pa ∈ S.pages + held :=
    mem_add.mpr (.inl (mem_add.mpr (.inl hpa)))
  exact ⟨(h.page_held hmem).aligned, hmem⟩

/-- One page is copied, and then the others. -/
theorem PagesCopied.cons {ram ram₁ ram' : Memory} {D₁ : Space} {e mem : ℕ}
    (h : PagesCopied S D₁ (a + PGSIZE) sz ram₁ ram' D') (hv : a = PGSIZE * v) (hlt : a < sz)
    (he : S.entry v = some e)
    (hentry : D₁.entry = update D.entry v (some (mem ||| PTE_FLAGS e ||| PTE_P)))
    (hmem : mem % PGSIZE = 0) (hbytes : ∀ i < PGSIZE, ram' (mem + i) = ram (PTE_ADDR e + i))
    (hparent : ∀ w e', a + PGSIZE ≤ PGSIZE * w → PGSIZE * w < sz → S.entry w = some e' →
      ∀ i < PGSIZE, ram₁ (PTE_ADDR e' + i) = ram (PTE_ADDR e' + i)) :
    PagesCopied S D a sz ram ram' D' where
  other w hw := by
    by_cases hwv : w = v
    · exact absurd ⟨le_of_eq (hwv ▸ hv), hwv ▸ hv ▸ hlt⟩ hw
    · rw [h.other w (fun hin => hw ⟨Nat.le_of_add_right_le hin.1, hin.2⟩), hentry,
        update_of_ne hwv]
  copy w hw hw' := by
    by_cases hwv : w = v
    · subst hwv
      refine ⟨e, mem, he, ?_, hmem, hbytes⟩
      rw [h.other w, hentry, update_self]
      rw [hv, pgsize_eq]
      omega
    · have hnext : a + PGSIZE ≤ PGSIZE * w := by
        rw [hv, pgsize_eq] at hw ⊢
        omega
      obtain ⟨e', mem', he', hentry', hmem', hcopy⟩ := h.copy w hnext hw'
      refine ⟨e', mem', he', hentry', hmem', fun i hi => ?_⟩
      rw [hcopy i hi, hparent w e' hnext hw' he' i hi]

/-- **The loop of `copyuvm`** from the address `a` on: it panics at a page that the parent lacks,
gives everything back when there is no page to be had, or copies all pages. -/
theorem Owned.copyPages (h : Owned L k D l (S.pages + held)) (hS : S.At k.ram)
    (ha : a % PGSIZE = 0) (hsz : sz ≤ KERNBASE) (hn : sz ≤ a + PGSIZE * n)
    (hnone : ∀ v, a ≤ PGSIZE * v → PGSIZE * v < sz → D.entry v = none) :
    (∃ message, Kmem.copyPages L S.pgdir D.pgdir sz (n + 1) a k = .error (.panic message) ∧
      Hole S a sz) ∨
    ∃ r k' l', Kmem.copyPages L S.pgdir D.pgdir sz (n + 1) a k = .ok (r, k') ∧
      AgreeOn PGSIZE (S.pages + held) k.ram k'.ram ∧ k'.denied = k.denied ∧
      ((r = none ∧ Pool L k' l' (S.pages + held) ∧
          (l' : Multiset ℕ) = (l : Multiset ℕ) + D.pages) ∨
        ∃ D', r = some D.pgdir ∧ D'.pgdir = D.pgdir ∧ Owned L k' D' l' (S.pages + held) ∧
          (l' : Multiset ℕ) + D'.pages = (l : Multiset ℕ) + D.pages ∧
          AgreeOn PGSIZE D.user k.ram k'.ram ∧ PagesCopied S D a sz k.ram k'.ram D') := by
  induction n generalizing a k D l with
  | zero =>
    have hdone : ¬ a < sz := Nat.not_lt.mpr hn
    refine .inr ⟨_, k, l, if_neg hdone, .refl _, rfl, .inr ⟨D, rfl, rfl, h, rfl, .refl _, ?_, ?_⟩⟩
    · exact fun _ _ => rfl
    · exact fun v hv hv' => absurd (Nat.lt_of_le_of_lt hv hv') hdone
  | succ n ih =>
    by_cases hlt : a < sz
    swap
    · refine .inr ⟨_, k, l, ?_, .refl _, rfl, .inr ⟨D, rfl, rfl, h, rfl, .refl _, ?_, ?_⟩⟩
      · rw [Kmem.copyPages, if_neg hlt]
      · exact fun _ _ => rfl
      · exact fun v hv hv' => absurd (Nat.lt_of_le_of_lt hv hv') hlt
    have hbase : a < KERNBASE := Nat.lt_of_lt_of_le hlt hsz
    have hva : a < 2 ^ 32 := hbase.trans (by decide)
    have hav : PGSIZE * (a / PGSIZE) = a := Nat.mul_div_cancel' (Nat.dvd_of_mod_eq_zero ha)
    rw [Kmem.copyPages, if_pos hlt, hS.walkpgdir]
    cases ht : S.table (PDX a) with
    | none =>
      exact .inl ⟨_, rfl, a / PGSIZE, le_of_eq hav.symm, hav.symm ▸ hlt,
        hS.entry_of_table_none hva ht⟩
    | some t =>
    have hload := hS.load_entry hva ht
    dsimp only [Option.map_some]
    by_cases hp : load k.ram (t + 4 * PTX a) &&& PTE_P = 0
    · rw [if_pos hp]
      rw [present_eq_none.mpr hp] at hload
      exact .inl ⟨_, rfl, a / PGSIZE, le_of_eq hav.symm, hav.symm ▸ hlt, hload.symm⟩
    rw [if_neg hp]
    rw [present_of_and hp] at hload
    generalize load k.ram (t + 4 * PTX a) = e at hload
    have he : S.entry (a / PGSIZE) = some e := hload.symm
    obtain ⟨ok, k₁, D₁, l₁, hrun, hown, hpgdir, htotal, hagree, hdenied, hcopied⟩ :=
      h.copyPage (PTE_ADDR e) (PTE_FLAGS e) ha hbase (Nat.mod_lt _ (by decide))
        (hnone _ (le_of_eq hav.symm) (hav.symm ▸ hlt))
    cases ok with
    | false =>
      obtain ⟨k₂, l₂, hfree, hpool, hl₂, hagree₂, hdenied₂⟩ := hown.freevm
      rw [hpgdir] at hfree
      refine .inr ⟨none, k₂, l₂, ?_, hagree.trans hagree₂, hdenied₂.trans hdenied,
        .inl ⟨rfl, hpool, hl₂.trans htotal⟩⟩
      simp only [hrun, hfree, bind, Except.bind, pure, Except.pure, if_true]
    | true =>
    obtain ⟨hkeep, mem, hmem, huser, hentry, hbytes⟩ := hcopied rfl
    have hnext : (a + PGSIZE) % 2 ^ 32 = a + PGSIZE := by
      rw [kernbase_eq] at hbase
      rw [pgsize_eq]
      omega
    have hnone₁ : ∀ v, a + PGSIZE ≤ PGSIZE * v → PGSIZE * v < sz → D₁.entry v = none := by
      intro v hv hv'
      rw [hentry, update_of_ne]
      · exact hnone v (Nat.le_of_add_right_le hv) hv'
      · rintro rfl
        rw [hav, pgsize_eq] at hv
        omega
    have hloop := ih hown (h.other_space hS hagree) (by rw [Nat.add_mod_right, ha])
      (by rw [Nat.mul_succ] at hn; omega) hnone₁
    rw [hpgdir] at hloop
    simp only [hrun, bind, Except.bind, Bool.true_eq_false, if_false, hnext]
    rcases hloop with ⟨message, hpanic, v, hv, hv', hhole⟩ |
      ⟨r, k', l', hrest, hagree', hdenied', hcases⟩
    · exact .inl ⟨message, hpanic, v, Nat.le_of_add_right_le hv, hv', hhole⟩
    · refine .inr ⟨r, k', l', hrest, hagree.trans hagree', hdenied'.trans hdenied, ?_⟩
      rcases hcases with ⟨rfl, hpool, hl'⟩ | ⟨D', rfl, hpgdir', hown', hl', hkeep', hcopy⟩
      · exact .inl ⟨rfl, hpool, hl'.trans htotal⟩
      · have hsub : AgreeOn PGSIZE D.user k₁.ram k'.ram := by
          refine hkeep'.mono (subset_of_le (heldIn_le fun v hv => ?_))
          by_cases hvv : v = a / PGSIZE
          · left
            rw [Space.page, hvv, hnone _ (le_of_eq hav.symm) (hav.symm ▸ hlt), Option.map_none]
          · right
            rw [Space.page, Space.page, hentry, update_of_ne hvv]
        refine .inr ⟨D', rfl, hpgdir', hown', hl'.trans htotal, hkeep.trans hsub,
          hcopy.cons hav.symm hlt he hentry hmem ?_ ?_⟩
        · intro i hi
          have hblock : blockOf PGSIZE (mem + i) ∈ D₁.user := by
            rwa [blockOf_add hmem hi]
          rw [hkeep' _ hblock, hbytes i hi]
        · intro w e' hw hw' hwe i hi
          have hwu : w < NUSER := lt_nuser (hw'.trans_le hsz)
          refine hagree _ ?_
          rw [blockOf_add (addr_mod e') hi]
          refine mem_add.mpr (.inl (mem_add.mpr (.inr ?_)))
          exact Space.mem_user.mpr ⟨w, hwu, by rw [Space.page, hwe, Option.map_some]⟩

/-- **A call of `copyuvm`,** for a parent of any size: it panics if a page below the size is
missing, and otherwise nothing that was in use is changed, whether or not there is a copy. -/
theorem Owned.copyuvm (h : Owned L k S l held) (hsz : sz ≤ KERNBASE) :
    (∃ message, k.copyuvm L S.pgdir sz = .error (.panic message) ∧ Hole S 0 sz) ∨
    ∃ r k' l', k.copyuvm L S.pgdir sz = .ok (r, k') ∧
      AgreeOn PGSIZE (S.pages + held) k.ram k'.ram ∧ k'.denied = k.denied ∧
      ((r = none ∧ Pool L k' l' (S.pages + held) ∧ (l' : Multiset ℕ) = l) ∨
        ∃ D, r = some D.pgdir ∧ Owned L k' D l' (S.pages + held) ∧
          (l' : Multiset ℕ) + D.pages = l ∧
          PagesCopied S ⟨D.pgdir, D.table, kernelEntry L⟩ 0 sz k.ram k'.ram D) := by
  have hfuel : sz ≤ 0 + PGSIZE * 2 ^ 20 := by
    rw [kernbase_eq] at hsz
    rw [pgsize_eq]
    omega
  obtain ⟨r, k₁, l₁, hrun, hagree, hdenied, hcases⟩ := h.pool.setupkvm
  unfold Kmem.copyuvm
  rcases hcases with ⟨rfl, hpool, hl₁, -⟩ | ⟨D, rfl, hown, hl₁, hentry, -⟩
  · refine .inr ⟨none, k₁, l₁, ?_, hagree, hdenied, .inl ⟨rfl, hpool, hl₁⟩⟩
    simp only [hrun, bind, Except.bind, pure, Except.pure]
  · have hS : S.At k₁.ram := by
      refine h.space.of_agreeOn hagree fun pa hpa => ⟨(h.page_skeleton hpa).aligned, ?_⟩
      exact mem_add.mpr (.inl (mem_add.mpr (.inl hpa)))
    have hloop := hown.copyPages hS (Nat.zero_mod _) hsz hfuel (by
      intro v _ hv
      rw [hentry]
      exact kernelEntry_user (lt_nuser (hv.trans_le hsz)))
    simp only [hrun, bind, Except.bind]
    rcases hloop with ⟨message, hpanic, hhole⟩ | ⟨r, k', l', hrest, hagree', hdenied', hcases'⟩
    · exact .inl ⟨message, hpanic, hhole⟩
    · refine .inr ⟨r, k', l', hrest, hagree.trans hagree', hdenied'.trans hdenied, ?_⟩
      rcases hcases' with ⟨rfl, hpool, hl'⟩ | ⟨D', rfl, hpgdir, hown', hl', -, hcopy⟩
      · exact .inl ⟨rfl, hpool, hl'.trans hl₁⟩
      · refine .inr ⟨D', by rw [hpgdir], hown', hl'.trans hl₁, ?_, ?_⟩
        · intro v hv
          rw [hcopy.other v hv, hentry]
        · intro v hv hv'
          obtain ⟨e, mem, he, hentry', hmem, hbytes⟩ := hcopy.copy v hv hv'
          refine ⟨e, mem, he, hentry', hmem, fun i hi => ?_⟩
          rw [hbytes i hi]
          refine hagree _ ?_
          rw [blockOf_add (addr_mod e) hi]
          have hvu : v < NUSER := lt_nuser (hv'.trans_le hsz)
          exact mem_add.mpr (.inl (mem_add.mpr (.inr (mem_user_of_entry hvu he))))

/-! ### What the user sees -/

/-- The byte at the user's address `x`. -/
def Kmem.view (k : Kmem) (pgdir x : ℕ) : Option Byte :=
  (k.lookup pgdir (x / PGSIZE)).map fun e => k.ram (PTE_ADDR e + x % PGSIZE)

/-- A write to a user address through a directory. -/
structure Poke where
  pgdir : ℕ
  va : ℕ
  value : Byte

/-- What a write changes; an address that is not mapped faults. -/
def Kmem.poke (k : Kmem) (w : Poke) : Kmem :=
  match k.lookup w.pgdir (w.va / PGSIZE) with
  | none => k
  | some e => { k with ram := update k.ram (PTE_ADDR e + w.va % PGSIZE) w.value }

/-- Of any writes to user addresses through two directories, each shows only its own. -/
def Isolated (k : Kmem) (p d : ℕ) : Prop :=
  ∀ ws : List Poke, (∀ w ∈ ws, (w.pgdir = p ∨ w.pgdir = d) ∧ w.va < KERNBASE) →
    ∀ x < KERNBASE,
      (ws.foldl Kmem.poke k).view p x
          = ((ws.filter fun w => w.pgdir = p).foldl Kmem.poke k).view p x ∧
        (ws.foldl Kmem.poke k).view d x
          = ((ws.filter fun w => w.pgdir = d).foldl Kmem.poke k).view d x

/-- Two spaces in memory that have no page in common. -/
structure Beside (ram : Memory) (S D : Space) : Prop where
  left : S.At ram
  right : D.At ram
  nodup : (S.pages + D.pages).Nodup
  aligned : ∀ pa ∈ S.pages + D.pages, pa % PGSIZE = 0

namespace Beside

theorem symm {ram : Memory} (h : Beside ram S D) : Beside ram D S :=
  ⟨h.right, h.left, add_comm S.pages D.pages ▸ h.nodup, add_comm S.pages D.pages ▸ h.aligned⟩

/-- A user page of the one space is no page of the tables of either, nor any page of the other. -/
theorem notMem_of_user {ram : Memory} {pa : ℕ} (h : Beside ram S D) (hpa : pa ∈ S.user) :
    pa ∉ S.skeleton ∧ pa ∉ D.pages := by
  obtain ⟨hS, -, hdisjoint⟩ := nodup_add.mp h.nodup
  constructor
  · exact fun hmem => disjoint_left.mp (nodup_add.mp hS).2.2 hmem hpa
  · exact disjoint_left.mp hdisjoint (mem_add.mpr (.inr hpa))

/-- Bytes of user pages of the one space may change; the other sees nothing of it. -/
theorem write {ram ram' : Memory} {pa : ℕ} (h : Beside ram S D) (hpa : pa ∈ S.user)
    (hram : AgreeOff PGSIZE {pa} ram ram') : Beside ram' S D ∧ AgreeOn PGSIZE D.pages ram ram' := by
  obtain ⟨hskeleton, hother⟩ := h.notMem_of_user hpa
  have hsub : ∀ q ∈ S.skeleton, q ∈ S.pages := fun q hq => mem_add.mpr (.inl hq)
  have hsub' : ∀ q ∈ D.skeleton, q ∈ D.pages := fun q hq => mem_add.mpr (.inl hq)
  refine ⟨⟨?_, ?_, h.nodup, h.aligned⟩, hram.agreeOn ?_⟩
  · refine h.left.congr hram (fun q hq => h.aligned q (mem_add.mpr (.inl (hsub q hq)))) ?_
    intro q hq hq'
    exact hskeleton (mem_singleton.mp hq' ▸ hq)
  · refine h.right.congr hram
      (fun q hq => h.aligned q (mem_add.mpr (.inr (hsub' q hq)))) ?_
    intro q hq hq'
    exact hother (mem_singleton.mp hq' ▸ hsub' q hq)
  · rw [disjoint_left]
    intro q hq
    rwa [mem_singleton.mp hq]

/-- A write through the directory of the one space. -/
theorem poke (h : Beside k.ram S D) {w : Poke} (hw : w.pgdir = S.pgdir) (hva : w.va < KERNBASE) :
    Beside (k.poke w).ram S D ∧ AgreeOn PGSIZE D.pages k.ram (k.poke w).ram := by
  have hv : w.va / PGSIZE < NUSER := Nat.div_lt_of_lt_mul hva
  unfold Kmem.poke
  rw [hw, h.left.lookup (hv.trans (by decide))]
  cases he : S.entry (w.va / PGSIZE) with
  | none => exact ⟨h, .refl _⟩
  | some e =>
    refine h.write (mem_user_of_entry hv he) fun a ha => update_of_ne ?_ _ _
    rintro rfl
    refine ha (mem_singleton.mpr ?_)
    exact blockOf_add (addr_mod e) (Nat.mod_lt _ (by decide))

/-- The same write in two memories that agree on the user pages. -/
theorem poke_agree (h : Beside k.ram S D) (h' : Beside k'.ram S D) {w : Poke}
    (hw : w.pgdir = S.pgdir) (hva : w.va < KERNBASE) (hagree : AgreeOn PGSIZE S.user k.ram k'.ram) :
    AgreeOn PGSIZE S.user (k.poke w).ram (k'.poke w).ram := by
  have hv : w.va / PGSIZE < 2 ^ 20 := (Nat.div_lt_of_lt_mul hva : _ < NUSER).trans (by decide)
  unfold Kmem.poke
  rw [hw, h.left.lookup hv, h'.left.lookup hv]
  cases S.entry (w.va / PGSIZE) with
  | none => exact hagree
  | some e =>
    intro a ha
    dsimp only
    by_cases heq : a = PTE_ADDR e + w.va % PGSIZE
    · rw [heq, update_self, update_self]
    · rw [update_of_ne heq, update_of_ne heq]
      exact hagree a ha

theorem view_congr (h : Beside k.ram S D) (h' : Beside k'.ram S D)
    (hagree : AgreeOn PGSIZE S.user k.ram k'.ram) {x : ℕ} (hx : x < KERNBASE) :
    k'.view S.pgdir x = k.view S.pgdir x := by
  have hv : x / PGSIZE < NUSER := Nat.div_lt_of_lt_mul hx
  unfold Kmem.view
  rw [h.left.lookup (hv.trans (by decide)), h'.left.lookup (hv.trans (by decide))]
  cases he : S.entry (x / PGSIZE) with
  | none => rfl
  | some e =>
    refine congrArg some (hagree _ ?_)
    rw [blockOf_add (addr_mod e) (Nat.mod_lt _ (by decide))]
    exact mem_user_of_entry hv he

theorem pgdir_ne {ram : Memory} (h : Beside ram S D) : D.pgdir ≠ S.pgdir := by
  have hmem : ∀ T : Space, T.pgdir ∈ T.pages := fun T =>
    mem_add.mpr (.inl (Space.mem_skeleton.mpr (.inl rfl)))
  intro heq
  exact disjoint_left.mp (nodup_add.mp h.nodup).2.2 (hmem S) (heq ▸ hmem D)

/-- Writes through both directories, and those through the one alone, look the same to it. -/
theorem pokes (ws : List Poke) (h : Beside k.ram S D) (h' : Beside k'.ram S D)
    (hagree : AgreeOn PGSIZE S.user k.ram k'.ram)
    (hws : ∀ w ∈ ws, (w.pgdir = S.pgdir ∨ w.pgdir = D.pgdir) ∧ w.va < KERNBASE) {x : ℕ}
    (hx : x < KERNBASE) :
    (ws.foldl Kmem.poke k').view S.pgdir x
      = ((ws.filter fun w => w.pgdir = S.pgdir).foldl Kmem.poke k).view S.pgdir x := by
  induction ws generalizing k k' with
  | nil => exact view_congr h h' hagree hx
  | cons w ws ih =>
    obtain ⟨hdir, hva⟩ := hws w List.mem_cons_self
    have hrest : ∀ w ∈ ws, (w.pgdir = S.pgdir ∨ w.pgdir = D.pgdir) ∧ w.va < KERNBASE :=
      fun w hw => hws w (List.mem_cons_of_mem _ hw)
    rw [List.foldl_cons]
    rcases hdir with hleft | hright
    · rw [List.filter_cons, if_pos (decide_eq_true hleft), List.foldl_cons]
      exact ih (h.poke hleft hva).1 (h'.poke hleft hva).1 (h.poke_agree h' hleft hva hagree) hrest
    · have hne : ¬ w.pgdir = S.pgdir := hright ▸ h.pgdir_ne
      obtain ⟨hbeside, hkeep⟩ := h'.symm.poke hright hva
      rw [List.filter_cons, if_neg (by rwa [decide_eq_true_eq])]
      refine ih h hbeside.symm (hagree.trans (hkeep.mono ?_)) hrest
      exact subset_of_le (le_add_left _ _)

/-- **Two spaces without a page in common are isolated.** -/
theorem isolated (h : Beside k.ram S D) : Isolated k S.pgdir D.pgdir := by
  intro ws hws x hx
  refine ⟨pokes ws h h (.refl _) hws hx, pokes ws h.symm h.symm (.refl _) ?_ hx⟩
  exact fun w hw => ⟨(hws w hw).1.symm, (hws w hw).2⟩

end Beside

/-! ### The copy -/

/-- `d` maps the same pages as `pgdir` did, with the same flags and bytes, each to a page that was
free, and the two do not see each other's writes. -/
structure ExactCopy (k : Kmem) (l : List ℕ) (pgdir : ℕ) (k' : Kmem) (d : ℕ) : Prop where
  flags : ∀ v < NUSER, (k'.lookup d v).map PTE_FLAGS = (k.lookup pgdir v).map PTE_FLAGS
  bytes : ∀ x < KERNBASE, k'.view d x = k.view pgdir x
  fresh : ∀ v < NUSER, ∀ e, k'.lookup d v = some e → PTE_ADDR e ∈ l
  distinct : ∀ v < NUSER, ∀ w < NUSER, ∀ e e', k'.lookup d v = some e → k'.lookup d w = some e' →
    PTE_ADDR e = PTE_ADDR e' → v = w
  unshared : ∀ v < NUSER, ∀ w < NUSER, ∀ e e', k'.lookup d v = some e →
    k.lookup pgdir w = some e' → PTE_ADDR e ≠ PTE_ADDR e'
  isolated : Isolated k' pgdir d

/-- The entries and the bytes of a directory are as they were. -/
structure Undisturbed (k : Kmem) (pgdir : ℕ) (k' : Kmem) : Prop where
  entry : ∀ v < 2 ^ 20, k'.lookup pgdir v = k.lookup pgdir v
  bytes : ∀ x < KERNBASE, k'.view pgdir x = k.view pgdir x

/-- The flags of a present entry have the bit of presence. -/
theorem flags_lor_present {e : ℕ} (h : e &&& PTE_P ≠ 0) : PTE_FLAGS e ||| PTE_P = PTE_FLAGS e := by
  have hodd : PTE_FLAGS e % 2 = 1 := by
    rw [Nat.and_one_is_mod] at h
    rw [PTE_FLAGS, pgsize_eq]
    omega
  apply Nat.eq_of_testBit_eq
  intro i
  rw [Nat.testBit_or]
  cases i with
  | zero =>
    rw [Nat.testBit_zero, hodd]
    rfl
  | succ i =>
    have hbit : PTE_P.testBit (i + 1) = false := by
      rw [Nat.testBit_succ]
      exact Nat.zero_testBit i
    rw [hbit, Bool.or_false]

/-- An entry of the copy has the flags of the parent's and the address of its own page. -/
theorem copied_entry {e mem : ℕ} (hmem : mem % PGSIZE = 0) (he : e &&& PTE_P ≠ 0) :
    PTE_FLAGS (mem ||| PTE_FLAGS e ||| PTE_P) = PTE_FLAGS e ∧
      PTE_ADDR (mem ||| PTE_FLAGS e ||| PTE_P) = mem := by
  have hlt : PTE_FLAGS e < PGSIZE := Nat.mod_lt _ (by decide)
  rw [Nat.or_assoc, flags_lor_present he]
  exact ⟨flags_lor hmem hlt, addr_lor hmem hlt⟩

/-- **The copy is exact and isolated,** or there is none and the free pages are the same. The
directory that is copied is as it was. -/
theorem copyuvm_exact (h : Owned L k S l held) (hsz : sz ≤ KERNBASE) (hmaps : Maps k S.pgdir sz) :
    ∃ r k', k.copyuvm L S.pgdir sz = .ok (r, k') ∧ Undisturbed k S.pgdir k' ∧
      ((r = none ∧ ∃ l', FreeList k' l' ∧ l'.Perm l) ∨
        ∃ d, r = some d ∧ ExactCopy k l S.pgdir k' d) := by
  have hlookup : ∀ v < 2 ^ 20, k.lookup S.pgdir v = S.entry v := fun v hv => h.space.lookup hv
  have hmapped : ∀ v < NUSER, (S.entry v ≠ none ↔ PGSIZE * v < sz) := by
    intro v hv
    rw [← hlookup v (hv.trans (by decide)), hmaps v hv, mul_lt_pgroundup hsz]
  rcases h.copyuvm hsz with ⟨-, -, v, -, hv, hnone⟩ | ⟨r, k', l', hrun, hagree, -, hcases⟩
  · exact absurd hnone ((hmapped v (lt_nuser (hv.trans_le hsz))).mpr hv)
  have hS : S.At k'.ram := by
    refine h.space.of_agreeOn hagree fun pa hpa => ⟨(h.page_skeleton hpa).aligned, ?_⟩
    exact mem_add.mpr (.inl (mem_add.mpr (.inl hpa)))
  have hparent : ∀ v < NUSER, ∀ e, S.entry v = some e → ∀ i < PGSIZE,
      k'.ram (PTE_ADDR e + i) = k.ram (PTE_ADDR e + i) := by
    intro v hv e he i hi
    refine hagree _ ?_
    rw [blockOf_add (addr_mod e) hi]
    exact mem_add.mpr (.inl (mem_add.mpr (.inr (mem_user_of_entry hv he))))
  refine ⟨r, k', hrun, ⟨fun v hv => ?_, fun x hx => ?_⟩, ?_⟩
  · rw [hlookup v hv, hS.lookup hv]
  · have hv : x / PGSIZE < NUSER := Nat.div_lt_of_lt_mul hx
    have hv' : x / PGSIZE < 2 ^ 20 := hv.trans (by decide)
    rw [Kmem.view, Kmem.view, hlookup _ hv', hS.lookup hv']
    cases he : S.entry (x / PGSIZE) with
    | none => rfl
    | some e => exact congrArg some (hparent _ hv e he _ (Nat.mod_lt _ (by decide)))
  · rcases hcases with ⟨rfl, hpool, hl'⟩ | ⟨D, rfl, hown, hl', hcopy⟩
    · exact .inl ⟨rfl, l', hpool.free, coe_eq_coe.mp hl'⟩
    · right
      have hD : ∀ v < NUSER, k'.lookup D.pgdir v = D.entry v := fun v hv =>
        hown.space.lookup (hv.trans (by decide))
      -- outside the size neither of the two maps a page
      have hout : ∀ v < NUSER, ¬ PGSIZE * v < sz → D.entry v = none ∧ S.entry v = none := by
        intro v hv hge
        refine ⟨?_, not_not.mp fun hne => hge ((hmapped v hv).mp hne)⟩
        rw [hcopy.other v fun hin => hge hin.2]
        exact kernelEntry_user hv
      have huser : ∀ v < NUSER, ∀ e, k'.lookup D.pgdir v = some e → PTE_ADDR e ∈ D.user := by
        intro v hv e he
        rw [hD v hv] at he
        exact mem_user_of_entry hv he
      refine ⟨D.pgdir, rfl, ?_, ?_, ?_, ?_, ?_, ?_⟩
      · intro v hv
        rw [hD v hv, hlookup v (hv.trans (by decide))]
        by_cases hlt : PGSIZE * v < sz
        · obtain ⟨e, mem, he, hentry, hmem, -⟩ := hcopy.copy v (Nat.zero_le _) hlt
          have hpresent := h.space.present_entry (hv.trans (by decide)) he
          rw [hentry, he, Option.map_some, Option.map_some, (copied_entry hmem hpresent).1]
        · obtain ⟨hnone, hnone'⟩ := hout v hv hlt
          rw [hnone, hnone']
      · intro x hx
        have hv : x / PGSIZE < NUSER := Nat.div_lt_of_lt_mul hx
        rw [Kmem.view, Kmem.view, hD _ hv, hlookup _ (hv.trans (by decide))]
        by_cases hlt : PGSIZE * (x / PGSIZE) < sz
        · obtain ⟨e, mem, he, hentry, hmem, hbytes⟩ := hcopy.copy _ (Nat.zero_le _) hlt
          have hpresent := h.space.present_entry (hv.trans (by decide)) he
          rw [hentry, he, Option.map_some, Option.map_some, (copied_entry hmem hpresent).2,
            hbytes _ (Nat.mod_lt _ (by decide))]
        · obtain ⟨hnone, hnone'⟩ := hout _ hv hlt
          rw [hnone, hnone']
          rfl
      · intro v hv e he
        have hmem : PTE_ADDR e ∈ (l' : Multiset ℕ) + D.pages :=
          mem_add.mpr (.inr (mem_add.mpr (.inr (huser v hv e he))))
        rw [hl'] at hmem
        exact hmem
      · intro v hv w hw e e' he he' heq
        rw [hD v hv] at he
        rw [hD w hw] at he'
        have hpage : D.page v = some (PTE_ADDR e) := by rw [Space.page, he, Option.map_some]
        have hpage' : D.page w = some (PTE_ADDR e) := by
          rw [Space.page, he', Option.map_some, heq]
        exact hown.page_unique hv hw hpage hpage'
      · intro v hv w hw e e' he he' heq
        rw [hlookup w (hw.trans (by decide))] at he'
        refine hown.notMem_held_of_pages (mem_add.mpr (.inr (huser v hv e he))) ?_
        rw [heq]
        exact mem_add.mpr (.inl (mem_add.mpr (.inr (mem_user_of_entry hw he'))))
      · have hnodup : (S.pages + D.pages).Nodup := by
          refine nodup_of_le ?_ hown.nodup
          rw [add_comm S.pages, add_assoc]
          refine le_trans ?_ (le_add_left _ _)
          exact add_le_add_right (le_add_right _ _) _
        refine Beside.isolated ⟨hS, hown.space, hnodup, fun pa hpa => ?_⟩
        refine (hown.page pa ?_).aligned
        rcases mem_add.mp hpa with hpa | hpa
        · exact mem_add.mpr (.inr (mem_add.mpr (.inl hpa)))
        · exact mem_add.mpr (.inl (mem_add.mpr (.inr hpa)))

end CopyUvm

/-- A process of one page is copied. -/
theorem copyuvm_onePage :
    ∃ (k : Kmem) (S : Space) (l : List ℕ), Maps k S.pgdir 4096 ∧ ∃ r k',
      k.copyuvm smallKernel S.pgdir 4096 = .ok (r, k') ∧
      Undisturbed k S.pgdir k' ∧ ((r = none ∧ ∃ l', FreeList k' l' ∧ l'.Perm l) ∨
        ∃ d, r = some d ∧ ExactCopy k l S.pgdir k' d) := by
  obtain ⟨k, p, S, l, h, hmaps, hsize⟩ := exists_onePage
  rw [hsize] at hmaps
  exact ⟨k, S, l, hmaps, copyuvm_exact h.owned (by decide) hmaps⟩

end Xv6.Vm
