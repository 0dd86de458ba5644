import Assignments.Xv6.UserPages

/-!
# Setting up and freeing an address space

`setupkvm` and `freevm` of `vm.c`. Every directory maps the kernel above `KERNBASE` in the same way,
by the table `kmap`; what it maps there is not the directory's own. Setting up takes pages for the
directory and for its tables only, and `freevm` gives back every page of a space, the ones that the
user has first.

* `Owned.mapLoop` — a range above `KERNBASE` is mapped, as far as there are page tables to be had;
* `Owned.freevm` — every page of the space is free again, and pages of others keep their bytes;
* `Pool.setupkvm` — a new directory has exactly the entries `kernelEntry`, or nothing has changed.
-/

namespace Xv6.Vm

open Framework Function
open Multiset hiding bind
open Xv6.Ptable (PGSIZE KERNBASE)

abbrev KERNLINK : ℕ := KERNBASE + EXTMEM

/-- An entry of `kmap`. -/
structure Mapping where
  virt : ℕ
  phys_start : ℕ
  phys_end : ℕ
  perm : ℕ

def kmap (L : Link) : List Mapping :=
  [⟨KERNBASE, 0, EXTMEM, PTE_W⟩,
   ⟨KERNLINK, V2P KERNLINK, L.data, 0⟩,
   ⟨P2V L.data, L.data, PHYSTOP, PTE_W⟩,
   ⟨DEVSPACE, DEVSPACE, 0, PTE_W⟩]

/-- `phys_end - phys_start`, a `uint`. -/
def Mapping.size (m : Mapping) : ℕ := (m.phys_end + (2 ^ 32 - m.phys_start)) % 2 ^ 32

namespace Kmem

/-- One round of the loop of `freevm`. -/
def freeTable (L : Link) (pgdir : ℕ) (k : Kmem) (i : ℕ) : Except Halt Kmem :=
  if load k.ram (pgdir + 4 * i) &&& PTE_P ≠ 0 then
    k.kfree L (PTE_ADDR (load k.ram (pgdir + 4 * i)))
  else
    .ok k

def freevm (L : Link) (k : Kmem) : Option ℕ → Except Halt Kmem
  | none => .error (.panic "freevm: no pgdir")
  | some pgdir => do
    let (_, k) ← k.deallocuvm L pgdir KERNBASE 0
    let k ← (List.range 1024).foldlM (freeTable L pgdir) k
    k.kfree L pgdir

/-- The loop of `setupkvm` over the entries of `kmap`. -/
def setupLoop (L : Link) (pgdir : ℕ) : List Mapping → Kmem → Except Halt (Option ℕ × Kmem)
  | [], k => .ok (some pgdir, k)
  | m :: ms, k => do
    let (r, k) ← k.mappages pgdir m.virt m.size m.phys_start m.perm
    if r < 0 then
      let k ← k.freevm L (some pgdir)
      return (none, k)
    setupLoop L pgdir ms k

/-- The new directory, or `none` for a null pointer. -/
def setupkvm (L : Link) (k : Kmem) : Except Halt (Option ℕ × Kmem) :=
  match k.kalloc with
  | (none, k) => .ok (none, k)
  | (some pgdir, k) =>
    let k := k.memset pgdir 0
    if P2V PHYSTOP > DEVSPACE then .error (.panic "PHYSTOP too high")
    else setupLoop L pgdir (kmap L) k

end Kmem

/-! ### Mapping a range -/

/-- The pages from `a` up to `b` are mapped one after another from `pa` on; the other entries are
the old ones. -/
def mapped (a b pa perm : ℕ) (entry : ℕ → Option ℕ) : ℕ → Option ℕ := fun v =>
  if a ≤ PGSIZE * v ∧ PGSIZE * v < b then some ((pa + (PGSIZE * v - a)) ||| perm ||| PTE_P)
  else entry v

section Mapped

variable {L : Link} {k k' k₁ : Kmem} {S S' S₁ : Space} {l l' l₁ : List ℕ} {held held₁ : Multiset ℕ}
  {a b pa perm v n : ℕ}

theorem mapped_of_le (h : b ≤ a) (entry : ℕ → Option ℕ) : mapped a b pa perm entry = entry := by
  funext v
  exact if_neg fun hv => absurd (Nat.lt_of_le_of_lt hv.1 hv.2) (Nat.not_lt.mpr h)

/-- Mapping the first page, and then the others. -/
theorem mapped_succ {entry : ℕ → Option ℕ} (hv : a = PGSIZE * v) (hlt : a < b) :
    mapped (a + PGSIZE) b (pa + PGSIZE) perm
        (update entry v (some (pa ||| perm ||| PTE_P)))
      = mapped a b pa perm entry := by
  funext w
  unfold mapped
  by_cases hw : w = v
  · subst hw
    have hout : ¬(a + PGSIZE ≤ PGSIZE * w ∧ PGSIZE * w < b) := by
      rw [pgsize_eq] at hv ⊢
      omega
    rw [if_neg hout, update_self, if_pos ⟨le_of_eq hv, hv ▸ hlt⟩, ← hv, Nat.sub_self,
      Nat.add_zero]
  · rw [update_of_ne hw]
    by_cases hin : a + PGSIZE ≤ PGSIZE * w ∧ PGSIZE * w < b
    · have hsum : pa + PGSIZE + (PGSIZE * w - (a + PGSIZE)) = pa + (PGSIZE * w - a) := by
        rw [pgsize_eq] at hin ⊢
        omega
      rw [if_pos hin, if_pos ⟨Nat.le_of_add_right_le hin.1, hin.2⟩, hsum]
    · have hout : ¬(a ≤ PGSIZE * w ∧ PGSIZE * w < b) := by
        rw [pgsize_eq] at hv hin ⊢
        omega
      rw [if_neg hin, if_neg hout]

/-- A mapping above `KERNBASE` changes no user page. -/
theorem user_congr (h : ∀ v < NUSER, S'.entry v = S.entry v) : S'.user = S.user := by
  apply heldIn_congr
  intro v hv
  unfold Space.page
  rw [h v (Finset.mem_range.mp hv)]

/-- Page tables come from the free pages. -/
theorem Starved.of_grows (h : Starved k₁ S₁ l₁ 0) (hgrows : Grows k S l held k₁ S₁ l₁ held)
    (huser : S₁.user = S.user) : Starved k S l 0 := by
  rcases h with ⟨c, hc⟩ | hlen
  · exact .inl ⟨c, hgrows.denied ▸ hc⟩
  · right
    have htotal := congrArg card (add_right_cancel hgrows.total)
    unfold Space.pages at htotal
    rw [huser, card_add, card_add, card_add, card_add,
      coe_card, coe_card] at htotal
    omega

/-- One round of `mappages` above `KERNBASE`. -/
theorem Owned.mapKernel (h : Owned L k S l held) (perm : ℕ) (ha : a % PGSIZE = 0) (hlt : a < 2 ^ 32)
    (hbase : KERNBASE ≤ a) (hpa : pa % PGSIZE = 0) (hpa' : pa < 2 ^ 32) (hperm : perm < PGSIZE)
    (hnone : S.entry (a / PGSIZE) = none) :
    ∃ ok k' S' l', k.mapPage S.pgdir a pa perm = .ok (ok, k') ∧ Owned L k' S' l' held ∧
      Grows k S l held k' S' l' held ∧ S'.user = S.user ∧
      ((ok = false ∧ S'.entry = S.entry ∧ Starved k S l 0) ∨
        (ok = true ∧ S'.entry = mapped a (a + PGSIZE) pa perm S.entry ∧
          (S.Tight → S'.Tight))) := by
  have hv : ¬ a / PGSIZE < NUSER :=
    Nat.not_lt.mpr ((Nat.le_div_iff_mul_le (by decide)).mpr hbase)
  have hav : PGSIZE * (a / PGSIZE) = a := Nat.mul_div_cancel' (Nat.dvd_of_mod_eq_zero ha)
  obtain ⟨ok, k', S', l', hrun, hcases⟩ :=
    h.mapPage perm held hlt hpa hpa' hperm hnone (by rw [if_neg hv])
  rcases hcases with ⟨rfl, hown, hgrows, hentry, hwhy⟩ | ⟨rfl, hown, hgrows, hentry, htight⟩
  · refine ⟨false, k', S', l', hrun, hown, hgrows, user_congr fun v _ => by rw [hentry],
      .inl ⟨rfl, hentry, ?_⟩⟩
    rcases hwhy with rfl | hdenied
    · exact .of_length_le (Nat.zero_le 1)
    · exact .inl ⟨_, hdenied⟩
  · refine ⟨true, k', S', l', hrun, hown, hgrows, user_congr fun v hv' => ?_,
      .inr ⟨rfl, ?_, htight⟩⟩
    · rw [hentry, update_of_ne]
      rintro rfl
      exact hv hv'
    · rw [hentry, ← mapped_succ hav.symm (Nat.lt_add_of_pos_right (by decide)),
        mapped_of_le (le_refl _)]

/-- **A range above `KERNBASE` is mapped,** page by page up to the one at `last`, or a page table is
missing. -/
theorem Owned.mapLoop (h : Owned L k S l held) (perm : ℕ) {last fuel : ℕ} (ha : a % PGSIZE = 0)
    (hlast : last = a + PGSIZE * n) (hbound : last < 2 ^ 32) (hbase : KERNBASE ≤ a)
    (hpa : pa % PGSIZE = 0) (hpa' : pa + PGSIZE * n < 2 ^ 32) (hperm : perm < PGSIZE)
    (hfuel : n < fuel)
    (hnone : ∀ v, a ≤ PGSIZE * v → PGSIZE * v < last + PGSIZE → S.entry v = none) :
    ∃ r k' S' l', Kmem.mapLoop S.pgdir last perm fuel a pa k = .ok (r, k') ∧
      Owned L k' S' l' held ∧ Grows k S l held k' S' l' held ∧ S'.user = S.user ∧
      ((r = 0 ∧ S'.entry = mapped a (last + PGSIZE) pa perm S.entry ∧ (S.Tight → S'.Tight)) ∨
        (r = -1 ∧ Starved k S l 0)) := by
  induction n generalizing a pa k S l fuel with
  | zero =>
    obtain ⟨fuel, rfl⟩ := Nat.exists_eq_succ_of_ne_zero (Nat.ne_of_gt hfuel)
    obtain rfl : last = a := hlast
    have hav : PGSIZE * (last / PGSIZE) = last :=
      Nat.mul_div_cancel' (Nat.dvd_of_mod_eq_zero ha)
    obtain ⟨ok, k', S', l', hrun, hown, hgrows, huser, hcases⟩ :=
      h.mapKernel perm ha hbound hbase hpa hpa' hperm
        (hnone _ (le_of_eq hav.symm) (by rw [hav]; exact Nat.lt_add_of_pos_right (by decide)))
    rw [Kmem.mapLoop]
    rcases hcases with ⟨rfl, -, hstarved⟩ | ⟨rfl, hentry, htight⟩
    · refine ⟨-1, k', S', l', ?_, hown, hgrows, huser, .inr ⟨rfl, hstarved⟩⟩
      simp only [hrun, bind, Except.bind, if_true, pure, Except.pure]
    · refine ⟨0, k', S', l', ?_, hown, hgrows, huser, .inl ⟨rfl, hentry, htight⟩⟩
      simp only [hrun, bind, Except.bind, Bool.true_eq_false, if_false, if_true, pure,
        Except.pure]
  | succ n ih =>
    obtain ⟨fuel, rfl⟩ := Nat.exists_eq_succ_of_ne_zero (Nat.ne_zero_of_lt hfuel)
    have hav : PGSIZE * (a / PGSIZE) = a := Nat.mul_div_cancel' (Nat.dvd_of_mod_eq_zero ha)
    have hstep : PGSIZE * (n + 1) = PGSIZE + PGSIZE * n := by rw [Nat.mul_succ, Nat.add_comm]
    rw [hstep] at hlast hpa'
    have hlt : a < last := by
      rw [hlast, pgsize_eq]
      omega
    obtain ⟨ok, k₁, S₁, l₁, hrun, hown, hgrows, huser, hcases⟩ :=
      h.mapKernel perm ha (hlt.trans hbound) hbase hpa (Nat.lt_of_add_right_lt hpa') hperm
        (hnone _ (le_of_eq hav.symm) (by rw [hav]; exact Nat.lt_add_right PGSIZE hlt))
    rw [Kmem.mapLoop]
    rcases hcases with ⟨rfl, -, hstarved⟩ | ⟨rfl, hentry, htight⟩
    · refine ⟨-1, k₁, S₁, l₁, ?_, hown, hgrows, huser, .inr ⟨rfl, hstarved⟩⟩
      simp only [hrun, bind, Except.bind, if_true, pure, Except.pure]
    · -- the page is mapped, and the loop goes on with the next one
      have hnext : (a + PGSIZE) % 2 ^ 32 = a + PGSIZE := Nat.mod_eq_of_lt (by omega)
      have hnext' : (pa + PGSIZE) % 2 ^ 32 = pa + PGSIZE := Nat.mod_eq_of_lt (by omega)
      have ha₁ : (a + PGSIZE) % PGSIZE = 0 := by rw [Nat.add_mod_right, ha]
      have hpa₁ : (pa + PGSIZE) % PGSIZE = 0 := by rw [Nat.add_mod_right, hpa]
      have hfuel₁ : n < fuel := Nat.lt_of_succ_lt_succ hfuel
      have hnone₁ : ∀ v, a + PGSIZE ≤ PGSIZE * v → PGSIZE * v < last + PGSIZE →
          S₁.entry v = none := by
        intro v hv hv'
        have hout : ¬(a ≤ PGSIZE * v ∧ PGSIZE * v < a + PGSIZE) := by omega
        rw [hentry, mapped, if_neg hout]
        exact hnone v (by omega) hv'
      obtain ⟨r, k', S', l', hloop, hown', hgrows', huser', hcases'⟩ :=
        ih hown ha₁ (by omega) (by omega) hpa₁ (by omega) hfuel₁ hnone₁
      refine ⟨r, k', S', l', ?_, hown', hgrows.trans hgrows', huser'.trans huser, ?_⟩
      · rw [hgrows.pgdir] at hloop
        simp only [hrun, bind, Except.bind, Bool.true_eq_false, if_false, if_neg (Nat.ne_of_lt hlt),
          hnext, hnext']
        exact hloop
      · rcases hcases' with ⟨rfl, hentry', htight'⟩ | ⟨rfl, hstarved⟩
        · refine .inl ⟨rfl, ?_, fun ht => htight' (htight ht)⟩
          rw [hentry', hentry, ← mapped_succ hav.symm (Nat.lt_add_of_pos_right (by decide)),
            mapped_of_le (le_refl _), mapped_succ hav.symm (Nat.lt_add_right PGSIZE hlt)]
        · exact .inr ⟨rfl, hstarved.of_grows hgrows huser⟩

/-! ### Freeing a space -/

/-- The rounds of `freevm` for the first `n` entries of the directory: the tables of the others are
still in its hands. -/
theorem Owned.freeTables (h : Owned L k S l held) (huser : S.user = 0) (hn : n ≤ 1024) :
    ∃ k' l', (List.range n).foldlM (Kmem.freeTable L S.pgdir) k = .ok k' ∧
      Pool L k' l' (heldIn (Finset.Ico n 1024) S.table + ({S.pgdir} + held)) ∧
      (l' : Multiset ℕ) + heldIn (Finset.Ico n 1024) S.table = (l : Multiset ℕ) + S.tables ∧
      AgreeOff PGSIZE S.tables k.ram k'.ram ∧ k'.denied = k.denied := by
  induction n with
  | zero =>
    have hall : heldIn (Finset.Ico 0 1024) S.table = S.tables := by
      rw [← Finset.range_eq_Ico]
      rfl
    refine ⟨k, l, rfl, ?_, by rw [hall], .refl _, rfl⟩
    have hpool := h.pool
    rw [Space.pages, huser, add_zero, Space.skeleton] at hpool
    rw [hall]
    convert hpool using 1
    abel
  | succ n ih =>
    have hlt : n < 1024 := hn
    obtain ⟨k₁, l₁, hrun, hpool, htotal, hagree, hdenied⟩ := ih (Nat.le_of_lt hlt)
    rw [heldIn_Ico hlt] at hpool htotal
    have hstep : (List.range (n + 1)).foldlM (Kmem.freeTable L S.pgdir) k
        = k₁.freeTable L S.pgdir n := by
      rw [List.range_succ, List.foldlM_append, hrun]
      exact bind_pure (k₁.freeTable L S.pgdir n)
    -- the directory has not been written to
    have hpgdir : S.pgdir ∉ S.tables := by
      intro hmem
      obtain ⟨i, hi, ht⟩ := Space.mem_tables.mp hmem
      exact h.pgdir_ne_table hi ht rfl
    have hload : load k₁.ram (S.pgdir + 4 * n) = load k.ram (S.pgdir + 4 * n) :=
      load_congr hagree h.page_pgdir.aligned hpgdir hlt
    have hdir := h.space.dir n hlt
    rw [← hload] at hdir
    rw [hstep]
    unfold Kmem.freeTable
    by_cases hp : load k₁.ram (S.pgdir + 4 * n) &&& PTE_P ≠ 0
    · rw [present_of_and hp, Option.map_some] at hdir
      rw [if_pos hp]
      generalize PTE_ADDR (load k₁.ram (S.pgdir + 4 * n)) = t at hdir ⊢
      rw [← hdir, holds_some] at hpool htotal
      obtain ⟨ram, hfree, hpool', hagree'⟩ := hpool.kfree (add_assoc {t} _ _)
      refine ⟨_, t :: l₁, hfree, hpool', ?_, hagree.trans (hagree'.mono ?_), hdenied⟩
      · rw [← htotal, ← cons_coe, ← singleton_add]
        abel
      · intro q hq
        rw [mem_singleton.mp hq]
        exact Space.mem_tables.mpr ⟨n, hlt, hdir.symm⟩
    · rw [present_eq_none.mpr (not_not.mp hp), Option.map_none] at hdir
      rw [← hdir, holds_none, zero_add] at hpool htotal
      rw [if_neg hp]
      exact ⟨k₁, l₁, rfl, hpool, htotal, hagree, hdenied⟩

/-- **Freeing a space.** Every page of it is free again, and the pages of others keep their
bytes. -/
theorem Owned.freevm (h : Owned L k S l held) :
    ∃ k' l', k.freevm L (some S.pgdir) = .ok k' ∧ Pool L k' l' held ∧
      (l' : Multiset ℕ) = (l : Multiset ℕ) + S.pages ∧ AgreeOn PGSIZE held k.ram k'.ram ∧
      k'.denied = k.denied := by
  obtain ⟨k₁, S₁, l₁, hrun₁, hown₁, hshrinks, hentry⟩ :=
    h.deallocuvm (le_refl KERNBASE) (by decide : 0 < KERNBASE)
  have huser : S₁.user = 0 := by
    apply heldIn_eq_zero
    intro v hv
    have hin : PGROUNDUP 0 ≤ PGSIZE * v ∧ PGSIZE * v < KERNBASE := by
      refine ⟨Nat.zero_le _, ?_⟩
      have hlt : PGSIZE * v < PGSIZE * NUSER :=
        Nat.mul_lt_mul_of_pos_left (Finset.mem_range.mp hv) (by decide)
      exact hlt
    rw [Space.page, hentry, cleared, if_pos hin, Option.map_none]
  obtain ⟨k₂, l₂, hrun₂, hpool₂, htotal₂, hagree₂, hdenied₂⟩ :=
    hown₁.freeTables huser (le_refl 1024)
  rw [Finset.Ico_self, heldIn_empty, zero_add] at hpool₂
  rw [Finset.Ico_self, heldIn_empty, add_zero] at htotal₂
  obtain ⟨ram, hrun₃, hpool₃, hagree₃⟩ := hpool₂.kfree rfl
  refine ⟨_, S₁.pgdir :: l₂, ?_, hpool₃, ?_, ?_, hdenied₂.trans hshrinks.denied⟩
  · rw [hshrinks.pgdir] at hrun₂ hrun₃
    unfold Kmem.freevm
    simp only [hrun₁, hrun₂, hrun₃, bind, Except.bind]
    rw [hshrinks.pgdir]
  · rw [← hshrinks.total, ← cons_coe, ← singleton_add, htotal₂, Space.pages,
      huser, add_zero, Space.skeleton]
    abel
  · have hnot : ∀ q ∈ held, q ∉ S₁.skeleton := fun q hq hmem =>
      hown₁.notMem_held_of_pages (mem_add.mpr (.inl hmem)) hq
    refine (hshrinks.agreeOn hown₁).trans (.trans (hagree₂.agreeOn ?_) (hagree₃.agreeOn ?_))
    · rw [disjoint_left]
      intro q hq hq'
      exact hnot q hq' (Space.mem_skeleton.mpr (.inr (Space.mem_tables.mp hq)))
    · rw [disjoint_left]
      intro q hq hq'
      exact hnot q hq' (Space.mem_skeleton.mpr (.inl (mem_singleton.mp hq)))

/-! ### Setting up a space -/

/-- What `mappages` needs of an entry of `kmap`: whole pages above `KERNBASE`. -/
structure Mapping.Above (m : Mapping) : Prop where
  virt : m.virt % PGSIZE = 0
  phys : m.phys_start % PGSIZE = 0
  base : KERNBASE ≤ m.virt
  size : m.size % PGSIZE = 0
  pos : 0 < m.size
  fits : m.virt + m.size ≤ 2 ^ 32
  fits_phys : m.phys_start + m.size ≤ 2 ^ 32
  perm : m.perm < PGSIZE

/-- The page of `v` is in the range of the entry. -/
def Mapping.Covers (m : Mapping) (v : ℕ) : Prop :=
  m.virt ≤ PGSIZE * v ∧ PGSIZE * v < m.virt + m.size

instance (m : Mapping) (v : ℕ) : Decidable (m.Covers v) :=
  inferInstanceAs (Decidable (_ ∧ _))

/-- What the entry adds to a directory. -/
def Mapping.mapped (m : Mapping) (entry : ℕ → Option ℕ) : ℕ → Option ℕ :=
  Vm.mapped m.virt (m.virt + m.size) m.phys_start m.perm entry

/-- The entries of a new directory. -/
def kernelEntry (L : Link) : ℕ → Option ℕ :=
  (kmap L).foldl (fun entry m => m.mapped entry) fun _ => none

theorem Mapping.mapped_of_not {m : Mapping} {entry : ℕ → Option ℕ} (h : ¬ m.Covers v) :
    m.mapped entry v = entry v := if_neg h

/-- An entry of `kmap` is mapped. -/
theorem Owned.mappages (h : Owned L k S l held) {m : Mapping} (hm : m.Above)
    (hnone : ∀ v, m.Covers v → S.entry v = none) :
    ∃ r k' S' l', k.mappages S.pgdir m.virt m.size m.phys_start m.perm = .ok (r, k') ∧
      Owned L k' S' l' held ∧ Grows k S l held k' S' l' held ∧ S'.user = S.user ∧
      ((r = 0 ∧ S'.entry = m.mapped S.entry ∧ (S.Tight → S'.Tight)) ∨
        (r = -1 ∧ Starved k S l 0)) := by
  obtain ⟨n, hn⟩ : ∃ n, m.size = PGSIZE * (n + 1) := by
    obtain ⟨c, hc⟩ := Nat.dvd_of_mod_eq_zero hm.size
    have hpos := hm.pos
    refine ⟨c - 1, ?_⟩
    rw [hc]
    congr 1
    rw [hc, pgsize_eq] at hpos
    omega
  have hfits := hm.fits
  have hfits' := hm.fits_phys
  have hvirt := hm.virt
  rw [hn, pgsize_eq] at hfits hfits'
  rw [pgsize_eq] at hvirt
  have hfirst : PGROUNDDOWN m.virt = m.virt :=
    Nat.div_mul_cancel (Nat.dvd_of_mod_eq_zero hm.virt)
  have hlast : PGROUNDDOWN ((m.virt + m.size + (2 ^ 32 - 1)) % 2 ^ 32)
      = m.virt + PGSIZE * n := by
    rw [PGROUNDDOWN, hn, pgsize_eq]
    omega
  have hend : m.virt + PGSIZE * n + PGSIZE = m.virt + m.size := by
    rw [hn, Nat.mul_succ, Nat.add_assoc]
  unfold Kmem.mappages
  dsimp only
  rw [hfirst, hlast]
  obtain ⟨r, k', S', l', hrun, hown, hgrows, huser, hcases⟩ :=
    h.mapLoop m.perm hm.virt rfl (by rw [pgsize_eq]; omega) hm.base hm.phys
      (by rw [pgsize_eq]; omega) hm.perm (show n < 2 ^ 20 by omega)
      (fun v hv hv' => hnone v ⟨hv, hend ▸ hv'⟩)
  rw [hend] at hcases
  exact ⟨r, k', S', l', hrun, hown, hgrows, huser, hcases⟩

/-- **The loop of `setupkvm`**: the entries are mapped one after another, or the space is freed. -/
theorem Owned.setupLoop (h : Owned L k S l held) {ms : List Mapping} (hms : ∀ m ∈ ms, m.Above)
    (hpair : ms.Pairwise fun m m' => ∀ v, m.Covers v → ¬ m'.Covers v)
    (hnone : ∀ m ∈ ms, ∀ v, m.Covers v → S.entry v = none) :
    ∃ r k' l', Kmem.setupLoop L S.pgdir ms k = .ok (r, k') ∧ AgreeOn PGSIZE held k.ram k'.ram ∧
      k'.denied = k.denied ∧
      ((r = none ∧ Pool L k' l' held ∧ (l' : Multiset ℕ) = (l : Multiset ℕ) + S.pages ∧
          Starved k S l 0) ∨
        ∃ S', r = some S'.pgdir ∧ Owned L k' S' l' held ∧
          (l' : Multiset ℕ) + S'.pages = (l : Multiset ℕ) + S.pages ∧
          S'.entry = ms.foldl (fun entry m => m.mapped entry) S.entry ∧ (S.Tight → S'.Tight)) := by
  induction ms generalizing k S l with
  | nil => exact ⟨_, k, l, rfl, .refl _, rfl, .inr ⟨S, rfl, h, rfl, rfl, id⟩⟩
  | cons m ms ih =>
    obtain ⟨hapart, hpair⟩ := List.pairwise_cons.mp hpair
    obtain ⟨r, k₁, S₁, l₁, hrun, hown, hgrows, huser, hcases⟩ :=
      h.mappages (hms m List.mem_cons_self) (hnone m List.mem_cons_self)
    have htotal := add_right_cancel hgrows.total
    rw [Kmem.setupLoop]
    rcases hcases with ⟨rfl, hentry, htight⟩ | ⟨rfl, hstarved⟩
    · obtain ⟨r, k', l', hloop, hagree, hdenied, hcases⟩ := ih hown
        (fun m' hm' => hms m' (List.mem_cons_of_mem m hm')) hpair (by
          intro m' hm' v hv
          rw [hentry, Mapping.mapped_of_not fun hcov => hapart m' hm' v hcov hv]
          exact hnone m' (List.mem_cons_of_mem m hm') v hv)
      refine ⟨r, k', l', ?_, (hgrows.agreeOn h).trans hagree, hdenied.trans hgrows.denied, ?_⟩
      · rw [hgrows.pgdir] at hloop
        simp only [hrun, bind, Except.bind, Int.lt_irrefl, if_false]
        exact hloop
      · rcases hcases with ⟨rfl, hpool, hl', hstarved⟩ | ⟨S', rfl, hown', hl', hentry', htight'⟩
        · exact .inl ⟨rfl, hpool, hl'.trans htotal, hstarved.of_grows hgrows huser⟩
        · refine .inr ⟨S', rfl, hown', hl'.trans htotal, ?_, fun ht => htight' (htight ht)⟩
          rw [hentry', hentry, List.foldl_cons]
    · obtain ⟨k', l', hfree, hpool, hl', hagree, hdenied⟩ := hown.freevm
      refine ⟨none, k', l', ?_, (hgrows.agreeOn h).trans hagree, hdenied.trans hgrows.denied,
        .inl ⟨rfl, hpool, hl'.trans htotal, hstarved⟩⟩
      rw [hgrows.pgdir] at hfree
      simp only [hrun, hfree, bind, Except.bind, pure, Except.pure]
      rfl

/-- A page that has been cleared is the directory of an empty space. -/
def Space.bare (pgdir : ℕ) : Space := ⟨pgdir, fun _ => none, fun _ => none⟩

theorem Space.bare_pages (pgdir : ℕ) : (Space.bare pgdir).pages = {pgdir} := by
  have htables : (Space.bare pgdir).tables = 0 := heldIn_eq_zero fun _ _ => rfl
  have huser : (Space.bare pgdir).user = 0 := heldIn_eq_zero fun _ _ => rfl
  rw [Space.pages, Space.skeleton, htables, huser, add_zero, add_zero]
  rfl

theorem Space.bare_at {pgdir : ℕ} (k : Kmem) : (Space.bare pgdir).At (k.memset pgdir 0).ram where
  dir i hi := by
    have hzero : load (k.memset pgdir 0).ram (pgdir + 4 * i) = 0 := by
      apply getLE_eq_zero
      intro a ha ha'
      exact fill_of_mem (by omega) (by rw [pgsize_eq]; omega)
    change (present (load (k.memset pgdir 0).ram (pgdir + 4 * i))).map PTE_ADDR = none
    rw [hzero]
    rfl
  entries i hi t ht := absurd ht nofun
  absent i hi ht j hj := rfl

theorem Link.data_bounds (L : Link) : L.data % 4096 = 0 ∧ 0x100000 < L.data ∧ L.data ≤ 0x400000 :=
  ⟨L.aligned, L.text, L.data_le.trans L.fits⟩

/-- The addresses in `kmap`. -/
theorem kmap_eq (L : Link) :
    kmap L = [⟨0x80000000, 0, 0x100000, 2⟩, ⟨0x80100000, 0x100000, L.data, 0⟩,
      ⟨L.data + 0x80000000, L.data, 0xE000000, 2⟩, ⟨0xFE000000, 0xFE000000, 0, 2⟩] := by
  obtain ⟨-, -, hle⟩ := L.data_bounds
  have hvirt : P2V L.data = L.data + 0x80000000 := by
    rw [P2V, kernbase_eq]
    omega
  unfold kmap
  rw [hvirt]
  rfl

/-- The entries of `kmap` are whole pages above `KERNBASE`. -/
theorem kmap_above (L : Link) : ∀ m ∈ kmap L, m.Above := by
  obtain ⟨haligned, htext, hle⟩ := L.data_bounds
  intro m hm
  rw [kmap_eq] at hm
  simp only [List.mem_cons, List.not_mem_nil, or_false] at hm
  rcases hm with rfl | rfl | rfl | rfl
  all_goals
    constructor <;> simp only [Mapping.size, pgsize_eq, kernbase_eq] <;> omega

/-- No page is in two of the ranges. -/
theorem kmap_apart (L : Link) : (kmap L).Pairwise fun m m' => ∀ v, m.Covers v → ¬ m'.Covers v := by
  obtain ⟨haligned, htext, hle⟩ := L.data_bounds
  rw [kmap_eq]
  simp only [List.pairwise_cons, List.mem_cons, List.not_mem_nil, or_false, forall_eq_or_imp,
    forall_eq, Mapping.Covers, Mapping.size, pgsize_eq, List.Pairwise.nil, and_true, false_implies,
    implies_true]
  refine ⟨⟨?_, ?_, ?_⟩, ⟨?_, ?_⟩, ?_⟩
  all_goals
    intro v hv hv'
    omega

/-- **A new directory** has the entries of `kmap` and nothing else, or there are too few pages and
nothing has changed. -/
theorem Pool.setupkvm (h : Pool L k l held) :
    ∃ r k' l', k.setupkvm L = .ok (r, k') ∧ AgreeOn PGSIZE held k.ram k'.ram ∧
      k'.denied = k.denied ∧
      ((r = none ∧ Pool L k' l' held ∧ (l' : Multiset ℕ) = l ∧
          ((∃ c, k.denied c = true) ∨ l.length ≤ 1026)) ∨
        ∃ S, r = some S.pgdir ∧ Owned L k' S l' held ∧ (l' : Multiset ℕ) + S.pages = l ∧
          S.entry = kernelEntry L ∧ S.Tight) := by
  have htop : ¬ P2V PHYSTOP > DEVSPACE := by decide
  unfold Kmem.setupkvm
  rcases h.kalloc with ⟨hrun, hpool, hwhy⟩ | ⟨pgdir, l₁, k₁, hrun, rfl, hram, hdenied, hpool⟩
  · rw [hrun]
    refine ⟨none, _, l, rfl, .refl _, rfl, .inl ⟨rfl, hpool, rfl, ?_⟩⟩
    rcases hwhy with rfl | hdenied
    · exact .inr (Nat.zero_le _)
    · exact .inl ⟨_, hdenied⟩
  · have hmem : pgdir ∈ {pgdir} + held :=
      mem_add.mpr (.inl (mem_singleton_self pgdir))
    have hpage : L.Page pgdir := hpool.page_held hmem
    have hclear : AgreeOff PGSIZE {pgdir} k₁.ram (k₁.memset pgdir 0).ram :=
      agreeOff_fill hpage.aligned
    have hbare : Owned L (k₁.memset pgdir 0) (.bare pgdir) l₁ held := by
      refine Pool.owned ?_ (Space.bare_at k₁)
      rw [Space.bare_pages]
      refine hpool.congr hclear rfl ?_
      intro q hq
      exact mem_add.mpr (.inl hq)
    have hnot : pgdir ∉ held := hbare.notMem_held_of_pages (by
      rw [Space.bare_pages]
      exact mem_singleton_self pgdir)
    have hfirst : AgreeOn PGSIZE held k.ram (k₁.memset pgdir 0).ram := by
      rw [← hram]
      refine hclear.agreeOn ?_
      rw [disjoint_left]
      intro q hq hq'
      exact hnot (mem_singleton.mp hq ▸ hq')
    have hall : ((l₁ : List ℕ) : Multiset ℕ) + (Space.bare pgdir).pages =
      (pgdir :: l₁ : List ℕ) := by
      rw [Space.bare_pages, ← cons_coe, ← singleton_add, add_comm]
    obtain ⟨r, k', l', hloop, hagree, hdenied', hcases⟩ :=
      hbare.setupLoop (kmap_above L) (kmap_apart L) fun _ _ _ _ => rfl
    rw [hrun]
    dsimp only
    rw [if_neg htop]
    refine ⟨r, k', l', hloop, hfirst.trans hagree, hdenied'.trans hdenied, ?_⟩
    rcases hcases with ⟨rfl, hpool', hl', hstarved⟩ | ⟨S', rfl, hown, hl', hentry, htight⟩
    · refine .inl ⟨rfl, hpool', hl'.trans hall, ?_⟩
      rcases hstarved with ⟨c, hc⟩ | hlen
      · exact .inl ⟨c, hdenied ▸ hc⟩
      · right
        have hskeleton : (Space.bare pgdir).skeleton.card = 1 := by
          have htables : (Space.bare pgdir).tables = 0 := heldIn_eq_zero fun _ _ => rfl
          rw [Space.skeleton, htables, add_zero, card_singleton]
        rw [hskeleton] at hlen
        exact hlen
    · exact .inr ⟨S', rfl, hown, hl'.trans hall, hentry, htight fun i hi => absurd rfl hi⟩

/-! ### The entries of the kernel -/

/-- Where the entries of a list of mappings come from. -/
theorem foldl_mapped_cases (ms : List Mapping) (entry : ℕ → Option ℕ) (v : ℕ) :
    (ms.foldl (fun entry m => m.mapped entry) entry v = entry v ∧ ∀ m ∈ ms, ¬ m.Covers v) ∨
      ∃ m ∈ ms, m.Covers v ∧ ms.foldl (fun entry m => m.mapped entry) entry v
        = some ((m.phys_start + (PGSIZE * v - m.virt)) ||| m.perm ||| PTE_P) := by
  induction ms generalizing entry with
  | nil => exact .inl ⟨rfl, nofun⟩
  | cons m ms ih =>
    rw [List.foldl_cons]
    rcases ih (m.mapped entry) with ⟨heq, hnot⟩ | ⟨m', hm', hcov, heq⟩
    · by_cases hcov : m.Covers v
      · exact .inr ⟨m, List.mem_cons_self, hcov, heq.trans (if_pos hcov)⟩
      · refine .inl ⟨heq.trans (Mapping.mapped_of_not hcov), ?_⟩
        intro m' hm'
        rcases List.mem_cons.mp hm' with rfl | hm'
        · exact hcov
        · exact hnot m' hm'
    · exact .inr ⟨m', List.mem_cons_of_mem m hm', hcov, heq⟩

theorem kernelEntry_of_not (h : ∀ m ∈ kmap L, ¬ m.Covers v) : kernelEntry L v = none := by
  rcases foldl_mapped_cases (kmap L) (fun _ => none) v with ⟨heq, -⟩ | ⟨m, hm, hcov, -⟩
  · exact heq
  · exact absurd hcov (h m hm)

/-- Below `KERNBASE` a new directory maps nothing. -/
theorem kernelEntry_user (hv : v < NUSER) : kernelEntry L v = none := by
  apply kernelEntry_of_not
  intro m hm hcov
  have hle : KERNBASE ≤ PGSIZE * v := (kmap_above L m hm).base.trans hcov.1
  have hlt : PGSIZE * v < PGSIZE * NUSER := Nat.mul_lt_mul_of_pos_left hv (by decide)
  exact absurd (Nat.lt_of_le_of_lt hle hlt) (Nat.lt_irrefl _)

/-- Nor does it between the end of physical memory and the devices. -/
theorem kernelEntry_gap (hv : 0x8E000 ≤ v) (hv' : v < 0xFE000) : kernelEntry L v = none := by
  obtain ⟨-, htext, hle⟩ := L.data_bounds
  apply kernelEntry_of_not
  rw [kmap_eq]
  simp only [List.mem_cons, List.not_mem_nil, or_false, forall_eq_or_imp, forall_eq,
    Mapping.Covers, Mapping.size, pgsize_eq]
  omega

/-- All of physical memory is mapped above `KERNBASE`. -/
theorem kernelEntry_memory (hv : NUSER ≤ v) (hv' : v < 0x8E000) : kernelEntry L v ≠ none := by
  obtain ⟨-, htext, hle⟩ := L.data_bounds
  rcases foldl_mapped_cases (kmap L) (fun _ => none) v with ⟨-, hnot⟩ | ⟨m, -, -, heq⟩
  · rw [kmap_eq] at hnot
    simp only [List.mem_cons, List.not_mem_nil, or_false, forall_eq_or_imp, forall_eq,
      Mapping.Covers, Mapping.size, pgsize_eq] at hnot
    change 524288 ≤ v at hv
    omega
  · exact fun hnone => nomatch heq.symm.trans hnone

theorem kernelEntry_device (hv : 0xFE000 ≤ v) (hv' : v < 0x100000) : kernelEntry L v ≠ none := by
  rcases foldl_mapped_cases (kmap L) (fun _ => none) v with ⟨-, hnot⟩ | ⟨m, -, -, heq⟩
  · refine absurd ?_ (hnot ⟨0xFE000000, 0xFE000000, 0, 2⟩ (by rw [kmap_eq]; simp))
    simp only [Mapping.Covers, Mapping.size, pgsize_eq]
    omega
  · exact fun hnone => nomatch heq.symm.trans hnone

/-- The flag of user pages is one of the flags. -/
theorem lor_and_user {flags : ℕ} (hpa : pa % PGSIZE = 0) :
    (pa ||| flags) &&& PTE_U = flags &&& PTE_U := by
  obtain ⟨c, rfl⟩ := Nat.dvd_of_mod_eq_zero hpa
  have hzero : PGSIZE * c &&& PTE_U = 0 := by
    have hbit : (2 ^ 12 * c).testBit 2 = false := by
      rw [Nat.testBit_two_pow_mul]
      rfl
    have hand : 2 ^ 12 * c &&& 2 ^ 2 = ((2 ^ 12 * c).testBit 2).toNat * 2 ^ 2 := Nat.and_two_pow ..
    rw [hbit] at hand
    exact hand
  rw [Nat.and_or_distrib_right, hzero, Nat.zero_or]

/-- What a directory maps for the kernel is not for the user. -/
theorem kernelEntry_flags {e : ℕ} (h : kernelEntry L v = some e) : e &&& PTE_U = 0 := by
  rcases foldl_mapped_cases (kmap L) (fun _ => none) v with ⟨heq, -⟩ | ⟨m, hm, hcov, heq⟩
  · exact nomatch h.symm.trans heq
  · obtain rfl : _ = e := Option.some.inj (heq.symm.trans h)
    have habove := kmap_above L m hm
    have haligned : (m.phys_start + (PGSIZE * v - m.virt)) % PGSIZE = 0 := by
      have hvirt := habove.virt
      have hphys := habove.phys
      have hle := hcov.1
      rw [pgsize_eq] at hvirt hphys hle ⊢
      omega
    have hperm : m.perm = 0 ∨ m.perm = 2 := by
      rw [kmap_eq] at hm
      simp only [List.mem_cons, List.not_mem_nil, or_false] at hm
      rcases hm with rfl | rfl | rfl | rfl
      · exact .inr rfl
      · exact .inl rfl
      · exact .inr rfl
      · exact .inr rfl
    rw [Nat.or_assoc, lor_and_user haligned]
    rcases hperm with heq | heq
    · rw [heq]
      decide
    · rw [heq]
      decide

end Mapped

end Xv6.Vm
