import Assignments.Xv6.PageTable

/-!
# Growing and shrinking an address space

`allocuvm` and `deallocuvm` of `vm.c`. Sizes are `uint`s, and their sums wrap at `2 ^ 32`.

* `deallocLoop_eq_plain` — where `deallocuvm` finds no page table it moves on to the next one, which
  makes no difference to a loop over all pages, whatever the directory looks like;
* `Owned.deallocuvm` — the pages between the two sizes, and no others, are unmapped and given back;
* `Owned.allocuvm` — the pages between the two sizes are mapped to zeroed pages, or, when there is
  no page or no page table to be had, everything that was mapped on the way is unmapped again.

Messages printed on the console are left out.
-/

namespace Xv6.Vm

open Framework Function
open Multiset hiding bind
open Xv6.Ptable (PGSIZE KERNBASE)

/-- `PGROUNDUP`, in 32 bits. -/
def PGROUNDUP (sz : ℕ) : ℕ := (sz + PGSIZE - 1) % 2 ^ 32 / PGSIZE * PGSIZE

def PGADDR (d t o : ℕ) : ℕ := (d * 2 ^ 22 + t * 2 ^ 12 + o) % 2 ^ 32

namespace Kmem

/-- One round of the loop of `deallocuvm`, with the value of `a` at its end. -/
def deallocPage (L : Link) (k : Kmem) (pgdir a : ℕ) : Except Halt (ℕ × Kmem) :=
  match (k.walkpgdir pgdir a false).1 with
  | none => .ok ((PGADDR (PDX a + 1) 0 0 + (2 ^ 32 - PGSIZE)) % 2 ^ 32, k)
  | some pte =>
    if load k.ram pte &&& PTE_P ≠ 0 then
      let pa := PTE_ADDR (load k.ram pte)
      if pa = 0 then .error (.panic "kfree")
      else (k.kfree L pa).map fun k => (a, k.store pte 0)
    else
      .ok (a, k)

/-- The loop of `deallocuvm`. A loop that goes round more often than there are pages has wrapped
around and does not end. -/
def deallocLoop (L : Link) (pgdir oldsz : ℕ) : ℕ → ℕ → Kmem → Except Halt Kmem
  | 0, _, _ => .error .loop
  | fuel + 1, a, k =>
    if a < oldsz then do
      let (a, k) ← k.deallocPage L pgdir a
      deallocLoop L pgdir oldsz fuel ((a + PGSIZE) % 2 ^ 32) k
    else
      .ok k

/-- The loop that visits `n` pages one after another. -/
def plainLoop (L : Link) (pgdir : ℕ) : ℕ → ℕ → Kmem → Except Halt Kmem
  | 0, _, k => .ok k
  | n + 1, a, k => do
    let (_, k) ← k.deallocPage L pgdir a
    plainLoop L pgdir n (a + PGSIZE) k

def deallocuvm (L : Link) (k : Kmem) (pgdir oldsz newsz : ℕ) : Except Halt (ℕ × Kmem) :=
  if newsz ≥ oldsz then .ok (oldsz, k)
  else (deallocLoop L pgdir oldsz (2 ^ 20 + 1) (PGROUNDUP newsz) k).map fun k => (newsz, k)

/-- The loop of `allocuvm`. -/
def allocLoop (L : Link) (pgdir oldsz newsz : ℕ) : ℕ → ℕ → Kmem → Except Halt (ℕ × Kmem)
  | 0, _, _ => .error .loop
  | fuel + 1, a, k =>
    if a < newsz then
      match k.kalloc with
      | (none, k) => do
        let (_, k) ← k.deallocuvm L pgdir newsz oldsz
        return (0, k)
      | (some mem, k) => do
        let k := k.memset mem 0
        let (r, k) ← k.mappages pgdir a PGSIZE mem (PTE_W ||| PTE_U)
        if r < 0 then
          let (_, k) ← k.deallocuvm L pgdir newsz oldsz
          let k ← k.kfree L mem
          return (0, k)
        allocLoop L pgdir oldsz newsz fuel ((a + PGSIZE) % 2 ^ 32) k
    else
      .ok (newsz, k)

def allocuvm (L : Link) (k : Kmem) (pgdir oldsz newsz : ℕ) : Except Halt (ℕ × Kmem) :=
  if newsz ≥ KERNBASE then .ok (0, k)
  else if newsz < oldsz then .ok (oldsz, k)
  else allocLoop L pgdir oldsz newsz (2 ^ 20 + 1) (PGROUNDUP oldsz) k

end Kmem

/-! ### Sizes and pages -/

theorem pgroundup_mod (sz : ℕ) : PGROUNDUP sz % PGSIZE = 0 := Nat.mul_mod_left _ _

/-- A page below the rounded size is a page that begins below the size. -/
theorem mul_lt_pgroundup {sz v : ℕ} (hsz : sz ≤ KERNBASE) :
    PGSIZE * v < PGROUNDUP sz ↔ PGSIZE * v < sz := by
  rw [kernbase_eq] at hsz
  rw [PGROUNDUP, pgsize_eq]
  omega

theorem le_pgroundup {sz : ℕ} (hsz : sz ≤ KERNBASE) : sz ≤ PGROUNDUP sz := by
  rw [kernbase_eq] at hsz
  rw [PGROUNDUP, pgsize_eq]
  omega

theorem pgroundup_le {sz n : ℕ} (hsz : sz ≤ KERNBASE) (hn : n % PGSIZE = 0) (hle : sz ≤ n) :
    PGROUNDUP sz ≤ n := by
  rw [kernbase_eq] at hsz
  rw [pgsize_eq] at hn
  rw [PGROUNDUP, pgsize_eq]
  omega

/-! ### Skipping over missing page tables -/

section Skip

variable {L : Link} {k : Kmem} {pgdir a oldsz n m : ℕ}

/-- A visit to a page without a page table changes nothing. -/
theorem deallocPage_of_none (h : (k.walkpgdir pgdir a false).1 = none) :
    k.deallocPage L pgdir a
      = .ok ((PGADDR (PDX a + 1) 0 0 + (2 ^ 32 - PGSIZE)) % 2 ^ 32, k) := by
  rw [Kmem.deallocPage, h]

/-- Otherwise the address stays what it is. -/
theorem deallocPage_of_some {pte : ℕ} (h : (k.walkpgdir pgdir a false).1 = some pte) :
    ∃ visit : Except Halt Kmem, k.deallocPage L pgdir a = visit.map fun k => (a, k) := by
  rw [Kmem.deallocPage, h]
  dsimp only
  split
  · split
    · exact ⟨.error (.panic "kfree"), rfl⟩
    · refine ⟨(k.kfree L (PTE_ADDR (load k.ram pte))).map fun k => k.store pte 0, ?_⟩
      cases k.kfree L (PTE_ADDR (load k.ram pte)) with
      | error e => rfl
      | ok k' => rfl
  · exact ⟨.ok k, rfl⟩

/-- Whether there is a page table depends on the directory entry only. -/
theorem walkpgdir_none_congr {b : ℕ} (hb : PDX b = PDX a)
    (h : (k.walkpgdir pgdir a false).1 = none) : (k.walkpgdir pgdir b false).1 = none := by
  unfold Kmem.walkpgdir at h ⊢
  rw [hb]
  dsimp only at h ⊢
  by_cases hp : load k.ram (pgdir + 4 * PDX a) &&& PTE_P ≠ 0
  · rw [if_pos hp] at h
    cases h
  · rw [if_neg hp]
    rfl

/-- The plain loop passes over pages of a missing page table. -/
theorem plainLoop_skip (h : (k.walkpgdir pgdir a false).1 = none)
    (hsame : ∀ i < m, PDX (a + PGSIZE * i) = PDX a) :
    Kmem.plainLoop L pgdir (m + n) a k = Kmem.plainLoop L pgdir n (a + PGSIZE * m) k := by
  induction m generalizing a with
  | zero => rw [Nat.zero_add, Nat.mul_zero, Nat.add_zero]
  | succ m ih =>
    have hstep : ∀ i, a + PGSIZE + PGSIZE * i = a + PGSIZE * (i + 1) := by
      intro i
      rw [Nat.mul_succ]
      omega
    rw [Nat.add_right_comm, Kmem.plainLoop, deallocPage_of_none h]
    rcases Nat.eq_zero_or_pos m with rfl | hpos
    · rw [Nat.zero_add, Nat.zero_add, Nat.mul_one]
      rfl
    · have hnext : PDX (a + PGSIZE) = PDX a := by
        have heq := hsame 1 (by omega)
        rwa [Nat.mul_one] at heq
      have hrest := ih (walkpgdir_none_congr hnext h) fun i hi => by
        rw [hstep i, hsame (i + 1) (by omega), hnext]
      rw [hstep m] at hrest
      exact hrest

/-- **The skip is sound.** From a page on, the loop of `deallocuvm` does what the plain loop does
that visits all pages below the size, in every memory. -/
theorem deallocLoop_eq_plain {fuel : ℕ} (ha : a % PGSIZE = 0) (hold : oldsz ≤ KERNBASE)
    (hn : n = (oldsz + PGSIZE - 1 - a) / PGSIZE) (hfuel : n < fuel) :
    Kmem.deallocLoop L pgdir oldsz fuel a k = Kmem.plainLoop L pgdir n a k := by
  rw [kernbase_eq] at hold
  rw [pgsize_eq] at ha hn
  induction n using Nat.strong_induction_on generalizing a k fuel with
  | h n ih =>
    obtain ⟨fuel, rfl⟩ := Nat.exists_eq_succ_of_ne_zero (Nat.ne_zero_of_lt hfuel)
    rw [Kmem.deallocLoop]
    by_cases hlt : a < oldsz
    swap
    · rw [if_neg hlt, show n = 0 by omega]
      rfl
    rw [if_pos hlt]
    cases hwalk : (k.walkpgdir pgdir a false).1 with
    | none =>
      -- the loop jumps to the next page table, which may lie beyond the range
      have hjump : ((PGADDR (PDX a + 1) 0 0 + (2 ^ 32 - PGSIZE)) % 2 ^ 32 + PGSIZE) % 2 ^ 32
          = (a / 2 ^ 22 + 1) * 2 ^ 22 := by
        rw [PGADDR, PDX, pgsize_eq]
        omega
      rw [deallocPage_of_none hwalk]
      simp only [bind, Except.bind, hjump]
      have hskip : ∀ m, m ≤ n → a + 4096 * m ≤ (a / 2 ^ 22 + 1) * 2 ^ 22 →
          Kmem.plainLoop L pgdir n a k = Kmem.plainLoop L pgdir (n - m) (a + 4096 * m) k := by
        intro m hm hle
        have hplain := plainLoop_skip (L := L) (n := n - m) (m := m) hwalk fun i hi => by
          rw [PDX, PDX, pgsize_eq]
          omega
        rw [Nat.add_sub_cancel' hm] at hplain
        exact hplain
      by_cases hend : (a / 2 ^ 22 + 1) * 2 ^ 22 < oldsz
      · have hpages : a + 4096 * (((a / 2 ^ 22 + 1) * 2 ^ 22 - a) / 4096)
            = (a / 2 ^ 22 + 1) * 2 ^ 22 := by omega
        rw [hskip (((a / 2 ^ 22 + 1) * 2 ^ 22 - a) / 4096) (by omega) (by omega), hpages]
        exact ih _ (by omega) (by omega) (by omega) (by omega)
      · rw [hskip n (le_refl n) (by omega), Nat.sub_self]
        obtain ⟨fuel, rfl⟩ := Nat.exists_eq_succ_of_ne_zero (show fuel ≠ 0 by omega)
        rw [Kmem.deallocLoop, if_neg hend]
        rfl
    | some pte =>
      obtain ⟨m, rfl⟩ := Nat.exists_eq_succ_of_ne_zero (show n ≠ 0 by omega)
      have hnext : (a + PGSIZE) % 2 ^ 32 = a + PGSIZE := by
        rw [pgsize_eq]
        omega
      obtain ⟨visit, hvisit⟩ := deallocPage_of_some (L := L) hwalk
      rw [Kmem.plainLoop, hvisit]
      cases visit with
      | error e => rfl
      | ok k' =>
        simp only [Except.map, bind, Except.bind, hnext]
        exact ih m (by omega) (by rw [pgsize_eq]; omega) (by rw [pgsize_eq]; omega) (by omega)

/-- The pages that are visited are those that begin below the size. -/
theorem mul_lt_pages {v : ℕ} (ha : a % PGSIZE = 0) (hn : n = (oldsz + PGSIZE - 1 - a) / PGSIZE)
    (hv : a ≤ PGSIZE * v) : PGSIZE * v < a + PGSIZE * n ↔ PGSIZE * v < oldsz := by
  rw [pgsize_eq] at ha hn hv ⊢
  omega

theorem pgroundup_le_pages {newsz : ℕ} (hold : oldsz ≤ KERNBASE) (hlt : newsz < oldsz) :
    PGROUNDUP newsz ≤ oldsz + PGSIZE - 1 := by
  rw [kernbase_eq] at hold
  rw [PGROUNDUP, pgsize_eq]
  omega

end Skip

/-! ### Unmapping -/

/-- The entries of the pages from the address `a` up to `b` are gone. -/
def cleared (a b : ℕ) (entry : ℕ → Option ℕ) : ℕ → Option ℕ := fun v =>
  if a ≤ PGSIZE * v ∧ PGSIZE * v < b then none else entry v

section Shrinks

variable {L : Link} {k k' k₁ k₂ : Kmem} {S S' S₁ S₂ : Space} {l l' l₁ l₂ : List ℕ}
  {held held₁ : Multiset ℕ} {a b pa t v : ℕ}

theorem cleared_of_le (h : b ≤ a) (entry : ℕ → Option ℕ) : cleared a b entry = entry := by
  funext v
  exact if_neg fun hv => absurd (Nat.lt_of_le_of_lt hv.1 hv.2) (Nat.not_lt.mpr h)

/-- Unmapping the first page, and then the others. -/
theorem cleared_succ {entry : ℕ → Option ℕ} (hv : a = PGSIZE * v) (hlt : a < b) :
    cleared (a + PGSIZE) b (update entry v none) = cleared a b entry := by
  funext w
  unfold cleared
  by_cases hw : w = v
  · subst hw
    rw [update_self, ite_self, if_pos ⟨le_of_eq hv, hv ▸ hlt⟩]
  · rw [update_of_ne hw]
    refine if_congr ?_ rfl rfl
    rw [pgsize_eq] at hv ⊢
    omega

/-- Writing an entry that is then unmapped makes no difference. -/
theorem cleared_update {entry : ℕ → Option ℕ} {o : Option ℕ} (ha : a ≤ PGSIZE * v)
    (hb : PGSIZE * v < b) : cleared a b (update entry v o) = cleared a b entry := by
  funext w
  unfold cleared
  by_cases hw : w = v
  · subst hw
    rw [if_pos ⟨ha, hb⟩, if_pos ⟨ha, hb⟩]
  · rw [update_of_ne hw]

/-- What a routine does that takes pages from the space: entries disappear, no page is lost, and
only the directory, the page tables and pages that are free afterwards are written to. -/
structure Shrinks (k : Kmem) (S : Space) (l : List ℕ) (k' : Kmem) (S' : Space) (l' : List ℕ) :
    Prop where
  pgdir : S'.pgdir = S.pgdir
  table : ∀ i t, S.table i = some t → S'.table i = some t
  total : (l' : Multiset ℕ) + S'.pages = (l : Multiset ℕ) + S.pages
  entry : ∀ v, S'.entry v = none ∨ S'.entry v = S.entry v
  agree : AgreeOff PGSIZE ((l' : Multiset ℕ) + S'.skeleton) k.ram k'.ram
  denied : k'.denied = k.denied

/-- If entries disappear, so do pages. -/
theorem user_le (h : ∀ v, S'.entry v = none ∨ S'.entry v = S.entry v) : S'.user ≤ S.user := by
  apply heldIn_le
  intro v _
  unfold Space.page
  rcases h v with hv | hv
  · exact .inl (by rw [hv]; rfl)
  · exact .inr (by rw [hv])

/-- Where pages leave the space, they are free or part of its tables afterwards. -/
theorem skeleton_le (htotal : (l' : Multiset ℕ) + S'.pages = (l : Multiset ℕ) + S.pages)
    (huser : S'.user ≤ S.user) :
    (l : Multiset ℕ) + S.skeleton ≤ (l' : Multiset ℕ) + S'.skeleton := by
  apply le_of_add_le_add_right (a := S'.user)
  calc (l : Multiset ℕ) + S.skeleton + S'.user
      ≤ (l : Multiset ℕ) + S.skeleton + S.user := by gcongr
    _ = (l' : Multiset ℕ) + S'.skeleton + S'.user := by
      rw [add_assoc, add_assoc]
      exact htotal.symm

namespace Shrinks

theorem refl (k : Kmem) (S : Space) (l : List ℕ) : Shrinks k S l k S l :=
  ⟨rfl, fun _ _ h => h, rfl, fun _ => .inr rfl, .refl _, rfl⟩

theorem trans (h₁ : Shrinks k S l k₁ S₁ l₁) (h₂ : Shrinks k₁ S₁ l₁ k₂ S₂ l₂) :
    Shrinks k S l k₂ S₂ l₂ where
  pgdir := h₂.pgdir.trans h₁.pgdir
  table i t ht := h₂.table i t (h₁.table i t ht)
  total := h₂.total.trans h₁.total
  entry v := by
    rcases h₂.entry v with hv | hv
    · exact .inl hv
    · rw [hv]
      exact h₁.entry v
  agree := by
    refine (h₁.agree.mono (subset_of_le ?_)).trans h₂.agree
    exact skeleton_le h₂.total (user_le h₂.entry)
  denied := h₂.denied.trans h₁.denied

/-- What is linked on the way and given back at the end leaves no trace. -/
theorem of_agree (hpgdir : S₂.pgdir = S.pgdir)
    (htable : ∀ i t, S.table i = some t → S₂.table i = some t)
    (htotal : (l₂ : Multiset ℕ) + S₂.pages = (l : Multiset ℕ) + S.pages)
    (hentry : ∀ v, S₂.entry v = none ∨ S₂.entry v = S.entry v)
    (h₁ : AgreeOff PGSIZE ((l : Multiset ℕ) + S.skeleton) k.ram k₁.ram)
    (h₂ : AgreeOff PGSIZE ((l₂ : Multiset ℕ) + S₂.skeleton) k₁.ram k₂.ram)
    (hdenied : k₂.denied = k.denied) : Shrinks k S l k₂ S₂ l₂ where
  pgdir := hpgdir
  table := htable
  total := htotal
  entry := hentry
  agree := (h₁.mono (subset_of_le (skeleton_le htotal (user_le hentry)))).trans h₂
  denied := hdenied

theorem of_grows (h₁ : Grows k S l held k₁ S₁ l₁ held) (h₂ : Shrinks k₁ S₁ l₁ k₂ S₂ l₂)
    (hentry : ∀ v, S₂.entry v = none ∨ S₂.entry v = S.entry v) : Shrinks k S l k₂ S₂ l₂ :=
  of_agree (h₂.pgdir.trans h₁.pgdir) (fun i t ht => h₂.table i t (h₁.table i t ht))
    (h₂.total.trans (add_right_cancel h₁.total)) hentry h₁.agree h₂.agree
    (h₂.denied.trans h₁.denied)

variable (h : Shrinks k S l k₁ S₁ l₁) (hafter : Owned L k₁ S₁ l₁ held)

include h hafter

/-- User pages that are still there keep their contents. -/
theorem user (hpa : pa ∈ S₁.user) {a : ℕ} (ha : blockOf PGSIZE a = pa) : k₁.ram a = k.ram a := by
  apply h.agree
  rw [ha]
  intro hmem
  rcases mem_add.mp hmem with hfree | hskeleton
  · exact hafter.notMem_pages_of_free hfree (mem_add.mpr (.inr hpa))
  · exact hafter.notMem_user_of_skeleton hskeleton hpa

/-- Pages that others hold keep their contents. -/
theorem others (hpa : pa ∈ held) {a : ℕ} (ha : blockOf PGSIZE a = pa) : k₁.ram a = k.ram a := by
  apply h.agree
  rw [ha]
  intro hmem
  rcases mem_add.mp hmem with hfree | hskeleton
  · exact hafter.notMem_held_of_free hfree hpa
  · exact hafter.notMem_held_of_pages (mem_add.mpr (.inl hskeleton)) hpa

theorem agreeOn :
    AgreeOn PGSIZE held k.ram k₁.ram := fun _ ha => h.others hafter ha rfl

end Shrinks

/-- Freeing a page and clearing its entry in another page can be done in either order. -/
theorem kfree_store_comm (hpa : L.Page pa) (ht : t % PGSIZE = 0) (hne : t ≠ pa) {j : ℕ}
    (hj : j < 1024) :
    (k.kfree L pa).map (fun k => k.store (t + 4 * j) 0) = (k.store (t + 4 * j) 0).kfree L pa := by
  have hin : ¬(pa % PGSIZE ≠ 0 ∨ pa < L.kernelEnd ∨ pa ≥ PHYSTOP) := by
    have haligned := hpa.aligned
    have habove := hpa.above
    have hbelow := hpa.below
    omega
  have hpa' := hpa.aligned
  unfold Kmem.kfree
  rw [if_neg hin, if_neg hin]
  unfold Kmem.store
  dsimp only [Except.map]
  congr 2
  funext a
  unfold putLE fill
  beta_reduce
  by_cases ha : t + 4 * j ≤ a ∧ a < t + 4 * j + 4
  · have hout : ¬(pa ≤ a ∧ a < pa + PGSIZE) := by
      rw [pgsize_eq] at hpa' ht ⊢
      omega
    have hout' : ¬(pa ≤ a ∧ a < pa + 4) := by
      rw [pgsize_eq] at hout
      omega
    rw [if_pos ha, if_neg hout', if_neg hout, if_pos ha]
  · rw [if_neg ha, if_neg ha]

theorem Space.At.table_mod {ram : Memory} {i t : ℕ} (h : S.At ram) (hi : i < 1024)
    (ht : S.table i = some t) : t % PGSIZE = 0 := by
  have hdir := h.dir i hi
  rw [ht] at hdir
  obtain ⟨e, -, rfl⟩ := Option.map_eq_some_iff.mp hdir
  exact addr_mod e

/-- A round of the loop of `deallocuvm` at a page that is not mapped changes nothing. -/
theorem Space.At.deallocPage_unmapped (hS : S.At k.ram) (hva : a < 2 ^ 32)
    (hentry : S.entry (a / PGSIZE) = none) : ∃ b, k.deallocPage L S.pgdir a = .ok (b, k) := by
  unfold Kmem.deallocPage
  rw [hS.walkpgdir]
  cases ht : S.table (PDX a) with
  | none => exact ⟨_, rfl⟩
  | some t =>
    have hload := hS.load_entry hva ht
    rw [hentry, present_eq_none] at hload
    exact ⟨a, if_neg (not_not.mpr hload)⟩

/-- A round at a mapped page. Its entry is cleared after the page is freed, which makes no
difference. -/
theorem Space.At.deallocPage_mapped (hS : S.At k.ram) (hva : a < 2 ^ 32)
    (hpage : S.page (a / PGSIZE) = some pa) (hpa : L.Page pa) (hnot : pa ∉ S.skeleton) :
    ∃ t, S.table (PDX a) = some t ∧ k.deallocPage L S.pgdir a =
      ((k.store (t + 4 * PTX a) 0).kfree L pa).map fun k => (a, k) := by
  unfold Kmem.deallocPage
  rw [hS.walkpgdir]
  cases ht : S.table (PDX a) with
  | none =>
    rw [Space.page, hS.entry_of_table_none hva ht] at hpage
    cases hpage
  | some t =>
    have htmem : t ∈ S.skeleton := Space.mem_skeleton.mpr (.inr ⟨_, PDX_lt a, ht⟩)
    rw [Space.page, ← hS.load_entry hva ht, Option.map_eq_some_iff] at hpage
    obtain ⟨e, he, rfl⟩ := hpage
    obtain ⟨hp, ⟨⟩⟩ := Option.ite_none_right_eq_some.mp he
    have hcomm := kfree_store_comm (k := k) hpa (hS.table_mod (PDX_lt a) ht)
      (fun heq => hnot (heq ▸ htmem)) (PTX_lt a)
    refine ⟨t, rfl, ?_⟩
    dsimp only [Option.map_some]
    rw [if_pos hp, if_neg (Nat.ne_of_gt hpa.pos), ← hcomm]
    cases k.kfree L (PTE_ADDR (load k.ram (t + 4 * PTX a))) with
    | error e => rfl
    | ok k₁ => rfl

/-- **One round of the loop of `deallocuvm`.** The entry of the page is cleared, if there is one,
and the page given back. -/
theorem Owned.deallocPage (h : Owned L k S l held) (hlt : a < KERNBASE) :
    ∃ b k' S' l', k.deallocPage L S.pgdir a = .ok (b, k') ∧ Owned L k' S' l' held ∧
      Shrinks k S l k' S' l' ∧ S'.entry = update S.entry (a / PGSIZE) none := by
  have hva : a < 2 ^ 32 := hlt.trans (by decide)
  cases hpage : S.page (a / PGSIZE) with
  | none =>
    have hentry : S.entry (a / PGSIZE) = none := Option.map_eq_none_iff.mp hpage
    obtain ⟨b, hrun⟩ := h.space.deallocPage_unmapped hva hentry
    refine ⟨b, k, S, l, hrun, h, .refl k S l, ?_⟩
    rw [← hentry, update_eq_self]
  | some pa =>
    -- the page is mapped; it leaves the space and joins the free list
    have hv : a / PGSIZE < NUSER := Nat.div_lt_of_lt_mul hlt
    have hmem : pa ∈ S.user := Space.mem_user.mpr ⟨_, hv, hpage⟩
    obtain ⟨t, ht, hround⟩ := h.space.deallocPage_mapped hva hpage (h.page_user hmem)
      fun hmem' => h.notMem_user_of_skeleton hmem' hmem
    rw [PDX_eq hva] at ht
    have hset := h.setEntry ({pa} + held) (Nat.lt_trans hv (by decide)) ht (e := 0) (by decide) (by
      rw [if_pos hv, present_zero, Option.map_none, holds_none, add_zero, hpage, holds_some,
        add_comm])
    obtain ⟨hcleared, hgrows⟩ := hset
    obtain ⟨ram, hrun, hown, hagree⟩ := hcleared.kfree rfl
    refine ⟨a, _, _, pa :: l, ?_, hown, ⟨rfl, fun _ _ ht => ht, ?_, ?_, ?_, rfl⟩, rfl⟩
    · rw [hround, PTX_eq, hrun]
      rfl
    · apply add_right_cancel (b := held)
      rw [← hgrows.total, ← cons_coe, ← singleton_add]
      abel
    · intro w
      by_cases hw : w = a / PGSIZE
      · exact .inl (hw ▸ Space.setEntry_entry_self)
      · exact .inr (Space.setEntry_entry_of_ne hw)
    · refine (hgrows.agree.mono ?_).trans (hagree.mono ?_)
      · rw [← cons_coe, cons_add]
        exact subset_cons _ _
      · intro q hq
        rw [mem_singleton] at hq
        rw [hq, ← cons_coe, cons_add]
        exact mem_cons_self _ _

/-- The pages from the address `a` on, `n` of them. -/
theorem Owned.plainLoop {n : ℕ} (h : Owned L k S l held) (ha : a % PGSIZE = 0)
    (hn : a + PGSIZE * n ≤ KERNBASE + (PGSIZE - 1)) :
    ∃ k' S' l', Kmem.plainLoop L S.pgdir n a k = .ok k' ∧ Owned L k' S' l' held ∧
      Shrinks k S l k' S' l' ∧ S'.entry = cleared a (a + PGSIZE * n) S.entry := by
  induction n generalizing a k S l with
  | zero => exact ⟨k, S, l, rfl, h, .refl k S l, (cleared_of_le (le_refl a) _).symm⟩
  | succ n ih =>
    have hlt : a < KERNBASE ∧ a < a + PGSIZE * (n + 1) := by
      rw [kernbase_eq, pgsize_eq] at hn
      rw [pgsize_eq] at ha
      rw [kernbase_eq, pgsize_eq]
      omega
    have hend : a + PGSIZE + PGSIZE * n = a + PGSIZE * (n + 1) := by
      rw [Nat.mul_succ, Nat.add_assoc, Nat.add_comm PGSIZE]
    obtain ⟨b, k₁, S₁, l₁, hrun, hown, hshrinks, hentry⟩ := h.deallocPage hlt.1
    obtain ⟨k', S', l', hloop, hown', hshrinks', hentry'⟩ := ih hown (a := a + PGSIZE)
      (by rw [Nat.add_mod_right, ha]) (by rw [hend]; exact hn)
    refine ⟨k', S', l', ?_, hown', hshrinks.trans hshrinks', ?_⟩
    · rw [hshrinks.pgdir] at hloop
      simp only [Kmem.plainLoop, hrun, bind, Except.bind, hloop]
    · rw [hentry', hentry, hend]
      exact cleared_succ (Nat.mul_div_cancel' (Nat.dvd_of_mod_eq_zero ha)).symm hlt.2

/-- **Unmapping.** The pages between the two sizes, and no others, are unmapped and given back. -/
theorem Owned.deallocuvm {oldsz newsz : ℕ} (h : Owned L k S l held) (hold : oldsz ≤ KERNBASE)
    (hlt : newsz < oldsz) :
    ∃ k' S' l', k.deallocuvm L S.pgdir oldsz newsz = .ok (newsz, k') ∧ Owned L k' S' l' held ∧
      Shrinks k S l k' S' l' ∧ S'.entry = cleared (PGROUNDUP newsz) oldsz S.entry := by
  have hmod := pgroundup_mod newsz
  have hle := pgroundup_le_pages hold hlt
  rw [Kmem.deallocuvm, if_neg (Nat.not_le.mpr hlt)]
  generalize PGROUNDUP newsz = a at hmod hle ⊢
  obtain ⟨n, hn⟩ : ∃ n, n = (oldsz + PGSIZE - 1 - a) / PGSIZE := ⟨_, rfl⟩
  have hbound : n < 2 ^ 20 + 1 ∧ a + PGSIZE * n ≤ KERNBASE + (PGSIZE - 1) := by
    rw [kernbase_eq] at hold
    rw [pgsize_eq] at hn hle
    rw [kernbase_eq, pgsize_eq]
    omega
  obtain ⟨k', S', l', hrun, hown, hshrinks, hentry⟩ := h.plainLoop hmod hbound.2
  refine ⟨k', S', l', ?_, hown, hshrinks, ?_⟩
  · rw [deallocLoop_eq_plain hmod hold hn hbound.1, hrun]
    rfl
  · rw [hentry]
    funext v
    exact if_congr (and_congr_right (mul_lt_pages hmod hn)) rfl rfl

/-! ### Mapping -/

/-- The pages from the address `a` up to `b` are mapped to zeroed pages that the user may write;
the other entries are the old ones. -/
structure Filled (entry : ℕ → Option ℕ) (a b : ℕ) (k' : Kmem) (S' : Space) : Prop where
  other : ∀ v, ¬(a ≤ PGSIZE * v ∧ PGSIZE * v < b) → S'.entry v = entry v
  fresh : ∀ v, a ≤ PGSIZE * v → PGSIZE * v < b →
    ∃ pa, S'.entry v = some (pa ||| (PTE_W ||| PTE_U) ||| PTE_P) ∧ pa % PGSIZE = 0 ∧
      ∀ x, blockOf PGSIZE x = pa → k'.ram x = 0

theorem Filled.of_done {b : ℕ} (h : ¬ a < b) : Filled S.entry a b k S :=
  ⟨fun _ _ => rfl, fun _ hv hv' => absurd (Nat.lt_of_le_of_lt hv hv') h⟩

/-- Why pages cannot be mapped: a call of `kalloc` is denied, or the pages that are free do not
suffice for `n` pages and all page tables. -/
def Starved (k : Kmem) (S : Space) (l : List ℕ) (n : ℕ) : Prop :=
  (∃ c, k.denied c = true) ∨ l.length + S.skeleton.card ≤ 1026 + n

theorem Starved.of_length_le {n : ℕ} (h : l.length ≤ 1) : Starved k S l n := by
  right
  have hcard := S.card_skeleton_le
  exact Nat.le_trans (Nat.add_le_add h hcard) (Nat.le_add_right 1026 n)

/-- Each page that is mapped takes one of the free pages, each new table another one. -/
theorem Starved.cons {n m : ℕ} (h : Starved k₁ S₁ l₁ m) (hgrows : Grows k S l held k₁ S₁ l₁ held)
    (huser : S₁.user.card = S.user.card + 1) (hm : n = m + 1) : Starved k S l n := by
  rcases h with ⟨c, hc⟩ | hlen
  · exact .inl ⟨c, hgrows.denied ▸ hc⟩
  · right
    have htotal := congrArg card (add_right_cancel hgrows.total)
    unfold Space.pages at htotal
    rw [card_add, card_add, card_add, card_add,
      coe_card, coe_card] at htotal
    omega

/-- One more page is mapped in front. -/
theorem Filled.cons {entry : ℕ → Option ℕ} (h : Filled S₁.entry (a + PGSIZE) b k' S')
    (hv : a = PGSIZE * v) (hlt : a < b)
    (hentry : S₁.entry = update entry v (some (pa ||| (PTE_W ||| PTE_U) ||| PTE_P)))
    (hpa : pa % PGSIZE = 0) (hzero : ∀ x, blockOf PGSIZE x = pa → k'.ram x = 0) :
    Filled entry a b k' S' where
  other w hw := by
    by_cases hwv : w = v
    · exact absurd ⟨le_of_eq (hwv ▸ hv), hwv ▸ hv ▸ hlt⟩ hw
    · rw [h.other w (fun hin => hw ⟨Nat.le_trans (Nat.le_add_right _ _) hin.1, hin.2⟩), hentry,
        update_of_ne hwv]
  fresh w hw hw' := by
    by_cases hwv : w = v
    · subst hwv
      refine ⟨pa, ?_, hpa, hzero⟩
      rw [h.other w, hentry, update_self]
      rw [hv, pgsize_eq]
      omega
    · refine h.fresh w ?_ hw'
      rw [hv, pgsize_eq] at hw ⊢
      omega

/-- A page that has been taken is cleared. -/
theorem Owned.clear {mem : ℕ} (hown : Owned L k₁ S l₁ ({mem} + held)) (hl : l = mem :: l₁)
    (hgrows : Grows k S l held k₁ S l₁ ({mem} + held)) :
    Owned L (k₁.memset mem 0) S l₁ ({mem} + held) ∧
      Grows k S l held (k₁.memset mem 0) S l₁ ({mem} + held) ∧
      ∀ x, blockOf PGSIZE x = mem → (k₁.memset mem 0).ram x = 0 := by
  have hmem : mem ∈ {mem} + held := mem_add.mpr (.inl (mem_singleton_self mem))
  have hpage : L.Page mem := hown.page_held hmem
  have hclear : AgreeOff PGSIZE {mem} k₁.ram (k₁.memset mem 0).ram := agreeOff_fill hpage.aligned
  refine ⟨hown.congr hclear rfl ?_,
    { hgrows with agree := hgrows.agree.trans (hclear.mono ?_) }, ?_⟩
  · intro q hq
    exact mem_add.mpr (.inr (mem_singleton.mp hq ▸ hmem))
  · intro q hq
    rw [mem_singleton.mp hq, hl]
    exact mem_add.mpr (.inl List.mem_cons_self)
  · intro x hx
    obtain ⟨hle, hlt⟩ := (blockOf_eq (by decide) hpage.aligned).mp hx
    exact fill_of_mem hle hlt

/-- What `allocuvm` undoes when there is no page or no page table to be had. -/
theorem Owned.undo {oldsz newsz : ℕ} (hown : Owned L k₁ S₁ l₁ held₁)
    (hgrows : Grows k S l held k₁ S₁ l₁ held₁)
    (hentry : S₁.entry = S.entry) (hnew : newsz < KERNBASE) (hlt : oldsz < newsz) :
    ∃ k₂ S₂ l₂, k₁.deallocuvm L S.pgdir newsz oldsz = .ok (oldsz, k₂) ∧
      Owned L k₂ S₂ l₂ held₁ ∧ Shrinks k₁ S₁ l₁ k₂ S₂ l₂ ∧
      S₂.entry = cleared (PGROUNDUP oldsz) newsz S.entry := by
  obtain ⟨k₂, S₂, l₂, hrun, hown₂, hshrinks, hentry₂⟩ := hown.deallocuvm (le_of_lt hnew) hlt
  rw [hgrows.pgdir] at hrun
  rw [hentry] at hentry₂
  exact ⟨k₂, S₂, l₂, hrun, hown₂, hshrinks, hentry₂⟩

theorem cleared_cases (a b : ℕ) (entry : ℕ → Option ℕ) (v : ℕ) :
    cleared a b entry v = none ∨ cleared a b entry v = entry v := by
  unfold cleared
  split
  · exact .inl rfl
  · exact .inr rfl

/-- **The rounds of `allocuvm` from the address `a` on.** They fill the space up to `newsz`, or
there is no page for one of them and all that the call has mapped is given back. -/
theorem Owned.allocLoop {n oldsz newsz : ℕ} (h : Owned L k S l held) (ha : a % PGSIZE = 0)
    (hold : oldsz ≤ KERNBASE) (hle : PGROUNDUP oldsz ≤ a) (hnew : newsz < KERNBASE)
    (hn : newsz ≤ a + PGSIZE * n)
    (hnone : ∀ v, a ≤ PGSIZE * v → PGSIZE * v < newsz → S.entry v = none) :
    ∃ r k' S' l', Kmem.allocLoop L S.pgdir oldsz newsz (n + 1) a k = .ok (r, k') ∧
      Owned L k' S' l' held ∧
      ((r = newsz ∧ Grows k S l held k' S' l' held ∧ Filled S.entry a newsz k' S' ∧
          (S.Tight → S'.Tight)) ∨
        (r = 0 ∧ a < newsz ∧ Shrinks k S l k' S' l' ∧
          S'.entry = cleared (PGROUNDUP oldsz) newsz S.entry ∧
          Starved k S l ((newsz + PGSIZE - 1 - a) / PGSIZE))) := by
  -- what is mapped already is part of `S`, so a round that fails undoes the ones before it as well
  induction n generalizing a k S l with
  | zero =>
    have hdone : ¬ a < newsz := Nat.not_lt.mpr hn
    exact ⟨newsz, k, S, l, if_neg hdone, h, .inl ⟨rfl, .refl k S l held, .of_done hdone, id⟩⟩
  | succ n ih =>
    by_cases hlt : a < newsz
    swap
    · exact ⟨newsz, k, S, l, if_neg hlt, h, .inl ⟨rfl, .refl k S l held, .of_done hlt, id⟩⟩
    have hbase : a < KERNBASE := hlt.trans hnew
    have hsz : oldsz < newsz := Nat.lt_of_le_of_lt ((le_pgroundup hold).trans hle) hlt
    have hva : a < 2 ^ 32 := hbase.trans (by decide)
    rw [Kmem.allocLoop, if_pos hlt]
    rcases h.kalloc with ⟨hrun, hown, hgrows, hwhy⟩ | ⟨mem, l₁, k₁, hrun, hl, -, hown, hgrows⟩
    · -- there is no page
      obtain ⟨k₂, S₂, l₂, hundo, hown₂, hshrinks, hentry₂⟩ := hown.undo hgrows rfl hnew hsz
      refine ⟨0, k₂, S₂, l₂, ?_, hown₂, .inr ⟨rfl, hlt, ?_, hentry₂, ?_⟩⟩
      · simp only [hrun, hundo, bind, Except.bind, pure, Except.pure]
      · exact .of_grows hgrows hshrinks fun v => hentry₂ ▸ cleared_cases _ _ _ v
      · rcases hwhy with rfl | hdenied
        · exact .of_length_le (Nat.zero_le 1)
        · exact .inl ⟨_, hdenied⟩
    obtain ⟨hown₂, hgrows₂, hzero⟩ := hown.clear hl hgrows
    have hpage : L.Page mem := hown.page_held (mem_add.mpr (.inl (mem_singleton_self mem)))
    have hv : a / PGSIZE < NUSER := Nat.div_lt_of_lt_mul hbase
    have hav : PGSIZE * (a / PGSIZE) = a := Nat.mul_div_cancel' (Nat.dvd_of_mod_eq_zero ha)
    have hentry : S.entry (a / PGSIZE) = none := by
      apply hnone
      · rw [hav]
      · rwa [hav]
    obtain ⟨mapped, k₃, S₃, l₃, hmap, hcases⟩ := hown₂.mapPage
      (PTE_W ||| PTE_U) held hva hpage.aligned (hpage.below.trans (by decide)) (by decide)
      hentry (by rw [if_pos hv])
    have hpages := (k₁.memset mem 0).mappages_page S.pgdir mem (PTE_W ||| PTE_U) ha hva
    rw [hmap] at hpages
    rcases hcases with ⟨rfl, hown₃, hgrows₃, hentry₃, hwhy⟩ |
      ⟨rfl, hown₃, hgrows₃, hentry₃, htight₃⟩
    · -- there is no page table; the page that was to be mapped is freed last
      have hG := hgrows₂.trans hgrows₃
      obtain ⟨k₄, S₄, l₄, hundo, hown₄, hshrinks, hentry₄⟩ := hown₃.undo hG hentry₃ hnew hsz
      obtain ⟨ram, hfree, hown₅, hagree⟩ := hown₄.kfree rfl
      refine ⟨0, _, S₄, mem :: l₄, ?_, hown₅, .inr ⟨rfl, hlt, ?_, hentry₄, ?_⟩⟩
      · simp only [hrun, hpages, Except.map, bind, Except.bind, Bool.false_eq_true, if_false,
          hundo, hfree, pure, Except.pure]
        rfl
      · refine .of_agree (hshrinks.pgdir.trans hG.pgdir)
          (fun i t ht => hshrinks.table i t (hG.table i t ht)) ?_
          (fun v => hentry₄ ▸ cleared_cases _ _ _ v) hG.agree
          ((hshrinks.agree.mono ?_).trans (hagree.mono ?_)) (hshrinks.denied.trans hG.denied)
        · apply add_right_cancel (b := held)
          rw [← hG.total, ← hshrinks.total, ← cons_coe, ← singleton_add]
          abel
        · rw [← cons_coe, cons_add]
          exact subset_cons _ _
        · intro q hq
          rw [mem_singleton.mp hq, ← cons_coe, cons_add]
          exact mem_cons_self _ _
      · rcases hwhy with rfl | hdenied
        · rw [hl]
          exact .of_length_le (le_refl 1)
        · exact .inl ⟨_, hgrows₂.denied ▸ hdenied⟩
    -- the page is mapped, and the loop goes on
    have hG := hgrows₂.trans hgrows₃
    have hnext : (a + PGSIZE) % 2 ^ 32 = a + PGSIZE := by
      rw [kernbase_eq] at hbase
      rw [pgsize_eq]
      omega
    have hne : ∀ v, a + PGSIZE ≤ PGSIZE * v → v ≠ a / PGSIZE := by
      rintro v hv' rfl
      rw [hav, pgsize_eq] at hv'
      omega
    obtain ⟨r, k', S', l', hloop, hown', hcases⟩ := ih hown₃ (a := a + PGSIZE)
      (by rw [Nat.add_mod_right, ha]) (Nat.le_add_right_of_le hle)
      (by rw [Nat.mul_succ] at hn; omega) (by
        intro v hv' hv''
        rw [hentry₃, update_of_ne (hne v hv')]
        exact hnone v (Nat.le_trans (Nat.le_add_right _ _) hv') hv'')
    refine ⟨r, k', S', l', ?_, hown', ?_⟩
    · rw [hG.pgdir] at hloop
      simp only [hrun, hpages, Except.map, bind, Except.bind, if_true, hnext]
      exact hloop
    · rcases hcases with ⟨rfl, hgrows', hfilled, htight'⟩ | ⟨rfl, -, hshrinks, hentry', hstarved⟩
      · -- later rounds do not touch the page, which was cleared before it was mapped
        refine .inl ⟨rfl, hG.trans hgrows',
          hfilled.cons hav.symm hlt hentry₃ hpage.aligned ?_, fun ht => htight' (htight₃ ht)⟩
        intro x hx
        have hmem : mem ∈ S₃.user := by
          refine Space.mem_user.mpr ⟨a / PGSIZE, hv, ?_⟩
          rw [Space.page, hentry₃, update_self, Option.map_some, Nat.or_assoc,
            addr_lor hpage.aligned (by decide)]
        rw [hgrows'.user hown₃ hmem hx, hgrows₃.others hown₂
          (mem_add.mpr (.inl (mem_singleton_self mem))) hx, hzero x hx]
      · -- a later round fails; it clears the entry of this one too
        have hclear : S'.entry = cleared (PGROUNDUP oldsz) newsz S.entry := by
          rw [hentry', hentry₃]
          exact cleared_update (hav.symm ▸ hle) (hav.symm ▸ hlt)
        refine .inr ⟨rfl, hlt, .of_grows hG hshrinks fun v => hclear ▸ cleared_cases _ _ _ v,
          hclear, hstarved.cons hG ?_ ?_⟩
        · have huser := Space.user_update hentry₃ hv
          rw [Space.page, hentry, Option.map_none, holds_none, add_zero, Option.map_some,
            holds_some] at huser
          rw [huser, card_add, card_singleton]
        · rw [pgsize_eq] at ha ⊢
          omega

/-- **Mapping.** The pages between the two sizes are mapped to zeroed pages, or the space is as it
was. -/
theorem Owned.allocuvm {oldsz newsz : ℕ} (h : Owned L k S l held) (hle : oldsz ≤ newsz)
    (hnew : newsz < KERNBASE)
    (hnone : ∀ v, oldsz ≤ PGSIZE * v → PGSIZE * v < newsz → S.entry v = none) :
    ∃ r k' S' l', k.allocuvm L S.pgdir oldsz newsz = .ok (r, k') ∧ Owned L k' S' l' held ∧
      ((r = newsz ∧ Grows k S l held k' S' l' held ∧
          Filled S.entry (PGROUNDUP oldsz) newsz k' S' ∧ (S.Tight → S'.Tight)) ∨
        (r = 0 ∧ PGROUNDUP oldsz < newsz ∧ Shrinks k S l k' S' l' ∧ S'.entry = S.entry ∧
          Starved k S l ((newsz + PGSIZE - 1 - PGROUNDUP oldsz) / PGSIZE))) := by
  have hold : oldsz ≤ KERNBASE := hle.trans (le_of_lt hnew)
  have hnone' : ∀ v, PGROUNDUP oldsz ≤ PGSIZE * v → PGSIZE * v < newsz → S.entry v = none :=
    fun v hv hv' => hnone v ((le_pgroundup hold).trans hv) hv'
  have hfuel : newsz ≤ PGROUNDUP oldsz + PGSIZE * 2 ^ 20 := by
    rw [kernbase_eq] at hnew
    rw [pgsize_eq]
    omega
  obtain ⟨r, k', S', l', hrun, hown, hcases⟩ :=
    h.allocLoop (pgroundup_mod oldsz) hold (le_refl _) hnew hfuel hnone'
  refine ⟨r, k', S', l', ?_, hown, ?_⟩
  · rw [Kmem.allocuvm, if_neg (Nat.not_le.mpr hnew), if_neg (Nat.not_lt.mpr hle), hrun]
  · rcases hcases with hdone | ⟨hr, hlt, hshrinks, hentry, hstarved⟩
    · exact .inl hdone
    · refine .inr ⟨hr, hlt, hshrinks, ?_, hstarved⟩
      rw [hentry]
      funext v
      unfold cleared
      split
      · next hv => exact (hnone' v hv.1 hv.2).symm
      · rfl

end Shrinks

end Xv6.Vm
