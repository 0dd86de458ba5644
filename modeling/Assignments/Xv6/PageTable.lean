import Assignments.Xv6.Kalloc

/-!
# Page tables

`walkpgdir` and `mappages` of `vm.c` over the bytes of physical memory, and the address space that
a page directory describes.

A `Space` is what the words of a directory and of its page tables say: which tables there are and
which entries of them are present. `Space.At` ties it to memory. The pages it holds are the
directory, the tables and the user pages, those mapped below `KERNBASE`; what is mapped above is the
kernel's own memory and belongs to nobody.

`Owned L k S l held` is the state that all routines of `vm.c` work in: the free list is `l`, the
space `S` is in memory, and no page is on the list, in the space and in the hands of others (`held`)
twice. What a routine leaves alone is said by the pages it writes to.

* `Space.At.walkpgdir`, `Owned.walkpgdir_true` — a page table is looked up, and taken from the free
  list if there is none;
* `Owned.setEntry` — an entry is written, and a page moves into the space or out of it;
* `Owned.mapPage` — one round of `mappages`.
-/

namespace Xv6.Vm

open Framework Function
open Multiset hiding bind
open Xv6.Ptable (PGSIZE KERNBASE)

abbrev PTE_P : ℕ := 0x001

abbrev PTE_W : ℕ := 0x002

abbrev PTE_U : ℕ := 0x004

/-- The number of pages below `KERNBASE`. -/
abbrev NUSER : ℕ := 0x80000

def PDX (va : ℕ) : ℕ := va / 2 ^ 22 % 1024

def PTX (va : ℕ) : ℕ := va / 2 ^ 12 % 1024

def PTE_ADDR (pte : ℕ) : ℕ := pte / PGSIZE * PGSIZE

def PTE_FLAGS (pte : ℕ) : ℕ := pte % PGSIZE

def PGROUNDDOWN (a : ℕ) : ℕ := a / PGSIZE * PGSIZE

/-- The word at a physical address. -/
def load (ram : Memory) (a : ℕ) : ℕ := getLE ram a 4

namespace Kmem

def store (k : Kmem) (a v : ℕ) : Kmem := { k with ram := putLE k.ram a 4 v }

/-- `memset(v, c, PGSIZE)`. -/
def memset (k : Kmem) (v : ℕ) (c : Byte) : Kmem := { k with ram := fill k.ram v PGSIZE c }

/-- The address of the entry for `va`, or `none` for a null pointer. -/
def walkpgdir (k : Kmem) (pgdir va : ℕ) (alloc : Bool) : Option ℕ × Kmem :=
  let pde := pgdir + 4 * PDX va
  if load k.ram pde &&& PTE_P ≠ 0 then
    (some (PTE_ADDR (load k.ram pde) + 4 * PTX va), k)
  else if alloc then
    match k.kalloc with
    | (none, k) => (none, k)
    | (some pgtab, k) =>
      let k := k.memset pgtab 0
      let k := k.store pde (pgtab ||| PTE_P ||| PTE_W ||| PTE_U)
      (some (pgtab + 4 * PTX va), k)
  else
    (none, k)

/-- One round of the loop of `mappages`; `false` when there is no page table to be had. -/
def mapPage (k : Kmem) (pgdir a pa perm : ℕ) : Except Halt (Bool × Kmem) :=
  match k.walkpgdir pgdir a true with
  | (none, k) => .ok (false, k)
  | (some pte, k) =>
    if load k.ram pte &&& PTE_P ≠ 0 then .error (.panic "remap")
    else .ok (true, k.store pte (pa ||| perm ||| PTE_P))

/-- The loop of `mappages`. It ends at `last` after at most as many rounds as there are pages in
the address space. -/
def mapLoop (pgdir last perm : ℕ) : ℕ → ℕ → ℕ → Kmem → Except Halt (ℤ × Kmem)
  | 0, _, _, _ => .error .loop
  | fuel + 1, a, pa, k => do
    let (mapped, k) ← k.mapPage pgdir a pa perm
    if mapped = false then return (-1, k)
    if a = last then return (0, k)
    mapLoop pgdir last perm fuel ((a + PGSIZE) % 2 ^ 32) ((pa + PGSIZE) % 2 ^ 32) k

def mappages (k : Kmem) (pgdir va size pa perm : ℕ) : Except Halt (ℤ × Kmem) :=
  let last := PGROUNDDOWN ((va + size + (2 ^ 32 - 1)) % 2 ^ 32)
  mapLoop pgdir last perm (2 ^ 20) (PGROUNDDOWN va) pa k

end Kmem

/-- A call of `mappages` for one page is one round of its loop. -/
theorem Kmem.mappages_page (k : Kmem) (pgdir pa perm : ℕ) {va : ℕ} (hva : va % PGSIZE = 0)
    (hlt : va < 2 ^ 32) :
    k.mappages pgdir va PGSIZE pa perm =
      (k.mapPage pgdir va pa perm).map fun r => (if r.1 then 0 else -1, r.2) := by
  have hfirst : PGROUNDDOWN va = va := Nat.div_mul_cancel (Nat.dvd_of_mod_eq_zero hva)
  have hlast : PGROUNDDOWN ((va + PGSIZE + (2 ^ 32 - 1)) % 2 ^ 32) = va := by
    rw [PGROUNDDOWN, pgsize_eq]
    rw [pgsize_eq] at hva
    omega
  unfold Kmem.mappages
  dsimp only
  rw [hfirst, hlast]
  obtain ⟨fuel, hfuel⟩ : ∃ fuel, 2 ^ 20 = fuel + 1 := ⟨2 ^ 20 - 1, rfl⟩
  rw [hfuel, mapLoop]
  cases k.mapPage pgdir va pa perm with
  | error e => rfl
  | ok r =>
    obtain ⟨mapped, k'⟩ := r
    cases mapped with
    | false => rfl
    | true =>
      simp only [bind, Except.bind, pure, Except.pure, Except.map, Bool.true_eq_false, if_false,
        if_true]

/-! ### Entries -/

/-- A word as an entry, if it is present. -/
def present (e : ℕ) : Option ℕ := if e &&& PTE_P ≠ 0 then some e else none

/-- The present entry of a directory for the virtual page `v`. -/
def Kmem.lookup (k : Kmem) (pgdir v : ℕ) : Option ℕ :=
  (k.walkpgdir pgdir (PGSIZE * v) false).1.bind fun pte => present (load k.ram pte)

theorem present_zero : present 0 = none := rfl

theorem present_of_and {e : ℕ} (h : e &&& PTE_P ≠ 0) : present e = some e := if_pos h

theorem present_eq_none {e : ℕ} : present e = none ↔ e &&& PTE_P = 0 := by
  unfold present
  split
  · next h => exact iff_of_false nofun h
  · next h => exact iff_of_true rfl (not_not.mp h)

theorem present_eq_some {e e' : ℕ} : present e = some e' ↔ e &&& PTE_P ≠ 0 ∧ e = e' := by
  unfold present
  split
  · next h => exact ⟨fun he => ⟨h, Option.some.inj he⟩, fun he => congrArg some he.2⟩
  · next h => exact iff_of_false nofun fun he => h he.1

/-- The words that the kernel stores in its tables: the address of a page and flags. -/
theorem lor_flags {pa flags : ℕ} (hpa : pa % PGSIZE = 0) (hflags : flags < PGSIZE) :
    pa ||| flags = pa + flags := by
  obtain ⟨c, rfl⟩ := Nat.dvd_of_mod_eq_zero hpa
  exact (Nat.two_pow_add_eq_or_of_lt (i := 12) hflags c).symm

theorem lor_lt_pgsize {a b : ℕ} (ha : a < PGSIZE) (hb : b < PGSIZE) : a ||| b < PGSIZE :=
  Nat.or_lt_two_pow (n := 12) ha hb

theorem addr_lor {pa flags : ℕ} (hpa : pa % PGSIZE = 0) (hflags : flags < PGSIZE) :
    PTE_ADDR (pa ||| flags) = pa := by
  rw [lor_flags hpa hflags, PTE_ADDR]
  exact blockOf_add hpa hflags

theorem flags_lor {pa flags : ℕ} (hpa : pa % PGSIZE = 0) (hflags : flags < PGSIZE) :
    PTE_FLAGS (pa ||| flags) = flags := by
  rw [lor_flags hpa hflags, PTE_FLAGS, Nat.add_mod, hpa, Nat.zero_add, Nat.mod_mod,
    Nat.mod_eq_of_lt hflags]

/-- A word is present if one of its flags says so. -/
theorem present_lor {pa flags : ℕ} (h : flags.testBit 0 = true) :
    present (pa ||| flags) = some (pa ||| flags) := by
  apply present_of_and
  rw [Nat.and_one_is_mod]
  have hbit : (pa ||| flags).testBit 0 = true := by rw [Nat.testBit_or, h, Bool.or_true]
  rw [Nat.testBit_zero, decide_eq_true_eq] at hbit
  rw [hbit]
  exact Nat.one_ne_zero

theorem addr_mod (e : ℕ) : PTE_ADDR e % PGSIZE = 0 := Nat.mul_mod_left _ _

/-! ### Address spaces -/

/-- What a page directory and its page tables say: the table of each directory entry, and the
present entry of each virtual page. -/
structure Space where
  pgdir : ℕ
  table : ℕ → Option ℕ
  entry : ℕ → Option ℕ

namespace Space

/-- The space is in memory. -/
structure At (S : Space) (ram : Memory) : Prop where
  dir : ∀ i < 1024, (present (load ram (S.pgdir + 4 * i))).map PTE_ADDR = S.table i
  entries : ∀ i < 1024, ∀ t, S.table i = some t → ∀ j < 1024,
    present (load ram (t + 4 * j)) = S.entry (1024 * i + j)
  absent : ∀ i < 1024, S.table i = none → ∀ j < 1024, S.entry (1024 * i + j) = none

def addTable (S : Space) (i t : ℕ) : Space :=
  { S with table := update S.table i (some t) }

def setEntry (S : Space) (v : ℕ) (o : Option ℕ) : Space :=
  { S with entry := update S.entry v o }

/-- The user page that `v` is mapped to. -/
def page (S : Space) (v : ℕ) : Option ℕ := (S.entry v).map PTE_ADDR

/-- The page tables. -/
noncomputable def tables (S : Space) : Multiset ℕ :=
  heldIn (Finset.range 1024) S.table

/-- The directory and the page tables. -/
noncomputable def skeleton (S : Space) : Multiset ℕ := {S.pgdir} + S.tables

/-- The user pages. -/
noncomputable def user (S : Space) : Multiset ℕ := heldIn (Finset.range NUSER) S.page

/-- All pages of the space. -/
noncomputable def pages (S : Space) : Multiset ℕ := S.skeleton + S.user

/-- No page table is empty. -/
def Tight (S : Space) : Prop := ∀ i, S.table i ≠ none → ∃ v, v / 1024 = i ∧ S.entry v ≠ none

variable {S : Space} {i t v pa : ℕ} {o : Option ℕ}

@[simp] theorem addTable_pgdir : (S.addTable i t).pgdir = S.pgdir := rfl

@[simp] theorem addTable_entry : (S.addTable i t).entry = S.entry := rfl

@[simp] theorem addTable_table_self : (S.addTable i t).table i = some t :=
  update_self ..

theorem addTable_table_of_ne {j : ℕ} (h : j ≠ i) : (S.addTable i t).table j = S.table j :=
  update_of_ne h ..

@[simp] theorem setEntry_pgdir : (S.setEntry v o).pgdir = S.pgdir := rfl

@[simp] theorem setEntry_table : (S.setEntry v o).table = S.table := rfl

@[simp] theorem setEntry_entry_self : (S.setEntry v o).entry v = o := update_self ..

theorem setEntry_entry_of_ne {w : ℕ} (h : w ≠ v) : (S.setEntry v o).entry w = S.entry w :=
  update_of_ne h ..

@[simp] theorem setEntry_skeleton : (S.setEntry v o).skeleton = S.skeleton := rfl

@[simp] theorem addTable_user : (S.addTable i t).user = S.user := rfl

theorem mem_tables : pa ∈ S.tables ↔ ∃ i < 1024, S.table i = some pa := by
  unfold tables
  rw [mem_heldIn]
  simp only [Finset.mem_range]

theorem mem_skeleton : pa ∈ S.skeleton ↔ pa = S.pgdir ∨ ∃ i < 1024, S.table i = some pa := by
  unfold skeleton
  rw [mem_add, mem_singleton, mem_tables]

theorem table_unique {j : ℕ} (h : S.tables.Nodup) (hi : i < 1024) (hj : j < 1024)
    (hti : S.table i = some t) (htj : S.table j = some t) : i = j :=
  heldIn_unique h (Finset.mem_range.mpr hi) (Finset.mem_range.mpr hj) hti htj

theorem page_unique {w : ℕ} (h : S.user.Nodup) (hv : v < NUSER) (hw : w < NUSER)
    (hpv : S.page v = some pa) (hpw : S.page w = some pa) : v = w :=
  heldIn_unique h (Finset.mem_range.mpr hv) (Finset.mem_range.mpr hw) hpv hpw

theorem mem_user : pa ∈ S.user ↔ ∃ v < NUSER, S.page v = some pa := by
  unfold user
  rw [mem_heldIn]
  simp only [Finset.mem_range]

/-- There is one directory, and at most as many page tables as it has entries. -/
theorem card_skeleton_le : S.skeleton.card ≤ 1025 := by
  have htables : S.tables.card ≤ (Finset.range 1024).card := card_heldIn_le
  rw [Finset.card_range] at htables
  unfold skeleton
  rw [card_add, card_singleton]
  omega

/-- A page becomes a page table. -/
theorem addTable_skeleton (hi : i < 1024) (hnone : S.table i = none) :
    (S.addTable i t).skeleton = {t} + S.skeleton := by
  have hsum : heldIn (Finset.range 1024) (update S.table i (some t)) + holds (S.table i)
      = heldIn (Finset.range 1024) S.table + holds (some t) :=
    heldIn_update (Finset.mem_range.mpr hi) (some t)
  rw [hnone, holds_none, add_zero, holds_some] at hsum
  unfold skeleton tables addTable
  rw [hsum]
  abel

/-- The page of an entry is replaced. -/
theorem user_update {S' : Space} (hentry : S'.entry = update S.entry v o)
    (hv : v < NUSER) : S'.user + holds (S.page v) = S.user + holds (o.map PTE_ADDR) := by
  have hpage : S'.page = update S.page v (o.map PTE_ADDR) := by
    funext w
    unfold page
    rw [hentry]
    by_cases hw : w = v
    · rw [hw, update_self, update_self]
    · rw [update_of_ne hw, update_of_ne hw]
  unfold user
  rw [hpage]
  exact heldIn_update (Finset.mem_range.mpr hv) _

/-- Above `KERNBASE` an entry holds no page. -/
theorem setEntry_user_of_le (hv : NUSER ≤ v) : (S.setEntry v o).user = S.user := by
  apply heldIn_congr
  intro w hw
  have hne : w ≠ v := Nat.ne_of_lt (Nat.lt_of_lt_of_le (Finset.mem_range.mp hw) hv)
  unfold page
  rw [setEntry_entry_of_ne hne]

end Space

/-! ### The state that the routines work in -/

/-- The free list is `l`, the space `S` is in memory, and no page is on the list, in the space or
held elsewhere twice. -/
structure Owned (L : Link) (k : Kmem) (S : Space) (l : List ℕ) (held : Multiset ℕ) : Prop where
  free : FreeList k l
  space : S.At k.ram
  nodup : ((l : Multiset ℕ) + S.pages + held).Nodup
  page : ∀ pa ∈ (l : Multiset ℕ) + S.pages + held, L.Page pa

section Owned

variable {L : Link} {k k' : Kmem} {S : Space} {l : List ℕ} {held : Multiset ℕ} {pa va i j t v : ℕ}

theorem lt_nuser (h : PGSIZE * v < KERNBASE) : v < NUSER := Nat.lt_of_mul_lt_mul_left h

theorem PDX_eq (hva : va < 2 ^ 32) : PDX va = va / PGSIZE / 1024 := by
  rw [PDX, pgsize_eq]
  omega

theorem PTX_eq (va : ℕ) : PTX va = va / PGSIZE % 1024 := rfl

theorem PDX_lt (va : ℕ) : PDX va < 1024 := Nat.mod_lt _ (by decide)

theorem PTX_lt (va : ℕ) : PTX va < 1024 := Nat.mod_lt _ (by decide)

/-- The number of the page that the directory entry and the table entry of an address select. -/
theorem index_eq (hva : va < 2 ^ 32) : 1024 * PDX va + PTX va = va / PGSIZE := by
  rw [PDX_eq hva, PTX_eq]
  exact Nat.div_add_mod _ _

theorem load_congr {ram ram' : Memory} {ps : Multiset ℕ} (h : AgreeOff PGSIZE ps ram ram')
    (ht : t % PGSIZE = 0) (hnot : t ∉ ps) (hj : j < 1024) :
    load ram' (t + 4 * j) = load ram (t + 4 * j) :=
  h.getLE ht hnot (by rw [pgsize_eq]; omega)

/-- A space depends on the memory of its directory and its tables only. -/
theorem Space.At.congr {ram ram' : Memory} {ps : Multiset ℕ} (h : S.At ram)
    (hram : AgreeOff PGSIZE ps ram ram') (haligned : ∀ pa ∈ S.skeleton, pa % PGSIZE = 0)
    (hnot : ∀ pa ∈ S.skeleton, pa ∉ ps) : S.At ram' where
  dir i hi := by
    have hmem : S.pgdir ∈ S.skeleton := Space.mem_skeleton.mpr (.inl rfl)
    rw [load_congr hram (haligned _ hmem) (hnot _ hmem) hi]
    exact h.dir i hi
  entries i hi t ht j hj := by
    have hmem : t ∈ S.skeleton := Space.mem_skeleton.mpr (.inr ⟨i, hi, ht⟩)
    rw [load_congr hram (haligned _ hmem) (hnot _ hmem) hj]
    exact h.entries i hi t ht j hj
  absent := h.absent

theorem Space.At.of_agreeOn {ram ram' : Memory} {ps : Multiset ℕ} (h : S.At ram)
    (hram : AgreeOn PGSIZE ps ram ram') (hskeleton : ∀ pa ∈ S.skeleton, pa % PGSIZE = 0 ∧ pa ∈ ps) :
    S.At ram' where
  dir i hi := by
    obtain ⟨haligned, hmem⟩ := hskeleton _ (Space.mem_skeleton.mpr (.inl rfl))
    rw [load, hram.getLE haligned hmem (by rw [pgsize_eq]; omega)]
    exact h.dir i hi
  entries i hi t ht j hj := by
    obtain ⟨haligned, hmem⟩ := hskeleton t (Space.mem_skeleton.mpr (.inr ⟨i, hi, ht⟩))
    rw [load, hram.getLE haligned hmem (by rw [pgsize_eq]; omega)]
    exact h.entries i hi t ht j hj
  absent := h.absent

/-! ### Looking up an entry -/

namespace Space.At

variable (h : S.At k.ram)

include h

/-- Without `alloc`, the address of an entry is found just if there is a page table. -/
theorem walkpgdir (va : ℕ) :
    k.walkpgdir S.pgdir va false = ((S.table (PDX va)).map fun t => t + 4 * PTX va, k) := by
  have hdir := h.dir (PDX va) (PDX_lt va)
  unfold Kmem.walkpgdir
  dsimp only
  by_cases hp : load k.ram (S.pgdir + 4 * PDX va) &&& PTE_P ≠ 0
  · rw [present_of_and hp] at hdir
    rw [if_pos hp, ← hdir]
    rfl
  · rw [present_eq_none.mpr (not_not.mp hp)] at hdir
    rw [if_neg hp, ← hdir]
    rfl

/-- The entry that is found is the one of the space. -/
theorem load_entry (hva : va < 2 ^ 32) (ht : S.table (PDX va) = some t) :
    present (load k.ram (t + 4 * PTX va)) = S.entry (va / PGSIZE) := by
  rw [h.entries _ (PDX_lt va) t ht _ (PTX_lt va), index_eq hva]

theorem entry_of_table_none (hva : va < 2 ^ 32) (ht : S.table (PDX va) = none) :
    S.entry (va / PGSIZE) = none := by
  rw [← index_eq hva]
  exact h.absent _ (PDX_lt va) ht _ (PTX_lt va)

/-- The entries of a space are present. -/
theorem present_entry {e : ℕ} (hv : v < 2 ^ 20) (he : S.entry v = some e) : e &&& PTE_P ≠ 0 := by
  have hi : v / 1024 < 1024 := by omega
  have hj : v % 1024 < 1024 := Nat.mod_lt _ (by decide)
  cases ht : S.table (v / 1024) with
  | none =>
    have hnone := h.absent _ hi ht _ hj
    rw [Nat.div_add_mod, he] at hnone
    cases hnone
  | some t =>
    have hentry := h.entries _ hi t ht _ hj
    rw [Nat.div_add_mod, he, present_eq_some] at hentry
    exact hentry.2 ▸ hentry.1

/-- The entry that a directory in memory has for the page `v` is the one of the space. -/
theorem lookup (hv : v < 2 ^ 20) : k.lookup S.pgdir v = S.entry v := by
  have hva : PGSIZE * v < 2 ^ 32 := by
    rw [pgsize_eq]
    omega
  have hdiv : PGSIZE * v / PGSIZE = v := Nat.mul_div_cancel_left v (by decide)
  unfold Kmem.lookup
  rw [h.walkpgdir]
  cases ht : S.table (PDX (PGSIZE * v)) with
  | none =>
    rw [← hdiv, h.entry_of_table_none hva ht]
    rfl
  | some t =>
    have hload := h.load_entry hva ht
    rw [hdiv] at hload
    exact hload

end Space.At

/-- A word of a page is stored; the other words stay. -/
theorem load_store (t i j e : ℕ) :
    load (k.store (t + 4 * i) e).ram (t + 4 * j) =
      if j = i then e % 2 ^ 32 else load k.ram (t + 4 * j) := by
  unfold load Kmem.store
  dsimp only
  split
  · next heq =>
    rw [heq, getLE_putLE]
    rfl
  · next hne => exact getLE_putLE_of_disjoint (by omega)

/-- An empty page table is linked to the directory. -/
theorem Space.At.addTable {e : ℕ} (h : S.At k.ram) (hi : i < 1024) (hnone : S.table i = none)
    (he : (present (e % 2 ^ 32)).map PTE_ADDR = some t)
    (hempty : ∀ j < 1024, load k.ram (t + 4 * j) = 0) (hpgdir : S.pgdir % PGSIZE = 0)
    (ht : t % PGSIZE = 0) (hne : t ≠ S.pgdir)
    (htables : ∀ j < 1024, ∀ t', S.table j = some t' → t' % PGSIZE = 0 ∧ t' ≠ S.pgdir) :
    (S.addTable i t).At (k.store (S.pgdir + 4 * i) e).ram := by
  have hlink : AgreeOff PGSIZE {S.pgdir} k.ram (k.store (S.pgdir + 4 * i) e).ram :=
    agreeOff_putLE hpgdir (by rw [pgsize_eq]; omega)
  refine ⟨?_, ?_, ?_⟩
  · intro j hj
    rw [addTable_pgdir, load_store]
    by_cases hji : j = i
    · rw [if_pos hji, hji, addTable_table_self]
      exact he
    · rw [if_neg hji, addTable_table_of_ne hji]
      exact h.dir j hj
  · intro j hj t' ht' m hm
    rw [addTable_entry]
    by_cases hji : j = i
    · -- the new table is empty
      subst hji
      rw [addTable_table_self] at ht'
      obtain rfl : t = t' := Option.some.inj ht'
      rw [load_congr hlink ht (fun hmem => hne (mem_singleton.mp hmem)) hm, hempty m hm,
        h.absent j hj hnone m hm]
      rfl
    · rw [addTable_table_of_ne hji] at ht'
      obtain ⟨haligned, hne'⟩ := htables j hj t' ht'
      rw [load_congr hlink haligned (fun hmem => hne' (mem_singleton.mp hmem)) hm]
      exact h.entries j hj t' ht' m hm
  · intro j hj ht' m hm
    rw [addTable_entry]
    by_cases hji : j = i
    · rw [hji, addTable_table_self] at ht'
      cases ht'
    · rw [addTable_table_of_ne hji] at ht'
      exact h.absent j hj ht' m hm

/-- An entry is written to its page table. -/
theorem Space.At.setEntry {e : ℕ} (h : S.At k.ram) (hv : v < 2 ^ 20)
    (ht : S.table (v / 1024) = some t) (haligned : t % PGSIZE = 0)
    (hpgdir : S.pgdir % PGSIZE = 0) (hne : S.pgdir ≠ t)
    (htables : ∀ j < 1024, ∀ t', S.table j = some t' → t' % PGSIZE = 0 ∧ (t' = t → j = v / 1024)) :
    (S.setEntry v (present (e % 2 ^ 32))).At (k.store (t + 4 * (v % 1024)) e).ram := by
  have hi : v / 1024 < 1024 := by omega
  have hwrite : AgreeOff PGSIZE {t} k.ram (k.store (t + 4 * (v % 1024)) e).ram :=
    agreeOff_putLE haligned (by rw [pgsize_eq]; omega)
  refine ⟨?_, ?_, ?_⟩
  · intro j hj
    rw [setEntry_pgdir, setEntry_table,
      load_congr hwrite hpgdir (fun hmem => hne (mem_singleton.mp hmem)) hj]
    exact h.dir j hj
  · intro j hj t' ht' m hm
    rw [setEntry_table] at ht'
    obtain ⟨haligned', honly⟩ := htables j hj t' ht'
    by_cases heq : t' = t
    · -- the table that is written to
      obtain rfl := heq
      obtain rfl := honly rfl
      rw [load_store]
      by_cases hm' : m = v % 1024
      · rw [if_pos hm', hm', Nat.div_add_mod, setEntry_entry_self]
      · rw [if_neg hm', setEntry_entry_of_ne (by omega)]
        exact h.entries _ hi t' ht m hm
    · rw [load_congr hwrite haligned' (fun hmem => heq (mem_singleton.mp hmem)) hm,
        setEntry_entry_of_ne]
      · exact h.entries j hj t' ht' m hm
      · intro hv'
        have hj' : j = v / 1024 := by omega
        rw [hj', ht] at ht'
        exact heq (Option.some.inj ht').symm
  · intro j hj hnone m hm
    rw [setEntry_table] at hnone
    rw [setEntry_entry_of_ne]
    · exact h.absent j hj hnone m hm
    · intro hv'
      have hj' : j = v / 1024 := by omega
      rw [hj', ht] at hnone
      cases hnone

/-- A space in memory whose pages are in someone's hands. -/
theorem Pool.owned (h : Pool L k l (S.pages + held)) (hspace : S.At k.ram) :
    Owned L k S l held where
  free := h.free
  space := hspace
  nodup := (add_assoc (l : Multiset ℕ) S.pages held).symm ▸ h.nodup
  page := (add_assoc (l : Multiset ℕ) S.pages held).symm ▸ h.page

namespace Owned

variable (h : Owned L k S l held)

include h

theorem page_free (hpa : pa ∈ l) : L.Page pa :=
  h.page pa (mem_add.mpr (.inl (mem_add.mpr (.inl hpa))))

theorem page_skeleton (hpa : pa ∈ S.skeleton) : L.Page pa :=
  h.page pa (mem_add.mpr (.inl (mem_add.mpr (.inr
    (mem_add.mpr (.inl hpa))))))

theorem page_user (hpa : pa ∈ S.user) : L.Page pa :=
  h.page pa (mem_add.mpr (.inl (mem_add.mpr (.inr
    (mem_add.mpr (.inr hpa))))))

theorem page_held (hpa : pa ∈ held) : L.Page pa :=
  h.page pa (mem_add.mpr (.inr hpa))

theorem page_pgdir : L.Page S.pgdir := h.page_skeleton (Space.mem_skeleton.mpr (.inl rfl))

theorem page_table (hi : i < 1024) (ht : S.table i = some t) : L.Page t :=
  h.page_skeleton (Space.mem_skeleton.mpr (.inr ⟨i, hi, ht⟩))

theorem nodup_pages : (S.skeleton + S.user).Nodup :=
  nodup_of_le (le_add_left _ _) (nodup_add.mp h.nodup).1

theorem nodup_skeleton : S.skeleton.Nodup := (nodup_add.mp h.nodup_pages).1

theorem nodup_user : S.user.Nodup := (nodup_add.mp h.nodup_pages).2.1

theorem notMem_user_of_skeleton (hpa : pa ∈ S.skeleton) : pa ∉ S.user :=
  disjoint_left.mp (nodup_add.mp h.nodup_pages).2.2 hpa

theorem notMem_pages_of_free (hpa : pa ∈ l) : pa ∉ S.pages :=
  disjoint_left.mp (nodup_add.mp (nodup_add.mp h.nodup).1).2.2 hpa

theorem notMem_skeleton_of_free (hpa : pa ∈ l) : pa ∉ S.skeleton := fun hmem =>
  h.notMem_pages_of_free hpa (mem_add.mpr (.inl hmem))

theorem notMem_held_of_free (hpa : pa ∈ l) : pa ∉ held :=
  disjoint_left.mp (nodup_add.mp h.nodup).2.2
    (mem_add.mpr (.inl hpa))

theorem notMem_held_of_pages (hpa : pa ∈ S.pages) : pa ∉ held :=
  disjoint_left.mp (nodup_add.mp h.nodup).2.2
    (mem_add.mpr (.inr hpa))

theorem pgdir_ne_table (hi : i < 1024) (ht : S.table i = some t) : S.pgdir ≠ t := by
  have hdisjoint := (nodup_add.mp h.nodup_skeleton).2.2
  intro heq
  refine disjoint_left.mp hdisjoint (mem_singleton_self S.pgdir) ?_
  exact Space.mem_tables.mpr ⟨i, hi, heq ▸ ht⟩

/-- Each page table serves one directory entry. -/
theorem table_unique (hi : i < 1024) (hj : j < 1024) (hti : S.table i = some t)
    (htj : S.table j = some t) : i = j :=
  Space.table_unique (nodup_add.mp h.nodup_skeleton).2.1 hi hj hti htj

/-- Each user page is mapped once. -/
theorem page_unique {w : ℕ} (hv : v < NUSER) (hw : w < NUSER) (hpv : S.page v = some pa)
    (hpw : S.page w = some pa) : v = w :=
  Space.page_unique h.nodup_user hv hw hpv hpw

/-- The pages of the space are in someone's hands. -/
theorem pool : Pool L k l (S.pages + held) where
  free := h.free
  nodup := add_assoc (l : Multiset ℕ) S.pages held ▸ h.nodup
  page := add_assoc (l : Multiset ℕ) S.pages held ▸ h.page

/-- Memory may change in user pages and in pages held elsewhere. -/
theorem congr {ps : Multiset ℕ} (hram : AgreeOff PGSIZE ps k.ram k'.ram)
    (hfree : k'.freelist = k.freelist) (hps : ps ⊆ S.user + held) : Owned L k' S l held where
  free := by
    refine h.free.congr (fun pa hpa => h.page_free hpa) hram ?_ hfree
    intro pa hpa hmem
    rcases mem_add.mp (hps hmem) with huser | hheld
    · exact h.notMem_pages_of_free hpa (mem_add.mpr (.inr huser))
    · exact h.notMem_held_of_free hpa hheld
  space := by
    refine h.space.congr hram (fun pa hpa => (h.page_skeleton hpa).aligned) ?_
    intro pa hpa hmem
    rcases mem_add.mp (hps hmem) with huser | hheld
    · exact h.notMem_user_of_skeleton hpa huser
    · exact h.notMem_held_of_pages (mem_add.mpr (.inl hpa)) hheld
  nodup := h.nodup
  page := h.page

/-- **A page is given back** by who holds it. -/
theorem kfree {rest : Multiset ℕ} (hheld : held = {pa} + rest) :
    ∃ ram, k.kfree L pa = .ok { k with ram := ram, freelist := some pa } ∧
      Owned L { k with ram := ram, freelist := some pa } S (pa :: l) rest ∧
      AgreeOff PGSIZE {pa} k.ram ram := by
  have hmem : pa ∈ held := by
    rw [hheld]
    exact mem_add.mpr (.inl (mem_singleton_self pa))
  have htotal : S.pages + held = {pa} + (S.pages + rest) := by
    rw [hheld]
    abel
  obtain ⟨ram, hrun, hpool, hagree⟩ := h.pool.kfree htotal
  refine ⟨ram, hrun, hpool.owned ?_, hagree⟩
  refine h.space.congr hagree (fun pa hpa => (h.page_skeleton hpa).aligned) ?_
  intro q hq hq'
  rw [mem_singleton] at hq'
  exact h.notMem_held_of_pages (mem_add.mpr (.inl hq)) (hq' ▸ hmem)

end Owned

/-- What a routine does that links pages to the space: the directory and its tables stay, no page
is lost, and only free pages, the directory and the page tables are written to. -/
structure Grows (k : Kmem) (S : Space) (l : List ℕ) (held : Multiset ℕ) (k' : Kmem) (S' : Space)
    (l' : List ℕ) (held' : Multiset ℕ) : Prop where
  pgdir : S'.pgdir = S.pgdir
  table : ∀ i t, S.table i = some t → S'.table i = some t
  total : (l' : Multiset ℕ) + S'.pages + held' = (l : Multiset ℕ) + S.pages + held
  skeleton : (l' : Multiset ℕ) + S'.skeleton ≤ (l : Multiset ℕ) + S.skeleton
  agree : AgreeOff PGSIZE ((l : Multiset ℕ) + S.skeleton) k.ram k'.ram
  denied : k'.denied = k.denied

namespace Grows

variable {k₁ k₂ : Kmem} {S₁ S₂ : Space} {l₁ l₂ : List ℕ} {held₁ held₂ : Multiset ℕ}

theorem refl (k : Kmem) (S : Space) (l : List ℕ) (held : Multiset ℕ) :
    Grows k S l held k S l held :=
  ⟨rfl, fun _ _ h => h, rfl, le_refl _, .refl _, rfl⟩

theorem trans (h₁ : Grows k S l held k₁ S₁ l₁ held₁)
    (h₂ : Grows k₁ S₁ l₁ held₁ k₂ S₂ l₂ held₂) : Grows k S l held k₂ S₂ l₂ held₂ where
  pgdir := h₂.pgdir.trans h₁.pgdir
  table i t ht := h₂.table i t (h₁.table i t ht)
  total := h₂.total.trans h₁.total
  skeleton := h₂.skeleton.trans h₁.skeleton
  agree := h₁.agree.trans (h₂.agree.mono (subset_of_le h₁.skeleton))
  denied := h₂.denied.trans h₁.denied

variable (h : Grows k S l held k₁ S₁ l₁ held₁) (hbefore : Owned L k S l held)

include h hbefore

/-- The pages are the same as before, so none of them is held twice. -/
theorem owned (hfree : FreeList k₁ l₁) (hspace : S₁.At k₁.ram) : Owned L k₁ S₁ l₁ held₁ := by
  refine ⟨hfree, hspace, ?_, ?_⟩
  · rw [h.total]
    exact hbefore.nodup
  · rw [h.total]
    exact hbefore.page

/-- User pages that were there keep their contents. -/
theorem user (hpa : pa ∈ S.user) {a : ℕ} (ha : blockOf PGSIZE a = pa) : k₁.ram a = k.ram a := by
  apply h.agree
  rw [ha]
  intro hmem
  rcases mem_add.mp hmem with hfree | hskeleton
  · exact hbefore.notMem_pages_of_free hfree (mem_add.mpr (.inr hpa))
  · exact hbefore.notMem_user_of_skeleton hskeleton hpa

/-- Pages that others hold keep their contents. -/
theorem others (hpa : pa ∈ held) {a : ℕ} (ha : blockOf PGSIZE a = pa) : k₁.ram a = k.ram a := by
  apply h.agree
  rw [ha]
  intro hmem
  rcases mem_add.mp hmem with hfree | hskeleton
  · exact hbefore.notMem_held_of_free hfree hpa
  · exact hbefore.notMem_held_of_pages (mem_add.mpr (.inl hskeleton)) hpa

theorem agreeOn :
    AgreeOn PGSIZE held k.ram k₁.ram := fun _ ha => h.others hbefore ha rfl

end Grows

namespace Owned

variable (h : Owned L k S l held)

include h

/-- **A page is taken,** or there is none to be had. -/
theorem kalloc :
    (k.kalloc = (none, { k with calls := k.calls + 1 }) ∧
      Owned L { k with calls := k.calls + 1 } S l held ∧
      Grows k S l held { k with calls := k.calls + 1 } S l held ∧
      (l = [] ∨ k.denied k.calls = true)) ∨
    ∃ pa l' k', k.kalloc = (some pa, k') ∧ l = pa :: l' ∧ k'.ram = k.ram ∧
      Owned L k' S l' ({pa} + held) ∧ Grows k S l held k' S l' ({pa} + held) := by
  rcases h.pool.kalloc with ⟨hrun, hpool, hwhy⟩ | ⟨pa, l', k', hrun, hl, hram, hdenied, hpool⟩
  · exact .inl ⟨hrun, hpool.owned h.space,
      ⟨rfl, fun _ _ ht => ht, rfl, le_refl _, .refl _, rfl⟩, hwhy⟩
  · subst hl
    have hgrows : Grows k S (pa :: l') held k' S l' ({pa} + held) := by
      refine ⟨rfl, fun _ _ ht => ht, ?_, ?_, hram ▸ .refl _, hdenied⟩
      · rw [← cons_coe, ← singleton_add]
        abel
      · rw [← cons_coe, cons_add]
        exact le_cons_self _ _
    exact .inr ⟨pa, l', k', hrun, rfl, hram, hgrows.owned h hpool.free (hram ▸ h.space), hgrows⟩

/-- A page that someone holds is cleared and becomes a page table. -/
theorem addTable {rest : Multiset ℕ} (hi : i < 1024) (hnone : S.table i = none)
    (hheld : held = {t} + rest) :
    Owned L ((k.memset t 0).store (S.pgdir + 4 * i) (t ||| PTE_P ||| PTE_W ||| PTE_U))
        (S.addTable i t) l rest ∧
      AgreeOff PGSIZE ({t} + {S.pgdir}) k.ram
        ((k.memset t 0).store (S.pgdir + 4 * i) (t ||| PTE_P ||| PTE_W ||| PTE_U)).ram := by
  have hmem : t ∈ held := by
    rw [hheld]
    exact mem_add.mpr (.inl (mem_singleton_self t))
  have htpage : L.Page t := h.page_held hmem
  have htnot : t ∉ S.skeleton := fun hsk =>
    h.notMem_held_of_pages (mem_add.mpr (.inl hsk)) hmem
  have hpgdir_ne : S.pgdir ≠ t := fun heq =>
    htnot (heq ▸ Space.mem_skeleton.mpr (.inl rfl))
  have hsum : (l : Multiset ℕ) + (S.addTable i t).pages + rest
      = (l : Multiset ℕ) + S.pages + held := by
    unfold Space.pages
    rw [Space.addTable_skeleton hi hnone, Space.addTable_user, hheld]
    abel
  -- the page is cleared, which the space does not notice, and linked to the directory
  have hclear : AgreeOff PGSIZE {t} k.ram (k.memset t 0).ram := agreeOff_fill htpage.aligned
  have hcleared : S.At (k.memset t 0).ram := by
    refine h.space.congr hclear (fun pa hpa => (h.page_skeleton hpa).aligned) ?_
    intro pa hpa hpa'
    exact htnot (mem_singleton.mp hpa' ▸ hpa)
  have hlink : AgreeOff PGSIZE {S.pgdir} (k.memset t 0).ram
      ((k.memset t 0).store (S.pgdir + 4 * i) (t ||| PTE_P ||| PTE_W ||| PTE_U)).ram :=
    agreeOff_putLE h.page_pgdir.aligned (by rw [pgsize_eq]; omega)
  have hfree : FreeList (k.memset t 0) l := by
    refine h.free.congr (fun pa hpa => h.page_free hpa) hclear ?_ rfl
    intro pa hpa hpa'
    exact h.notMem_held_of_free hpa (mem_singleton.mp hpa' ▸ hmem)
  refine ⟨⟨?_, ?_, ?_, ?_⟩, (hclear.mono ?_).trans (hlink.mono ?_)⟩
  · refine hfree.congr (fun pa hpa => h.page_free hpa) hlink ?_ rfl
    intro pa hpa hpa'
    exact h.notMem_skeleton_of_free hpa
      (Space.mem_skeleton.mpr (.inl (mem_singleton.mp hpa')))
  · refine hcleared.addTable hi hnone ?_ ?_ h.page_pgdir.aligned htpage.aligned
      (fun heq => hpgdir_ne heq.symm) ?_
    · have hlt : (t ||| (PTE_P ||| (PTE_W ||| PTE_U))) < 2 ^ 32 := by
        rw [lor_flags htpage.aligned (by decide)]
        have hbelow := htpage.below
        rw [phystop_eq] at hbelow
        exact Nat.lt_trans (Nat.add_lt_add_right hbelow _) (by decide)
      rw [Nat.or_assoc, Nat.or_assoc, Nat.mod_eq_of_lt hlt, present_lor (by decide),
        Option.map_some, addr_lor htpage.aligned (by decide)]
    · intro j hj
      apply getLE_eq_zero
      intro a ha ha'
      exact fill_of_mem (by omega) (by rw [pgsize_eq]; omega)
    · intro j hj t' ht'
      exact ⟨(h.page_table hj ht').aligned, (h.pgdir_ne_table hj ht').symm⟩
  · rw [hsum]
    exact h.nodup
  · rw [hsum]
    exact h.page
  · exact subset_of_le (le_add_right _ _)
  · exact subset_of_le (le_add_left _ _)

/-- **With `alloc`** a page table is found, or taken from the free list; the entries stay. -/
theorem walkpgdir_true (va : ℕ) :
    ∃ r k' S' l', k.walkpgdir S.pgdir va true = (r, k') ∧ Owned L k' S' l' held ∧
      Grows k S l held k' S' l' held ∧ S'.entry = S.entry ∧
      (∀ i, i ≠ PDX va → S'.table i = S.table i) ∧
      ((r = none ∧ (l = [] ∨ k.denied k.calls = true)) ∨
        ∃ t, S'.table (PDX va) = some t ∧ r = some (t + 4 * PTX va)) := by
  have hdir := h.space.dir (PDX va) (PDX_lt va)
  unfold Kmem.walkpgdir
  dsimp only
  by_cases hp : load k.ram (S.pgdir + 4 * PDX va) &&& PTE_P ≠ 0
  · rw [if_pos hp]
    rw [present_of_and hp, Option.map_some] at hdir
    exact ⟨_, k, S, l, rfl, h, .refl k S l held, rfl, fun _ _ => rfl, .inr ⟨_, hdir.symm, rfl⟩⟩
  · rw [if_neg hp, if_pos rfl]
    rw [present_eq_none.mpr (not_not.mp hp), Option.map_none] at hdir
    rcases h.kalloc with ⟨hrun, hown, hgrows, hwhy⟩ | ⟨t, l', k₁, hrun, hl, hram, hown, hgrows⟩
    · rw [hrun]
      exact ⟨none, _, S, l, rfl, hown, hgrows, rfl, fun _ _ => rfl, .inl ⟨rfl, hwhy⟩⟩
    · rw [hrun]
      have hfree : ((l' : List ℕ) : Multiset ℕ) + {t} = (l : Multiset ℕ) := by
        rw [hl, ← cons_coe, ← singleton_add]
        abel
      have hskeleton : (l' : Multiset ℕ) + (S.addTable (PDX va) t).skeleton
          = (l : Multiset ℕ) + S.skeleton := by
        rw [Space.addTable_skeleton (PDX_lt va) hdir.symm, ← add_assoc, hfree]
      obtain ⟨hown', hagree⟩ := hown.addTable (PDX_lt va) hdir.symm rfl
      refine ⟨_, _, S.addTable (PDX va) t, l', rfl, hown', ?_, rfl,
        fun _ hi => Space.addTable_table_of_ne hi, .inr ⟨t, Space.addTable_table_self, rfl⟩⟩
      refine ⟨rfl, ?_, ?_, le_of_eq hskeleton, ?_, hgrows.denied⟩
      · intro i t' ht'
        have hne : i ≠ PDX va := by
          rintro rfl
          rw [← hdir] at ht'
          cases ht'
        rw [Space.addTable_table_of_ne hne]
        exact ht'
      · rw [Space.pages, Space.addTable_user, ← add_assoc, hskeleton, Space.pages,
          add_assoc _ S.skeleton]
      · rw [hram] at hagree
        refine hagree.mono ?_
        intro q hq
        rcases mem_add.mp hq with hq | hq
        · refine mem_add.mpr (.inl ?_)
          rw [← hfree]
          exact mem_add.mpr (.inr hq)
        · exact mem_add.mpr (.inr (Space.mem_skeleton.mpr
            (.inl (mem_singleton.mp hq))))

/-- **An entry is written.** The page that it held, if it is one of the user's, goes to who writes
it; the page that it holds now comes from there. -/
theorem setEntry {e : ℕ} (held' : Multiset ℕ) (hv : v < 2 ^ 20) (ht : S.table (v / 1024) = some t)
    (he : e < 2 ^ 32)
    (hheld : if v < NUSER then held' + holds ((present e).map PTE_ADDR) = held + holds (S.page v)
      else held' = held) :
    Owned L (k.store (t + 4 * (v % 1024)) e) (S.setEntry v (present e)) l held' ∧
      Grows k S l held (k.store (t + 4 * (v % 1024)) e) (S.setEntry v (present e)) l held' := by
  have hi : v / 1024 < 1024 := by omega
  have htpage : L.Page t := h.page_table hi ht
  have hmem : t ∈ S.skeleton := Space.mem_skeleton.mpr (.inr ⟨_, hi, ht⟩)
  have hwrite : AgreeOff PGSIZE {t} k.ram (k.store (t + 4 * (v % 1024)) e).ram :=
    agreeOff_putLE htpage.aligned (by rw [pgsize_eq]; omega)
  have huser : (S.setEntry v (present e)).user + held' = S.user + held := by
    by_cases hvu : v < NUSER
    · -- what leaves the entry is what its writer gets
      rw [if_pos hvu] at hheld
      have hswap := Space.user_update (S := S) (o := present e)
        (rfl : (S.setEntry v (present e)).entry = _) hvu
      apply add_right_cancel (b := holds (S.page v) + holds ((present e).map PTE_ADDR))
      calc (S.setEntry v (present e)).user + held'
            + (holds (S.page v) + holds ((present e).map PTE_ADDR))
          = ((S.setEntry v (present e)).user + holds (S.page v))
            + (held' + holds ((present e).map PTE_ADDR)) := by abel
        _ = (S.user + holds ((present e).map PTE_ADDR)) + (held + holds (S.page v)) := by
            rw [hswap, hheld]
        _ = S.user + held + (holds (S.page v) + holds ((present e).map PTE_ADDR)) := by abel
    · rw [if_neg hvu] at hheld
      rw [Space.setEntry_user_of_le (Nat.le_of_not_lt hvu), hheld]
  have hgrows : Grows k S l held (k.store (t + 4 * (v % 1024)) e) (S.setEntry v (present e)) l
      held' := by
    refine ⟨rfl, fun _ _ ht => ht, ?_, le_refl _, hwrite.mono ?_, rfl⟩
    · calc (l : Multiset ℕ) + (S.setEntry v (present e)).pages + held'
          = (l : Multiset ℕ) + S.skeleton + ((S.setEntry v (present e)).user + held') := by
            rw [Space.pages, Space.setEntry_skeleton]
            abel
        _ = (l : Multiset ℕ) + S.pages + held := by
            rw [huser, Space.pages]
            abel
    · intro q hq
      exact mem_add.mpr (.inr (mem_singleton.mp hq ▸ hmem))
  refine ⟨hgrows.owned h ?_ ?_, hgrows⟩
  · refine h.free.congr (fun pa hpa => h.page_free hpa) hwrite ?_ rfl
    intro pa hpa hpa'
    exact h.notMem_skeleton_of_free hpa (mem_singleton.mp hpa' ▸ hmem)
  · have hat := h.space.setEntry (e := e) hv ht htpage.aligned h.page_pgdir.aligned
      (h.pgdir_ne_table hi ht) fun j hj t' ht' =>
        ⟨(h.page_table hj ht').aligned, fun heq => h.table_unique hj hi (heq ▸ ht') ht⟩
    rwa [Nat.mod_eq_of_lt he] at hat

/-! ### Mapping pages -/

/-- **One round of `mappages`.** An entry that is not present is filled, or there is no page table
to be had. Below `KERNBASE` the page comes from who calls. -/
theorem mapPage (perm : ℕ) (held' : Multiset ℕ) (hva : va < 2 ^ 32) (hpa : pa % PGSIZE = 0)
    (hpa' : pa < 2 ^ 32) (hperm : perm < PGSIZE) (hentry : S.entry (va / PGSIZE) = none)
    (hheld : if va / PGSIZE < NUSER then held = {pa} + held' else held = held') :
    ∃ mapped k' S' l', k.mapPage S.pgdir va pa perm = .ok (mapped, k') ∧
      ((mapped = false ∧ Owned L k' S' l' held ∧ Grows k S l held k' S' l' held ∧
          S'.entry = S.entry ∧ (l = [] ∨ k.denied k.calls = true)) ∨
        (mapped = true ∧ Owned L k' S' l' held' ∧ Grows k S l held k' S' l' held' ∧
          S'.entry = update S.entry (va / PGSIZE) (some (pa ||| perm ||| PTE_P)) ∧
          (S.Tight → S'.Tight))) := by
  obtain ⟨r, k₁, S₁, l₁, hrun, hown, hgrows, hentries, htables, hr⟩ := h.walkpgdir_true va
  unfold Kmem.mapPage
  rw [hrun]
  rcases hr with ⟨rfl, hwhy⟩ | ⟨t, ht, rfl⟩
  · exact ⟨false, k₁, S₁, l₁, rfl, .inl ⟨rfl, hown, hgrows, hentries, hwhy⟩⟩
  · have hv : va / PGSIZE < 2 ^ 20 := by
      rw [pgsize_eq]
      omega
    have hflags : perm ||| PTE_P < PGSIZE := lor_lt_pgsize hperm (by decide)
    have hword : pa ||| perm ||| PTE_P < 2 ^ 32 := by
      rw [Nat.or_assoc]
      exact Nat.or_lt_two_pow hpa' (Nat.lt_trans hflags (by decide))
    have hpresent : present (pa ||| perm ||| PTE_P) = some (pa ||| perm ||| PTE_P) :=
      present_lor (by decide)
    have haddr : PTE_ADDR (pa ||| perm ||| PTE_P) = pa := by
      rw [Nat.or_assoc]
      exact addr_lor hpa hflags
    -- the entry that is found is not present, so there is no panic
    have hload := hown.space.load_entry hva ht
    rw [hentries, hentry, present_eq_none] at hload
    have hnot : ¬ (load k₁.ram (t + 4 * PTX va) &&& PTE_P ≠ 0) := not_not.mpr hload
    dsimp only
    rw [if_neg hnot]
    rw [PDX_eq hva] at ht
    have hset := hown.setEntry held' hv ht hword (by
      rw [hpresent, Option.map_some, haddr, holds_some, Space.page, hentries, hentry,
        Option.map_none, holds_none, add_zero]
      split at hheld
      · next hvu => rw [if_pos hvu, hheld, add_comm]
      · next hvu => rw [if_neg hvu, hheld])
    rw [hpresent] at hset
    refine ⟨true, _, _, l₁, rfl, .inr ⟨rfl, hset.1, hgrows.trans hset.2, ?_, ?_⟩⟩
    · rw [← hentries]
      rfl
    · -- the table may be new, but now it has an entry
      intro htight i hi
      by_cases hpdx : i = PDX va
      · refine ⟨va / PGSIZE, hpdx ▸ (PDX_eq hva).symm, ?_⟩
        rw [Space.setEntry_entry_self]
        exact nofun
      · rw [Space.setEntry_table, htables i hpdx] at hi
        obtain ⟨v, hv', hne⟩ := htight i hi
        refine ⟨v, hv', ?_⟩
        by_cases hvv : v = va / PGSIZE
        · rw [hvv, Space.setEntry_entry_self]
          exact nofun
        · rw [Space.setEntry_entry_of_ne hvv, hentries]
          exact hne

end Owned

end Owned

end Xv6.Vm
