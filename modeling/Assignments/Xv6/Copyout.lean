import Assignments.Framework.Run
import Assignments.Xv6.PageTable

/-!
# Copying to user memory

`uva2ka` and `copyout` of `vm.c`, which `exec` uses to build the stack of a new image.

`walkpgdir` returns a null pointer where there is no page table, and `uva2ka` follows what it
returns without a test. What it then reads is the word at the virtual address 0 of the process that
is running, whose directory `cr3` is not the one that is copied to. The model follows the null
pointer as the machine does, and keeps the pointers that were followed.

* `Space.phys` — the byte of physical memory that a user address is mapped to;
* `copyLoop_spec`, `copyLoop_null` — the loop where every page table it asks for is there, and
  where one is missing;
* `copyout_exact_iff` — when a call does what it should.
-/

namespace Xv6.Vm

open Framework
open Xv6.Ptable (PGSIZE KERNBASE)

/-- `*pte`. To follow a null pointer is undefined in C; with the flags of the `Makefile`, gcc reads
address 0 and puts a trap behind the read. The model reads what the directory in use maps at
address 0, and every result counts the null pointers that are followed. -/
def Kmem.deref (k : Kmem) (cr3 : ℕ) : Option ℕ → Except Halt ℕ
  | some pte => .ok (load k.ram pte)
  | none =>
    match k.lookup cr3 0 with
    | none => .error .fault
    | some e => .ok (load k.ram (PTE_ADDR e))

/-- The pointer that is followed, and the page that `uva` is mapped to. -/
def Kmem.uva2ka (k : Kmem) (cr3 pgdir uva : ℕ) : Except Halt (Option ℕ × Option ℕ) :=
  let pte := (k.walkpgdir pgdir uva false).1
  (k.deref cr3 pte).map fun e =>
    if e &&& PTE_P = 0 then (pte, none)
    else if e &&& PTE_U = 0 then (pte, none)
    else (pte, some (PTE_ADDR e))

/-- What `copyout` leaves and returns, and the pointers to entries that it has followed. -/
structure Copied where
  k : Kmem
  ret : ℤ
  ptes : List (Option ℕ)

/-- The loop of `copyout`; each round copies at least one of the bytes. A page at `PHYSTOP` or above
is a fault here: the kernel maps no memory there, though `P2V` gives an address for it. -/
def copyLoop (cr3 pgdir : ℕ) : ℕ → Kmem → ℕ → List Byte → Except Halt Copied
  | _, k, _, [] => .ok ⟨k, 0, []⟩
  | 0, _, _, _ => .error .loop
  | fuel + 1, k, va, buf => do
    let va0 := PGROUNDDOWN va
    let (pte, pa0) ← k.uva2ka cr3 pgdir va0
    match pa0 with
    | none => return ⟨k, -1, [pte]⟩
    | some pa0 =>
      if pa0 ≥ PHYSTOP then .error .fault
      else
        let n := min (PGSIZE - (va - va0)) buf.length
        let k := { k with ram := splice k.ram (pa0 + (va - va0)) (buf.take n) }
        let r ← copyLoop cr3 pgdir fuel k ((va0 + PGSIZE) % 2 ^ 32) (buf.drop n)
        return { r with ptes := pte :: r.ptes }

/-- `copyout(pgdir, va, p, len)`, called while `cr3` is in use, for the `len` bytes at `p`. -/
def copyout (k : Kmem) (cr3 pgdir va : ℕ) (p : List Byte) : Except Halt Copied :=
  copyLoop cr3 pgdir p.length k va p

/-! ### User addresses -/

namespace Space

/-- The page that `v` is mapped to for the user. -/
def userPage (S : Space) (v : ℕ) : Option ℕ :=
  (S.entry v).bind fun e => if e &&& PTE_U = 0 then none else some (PTE_ADDR e)

/-- The physical address that the user's address `x` is mapped to. -/
def phys (S : Space) (x : ℕ) : Option ℕ := (S.userPage (x / PGSIZE)).map fun pa => pa + x % PGSIZE

/-- The pages that the space maps for the user are pages of physical memory, and neither the
directory nor one of its page tables. -/
structure Separate (S : Space) : Prop where
  aligned : S.pgdir % PGSIZE = 0
  below : ∀ v < 2 ^ 20, ∀ pa, S.userPage v = some pa → pa < PHYSTOP
  pgdir : ∀ v < 2 ^ 20, ∀ pa, S.userPage v = some pa → pa ≠ S.pgdir
  table : ∀ v < 2 ^ 20, ∀ pa, S.userPage v = some pa → ∀ i < 1024, S.table i ≠ some pa

end Space

/-- What a directory and its page tables say, read from memory. -/
def spaceOf (ram : Memory) (pgdir : ℕ) : Space where
  pgdir := pgdir
  table i := (present (load ram (pgdir + 4 * i))).map PTE_ADDR
  entry v := ((present (load ram (pgdir + 4 * (v / 1024)))).map PTE_ADDR).bind fun t =>
    present (load ram (t + 4 * (v % 1024)))

/-- Every directory describes a space. -/
theorem spaceOf_at (ram : Memory) (pgdir : ℕ) : (spaceOf ram pgdir).At ram where
  dir _ _ := rfl
  entries i _ t ht j hj := by
    have hdiv : (1024 * i + j) / 1024 = i := by omega
    have hmod : (1024 * i + j) % 1024 = j := by omega
    change _ = Option.bind _ _
    rw [hdiv, hmod, show Option.map PTE_ADDR _ = some t from ht]
    rfl
  absent i _ ht j hj := by
    have hdiv : (1024 * i + j) / 1024 = i := by omega
    change Option.bind _ _ = none
    rw [hdiv, show Option.map PTE_ADDR _ = none from ht]
    rfl

section Copyout

variable {k : Kmem} {S : Space} {cr3 va fuel i n pa t x : ℕ} {buf : List Byte}

theorem Space.userPage_mod (h : S.userPage x = some pa) : pa % PGSIZE = 0 := by
  obtain ⟨e, -, he⟩ := Option.bind_eq_some_iff.mp h
  split at he
  · cases he
  · rw [← Option.some.inj he]
    exact addr_mod e

/-- What `uva2ka` finds where there is a page table. -/
theorem uva2ka_of_table (hS : S.At k.ram) (hx : x < 2 ^ 32) (ht : S.table (PDX x) = some t) :
    k.uva2ka cr3 S.pgdir x = .ok (some (t + 4 * PTX x), S.userPage (x / PGSIZE)) := by
  have hload := hS.load_entry hx ht
  unfold Kmem.uva2ka
  rw [hS.walkpgdir, ht]
  dsimp only [Option.map_some, Kmem.deref, Except.map]
  congr 1
  unfold Space.userPage
  by_cases hp : load k.ram (t + 4 * PTX x) &&& PTE_P = 0
  · rw [if_pos hp, ← hload, present_eq_none.mpr hp]
    rfl
  · rw [if_neg hp, ← hload, present_of_and hp, Option.bind_some]
    split
    · rfl
    · rfl

/-- Where there is none, the null pointer is followed. -/
theorem uva2ka_of_none (hS : S.At k.ram) (ht : S.table (PDX x) = none) {o : Option ℕ × Option ℕ}
    (h : k.uva2ka cr3 S.pgdir x = .ok o) : o.1 = none := by
  unfold Kmem.uva2ka at h
  rw [hS.walkpgdir, ht] at h
  dsimp only [Option.map_none] at h
  cases hd : k.deref cr3 none with
  | error e =>
    rw [hd] at h
    cases h
  | ok e =>
    rw [hd] at h
    rw [← Except.ok.inj h]
    dsimp only
    split
    · rfl
    · split
      · rfl
      · rfl

/-- Bytes copied to a user page do not change the space. -/
theorem Space.Separate.splice (hsep : S.Separate) (hS : S.At k.ram) (hx : x < 2 ^ 20)
    (hpage : S.userPage x = some pa) {off : ℕ} {bs : List Byte} (hoff : off + bs.length ≤ PGSIZE) :
    S.At (Framework.splice k.ram (pa + off) bs) := by
  have hagree : AgreeOff PGSIZE {pa} k.ram (Framework.splice k.ram (pa + off) bs) :=
    agreeOff_splice (Space.userPage_mod hpage) hoff
  refine hS.congr hagree ?_ ?_
  · intro q hq
    rcases Space.mem_skeleton.mp hq with rfl | ⟨i, hi, ht⟩
    · exact hsep.aligned
    · rw [← hS.dir i hi] at ht
      obtain ⟨e, -, rfl⟩ := Option.map_eq_some_iff.mp ht
      exact addr_mod e
  · intro q hq hmem
    rw [Multiset.mem_singleton.mp hmem] at hq
    rcases Space.mem_skeleton.mp hq with heq | ⟨i, hi, ht⟩
    · exact hsep.pgdir x hx pa hpage heq
    · exact hsep.table x hx pa hpage i hi ht

/-! ### Rounds and positions -/

/-- How many bytes a round copies. -/
def chunk (va len : ℕ) : ℕ := min (PGSIZE - va % PGSIZE) len

theorem sub_rounddown (va : ℕ) : va - PGROUNDDOWN va = va % PGSIZE := by
  rw [PGROUNDDOWN, pgsize_eq]
  omega

/-- The bytes of a round are on one page. -/
theorem phys_of_chunk (hva : va < 2 ^ 32) (hi : i < chunk va n) :
    S.phys ((va + i) % 2 ^ 32)
      = (S.userPage (va / PGSIZE)).map fun pa => pa + (va % PGSIZE + i) := by
  have hlt : i < PGSIZE - va % PGSIZE := Nat.lt_of_lt_of_le hi (Nat.min_le_left _ _)
  rw [pgsize_eq] at hlt
  have hdiv : (va + i) % 2 ^ 32 / PGSIZE = va / PGSIZE := by
    rw [pgsize_eq]
    omega
  have hmod : (va + i) % 2 ^ 32 % PGSIZE = va % PGSIZE + i := by
    rw [pgsize_eq]
    omega
  rw [Space.phys, hdiv, hmod]

theorem table_of_chunk (hva : va < 2 ^ 32) (hi : i < chunk va n) :
    PDX ((va + i) % 2 ^ 32) = PDX (PGROUNDDOWN va) := by
  have hlt : i < PGSIZE - va % PGSIZE := Nat.lt_of_lt_of_le hi (Nat.min_le_left _ _)
  rw [pgsize_eq] at hlt
  rw [PDX, PDX, PGROUNDDOWN, pgsize_eq]
  omega

/-- The bytes after a round begin at the next page. -/
theorem next_of_chunk (hlt : chunk va n < n) (i : ℕ) :
    ((PGROUNDDOWN va + PGSIZE) % 2 ^ 32 + i) % 2 ^ 32 = (va + (chunk va n + i)) % 2 ^ 32 := by
  have hchunk : chunk va n = PGSIZE - va % PGSIZE := by
    unfold chunk at hlt ⊢
    omega
  rw [hchunk, PGROUNDDOWN, pgsize_eq]
  omega

theorem chunk_pos (hpos : 0 < n) : 0 < chunk va n := by
  unfold chunk
  rw [pgsize_eq]
  omega

/-- The page table is there for each address that the loop asks for: it stops at the first page
that is not mapped for the user. -/
def Reaches (S : Space) (va len : ℕ) : Prop :=
  ∀ i < len, (∀ j < i, S.phys ((va + j) % 2 ^ 32) ≠ none) →
    S.table (PDX ((va + i) % 2 ^ 32)) ≠ none

/-- The bytes of a round do not change the space either. -/
theorem Space.Separate.round (hsep : S.Separate) (buf : List Byte) (hS : S.At k.ram)
    (hva : va < 2 ^ 32) (hpage : S.userPage (va / PGSIZE) = some pa) :
    S.At (Framework.splice k.ram (pa + va % PGSIZE) (buf.take (chunk va buf.length))) := by
  refine hsep.splice hS ?_ hpage ?_
  · rw [pgsize_eq]
    omega
  · rw [List.length_take]
    unfold chunk
    rw [pgsize_eq]
    omega

/-! ### The loop -/

/-- One round, where a page is found through the entry at `pte`, which may be null. -/
theorem copyLoop_found {pgdir : ℕ} {pte : Option ℕ}
    (huva : k.uva2ka cr3 pgdir (PGROUNDDOWN va) = .ok (pte, some pa)) (hpa : pa < PHYSTOP)
    (hbuf : buf ≠ []) :
    copyLoop cr3 pgdir (fuel + 1) k va buf =
      (copyLoop cr3 pgdir fuel
        { k with
          ram := splice k.ram (pa + va % PGSIZE) (buf.take (chunk va buf.length)) }
        ((PGROUNDDOWN va + PGSIZE) % 2 ^ 32) (buf.drop (chunk va buf.length))) >>= fun r =>
      .ok { r with ptes := pte :: r.ptes } := by
  obtain ⟨b, bs, rfl⟩ := List.exists_cons_of_ne_nil hbuf
  rw [copyLoop]
  · dsimp only
    rw [huva, sub_rounddown]
    simp only [bind, Except.bind, if_neg (Nat.not_le.mpr hpa)]
    rfl
  · exact nofun

theorem uva2ka_rounddown (hS : S.At k.ram) (hva : va < 2 ^ 32)
    (ht : S.table (PDX (PGROUNDDOWN va)) = some t) :
    k.uva2ka cr3 S.pgdir (PGROUNDDOWN va) =
      .ok (some (t + 4 * PTX (PGROUNDDOWN va)), S.userPage (va / PGSIZE)) := by
  have hlt : PGROUNDDOWN va < 2 ^ 32 := Nat.lt_of_le_of_lt (Nat.div_mul_le_self _ _) hva
  have hdiv : PGROUNDDOWN va / PGSIZE = va / PGSIZE := Nat.mul_div_cancel _ (by decide)
  rw [uva2ka_of_table hS hlt ht, hdiv]

/-- One round, where the user page is there. -/
theorem copyLoop_round (hS : S.At k.ram) (hsep : S.Separate) (hva : va < 2 ^ 32)
    (ht : S.table (PDX (PGROUNDDOWN va)) = some t) (hpage : S.userPage (va / PGSIZE) = some pa)
    (hbuf : buf ≠ []) :
    copyLoop cr3 S.pgdir (fuel + 1) k va buf =
      (copyLoop cr3 S.pgdir fuel
        { k with
          ram := splice k.ram (pa + va % PGSIZE) (buf.take (chunk va buf.length)) }
        ((PGROUNDDOWN va + PGSIZE) % 2 ^ 32) (buf.drop (chunk va buf.length))) >>= fun r =>
      .ok { r with ptes := some (t + 4 * PTX (PGROUNDDOWN va)) :: r.ptes } := by
  have hv : va / PGSIZE < 2 ^ 20 := Nat.div_lt_of_lt_mul hva
  exact copyLoop_found (by rw [uva2ka_rounddown hS hva ht, hpage]) (hsep.below _ hv pa hpage) hbuf

/-- One round, where the page table is there and the user page is not. -/
theorem copyLoop_stop (hS : S.At k.ram) (hva : va < 2 ^ 32)
    (ht : S.table (PDX (PGROUNDDOWN va)) = some t) (hpage : S.userPage (va / PGSIZE) = none)
    (hbuf : buf ≠ []) :
    copyLoop cr3 S.pgdir (fuel + 1) k va buf
      = .ok ⟨k, -1, [some (t + 4 * PTX (PGROUNDDOWN va))]⟩ := by
  obtain ⟨b, bs, rfl⟩ := List.exists_cons_of_ne_nil hbuf
  rw [copyLoop]
  · dsimp only
    rw [uva2ka_rounddown hS hva ht, hpage]
    rfl
  · exact nofun

/-- What a copy of `bs` to `va` that asks for no missing page table leaves in memory and
returns. -/
structure Ends (S : Space) (ram : Memory) (va : ℕ) (bs : List Byte) (r : Copied) : Prop where
  exist : none ∉ r.ptes
  inside : ∀ a, r.k.ram a ≠ ram a → ∃ i < bs.length, S.phys ((va + i) % 2 ^ 32) = some a
  ret : r.ret = 0 ∨ r.ret = -1
  zero : r.ret = 0 ↔ ∀ i < bs.length, S.phys ((va + i) % 2 ^ 32) ≠ none
  last : r.ret = 0 → ∀ a, ∀ i < bs.length, S.phys ((va + i) % 2 ^ 32) = some a →
    (∀ j < bs.length, i < j → S.phys ((va + j) % 2 ^ 32) ≠ some a) → r.k.ram a = bs.getD i 0

theorem phys_ne_none_of_chunk (hva : va < 2 ^ 32) (hpage : S.userPage (va / PGSIZE) = some pa)
    (hi : i < chunk va n) : S.phys ((va + i) % 2 ^ 32) = some (pa + va % PGSIZE + i) := by
  rw [phys_of_chunk hva hi, hpage, Option.map_some, Nat.add_assoc]

/-- Whether the loop asks for a missing page table is decided by the rounds after a copied one. -/
theorem reaches_next (hva : va < 2 ^ 32) (ht : S.table (PDX (PGROUNDDOWN va)) = some t)
    (hpage : S.userPage (va / PGSIZE) = some pa) :
    Reaches S va n ↔ Reaches S ((PGROUNDDOWN va + PGSIZE) % 2 ^ 32) (n - chunk va n) := by
  constructor
  · intro h i hi hbefore
    have hlt : chunk va n < n := by omega
    rw [next_of_chunk hlt]
    refine h (chunk va n + i) (by omega) fun j hj => ?_
    by_cases hchunk : j < chunk va n
    · rw [phys_ne_none_of_chunk hva hpage hchunk]
      exact nofun
    · have huser := hbefore (j - chunk va n) (by omega)
      rw [next_of_chunk hlt, Nat.add_sub_cancel' (Nat.le_of_not_lt hchunk)] at huser
      exact huser
  · intro h i hi hbefore
    by_cases hchunk : i < chunk va n
    · rw [table_of_chunk hva hchunk, ht]
      exact nofun
    · have hlt : chunk va n < n := by omega
      have htable := h (i - chunk va n) (by omega) fun j hj => by
        rw [next_of_chunk hlt]
        exact hbefore _ (by omega)
      rw [next_of_chunk hlt, Nat.add_sub_cancel' (Nat.le_of_not_lt hchunk)] at htable
      exact htable

/-- A round before a loop that ends well. -/
theorem Ends.round {ram : Memory} {r : Copied} (hva : va < 2 ^ 32)
    (hpage : S.userPage (va / PGSIZE) = some pa)
    (h : Ends S (splice ram (pa + va % PGSIZE) (buf.take (chunk va buf.length)))
      ((PGROUNDDOWN va + PGSIZE) % 2 ^ 32) (buf.drop (chunk va buf.length)) r) :
    Ends S ram va buf { r with ptes := some t :: r.ptes } where
  exist := by
    rw [List.mem_cons]
    exact not_or.mpr ⟨nofun, h.exist⟩
  inside a ha := by
    by_cases hlater : r.k.ram a = splice ram (pa + va % PGSIZE) (buf.take (chunk va buf.length)) a
    · -- the byte was changed in this round
      change r.k.ram a ≠ ram a at ha
      rw [hlater] at ha
      have hin : pa + va % PGSIZE ≤ a ∧ a < pa + va % PGSIZE + chunk va buf.length := by
        by_contra hout
        refine ha (splice_of_disjoint ?_)
        rw [List.length_take]
        omega
      obtain ⟨i, rfl⟩ := Nat.exists_eq_add_of_le hin.1
      have hi : i < chunk va buf.length := by omega
      exact ⟨i, Nat.lt_of_lt_of_le hi (Nat.min_le_right _ _), phys_ne_none_of_chunk hva hpage hi⟩
    · obtain ⟨i, hi, hphys⟩ := h.inside a hlater
      rw [List.length_drop] at hi
      rw [next_of_chunk (n := buf.length) (by omega)] at hphys
      exact ⟨_, by omega, hphys⟩
  ret := h.ret
  zero := by
    refine h.zero.trans ?_
    rw [List.length_drop]
    constructor
    · intro hall i hi
      by_cases hchunk : i < chunk va buf.length
      · rw [phys_ne_none_of_chunk hva hpage hchunk]
        exact nofun
      · have huser := hall (i - chunk va buf.length) (by omega)
        rw [next_of_chunk (n := buf.length) (by omega),
          Nat.add_sub_cancel' (Nat.le_of_not_lt hchunk)] at huser
        exact huser
    · intro hall i hi
      rw [next_of_chunk (n := buf.length) (by omega)]
      exact hall _ (by omega)
  last hret a i hi hphys hlast := by
    change r.k.ram a = _
    by_cases hchunk : i < chunk va buf.length
    · -- no later round writes to the byte
      have hkeep : r.k.ram a
          = splice ram (pa + va % PGSIZE) (buf.take (chunk va buf.length)) a := by
        by_contra hne
        obtain ⟨j, hj, hphys'⟩ := h.inside a hne
        rw [List.length_drop] at hj
        rw [next_of_chunk (n := buf.length) (by omega)] at hphys'
        exact hlast (chunk va buf.length + j) (by omega) (by omega) hphys'
      rw [phys_ne_none_of_chunk hva hpage hchunk] at hphys
      have hlen : i < (buf.take (chunk va buf.length)).length := by
        rw [List.length_take]
        omega
      rw [hkeep, ← Option.some.inj hphys, splice_of_mem hlen, List.getD_eq_getElem?_getD,
        List.getD_eq_getElem?_getD, List.getElem?_take_of_lt hchunk]
    · have hlt : chunk va buf.length < buf.length := by omega
      have hpos : ∀ j, chunk va buf.length ≤ j →
          ((PGROUNDDOWN va + PGSIZE) % 2 ^ 32 + (j - chunk va buf.length)) % 2 ^ 32
            = (va + j) % 2 ^ 32 := by
        intro j hj
        rw [next_of_chunk hlt, Nat.add_sub_cancel' hj]
      have hlater := h.last hret a (i - chunk va buf.length) (by rw [List.length_drop]; omega)
        (by rw [hpos i (by omega)]; exact hphys)
        (fun j hj hij => by
          rw [List.length_drop] at hj
          rw [next_of_chunk hlt]
          exact hlast _ (by omega) (by omega))
      rw [hlater, List.getD_eq_getElem?_getD, List.getD_eq_getElem?_getD, List.getElem?_drop,
        Nat.add_sub_cancel' (Nat.le_of_not_lt hchunk)]

/-- **The loop**, where every page table that it asks for is there. -/
theorem copyLoop_spec (cr3 : ℕ) (hsep : S.Separate) (hfuel : buf.length ≤ fuel) (hS : S.At k.ram)
    (hva : va < 2 ^ 32) (hreach : Reaches S va buf.length) :
    ∃ r, copyLoop cr3 S.pgdir fuel k va buf = .ok r ∧ Ends S k.ram va buf r := by
  induction fuel generalizing k va buf with
  | zero =>
    obtain rfl := List.eq_nil_of_length_eq_zero (Nat.le_zero.mp hfuel)
    exact ⟨_, rfl, nofun, fun a ha => absurd rfl ha, .inl rfl, iff_of_true rfl nofun, nofun⟩
  | succ fuel ih =>
    by_cases hbuf : buf = []
    · subst hbuf
      exact ⟨_, rfl, nofun, fun a ha => absurd rfl ha, .inl rfl, iff_of_true rfl nofun, nofun⟩
    have hpos : 0 < buf.length := List.length_pos_iff.mpr hbuf
    have hchunk : 0 < chunk va buf.length := chunk_pos hpos
    obtain ⟨t, ht⟩ : ∃ t, S.table (PDX (PGROUNDDOWN va)) = some t := by
      rw [← Option.ne_none_iff_exists', ← table_of_chunk hva hchunk]
      exact hreach 0 hpos nofun
    cases hpage : S.userPage (va / PGSIZE) with
    | none =>
      have hret : ¬ (-1 : ℤ) = 0 := by decide
      refine ⟨_, copyLoop_stop hS hva ht hpage hbuf, ?_, fun a ha => absurd rfl ha, .inr rfl,
        iff_of_false hret fun hall => ?_, fun h => absurd h hret⟩
      · rw [List.mem_singleton]
        exact nofun
      · refine hall 0 hpos ?_
        rw [phys_of_chunk hva hchunk, hpage]
        rfl
    | some pa =>
      have hS' := hsep.round buf hS hva hpage
      have hlen : (buf.drop (chunk va buf.length)).length ≤ fuel := by
        rw [List.length_drop]
        omega
      have hreach' : Reaches S ((PGROUNDDOWN va + PGSIZE) % 2 ^ 32)
          (buf.drop (chunk va buf.length)).length := by
        rw [List.length_drop]
        exact (reaches_next hva ht hpage).mp hreach
      obtain ⟨r, hr, hends⟩ := ih hlen (k := { k with
        ram := splice k.ram (pa + va % PGSIZE) (buf.take (chunk va buf.length)) }) hS'
        (Nat.mod_lt _ (by decide)) hreach'
      refine ⟨_, ?_, hends.round (t := t + 4 * PTX (PGROUNDDOWN va)) hva hpage⟩
      rw [copyLoop_round hS hsep hva ht hpage hbuf, hr]
      rfl

/-- **The loop**, where it comes to an address without a page table: the null pointer is
followed. -/
theorem copyLoop_null (hsep : S.Separate) (hfuel : buf.length ≤ fuel) (hS : S.At k.ram)
    (hva : va < 2 ^ 32) (hreach : ¬ Reaches S va buf.length) {r : Copied}
    (hr : copyLoop cr3 S.pgdir fuel k va buf = .ok r) : none ∈ r.ptes := by
  induction fuel generalizing k va buf r with
  | zero =>
    obtain rfl := List.eq_nil_of_length_eq_zero (Nat.le_zero.mp hfuel)
    exact absurd nofun hreach
  | succ fuel ih =>
    have hbuf : buf ≠ [] := by
      rintro rfl
      exact hreach nofun
    have hpos : 0 < buf.length := List.length_pos_iff.mpr hbuf
    have hchunk : 0 < chunk va buf.length := chunk_pos hpos
    cases ht : S.table (PDX (PGROUNDDOWN va)) with
    | none =>
      obtain ⟨b, bs, rfl⟩ := List.exists_cons_of_ne_nil hbuf
      rw [copyLoop] at hr
      · obtain ⟨o, ho, hr⟩ := except_bind_eq_ok.mp hr
        have hnull := uva2ka_of_none hS ht ho
        obtain ⟨pte, pa⟩ := o
        obtain rfl : pte = none := hnull
        dsimp only at hr
        split at hr
        · rw [← Except.ok.inj hr]
          exact List.mem_singleton.mpr rfl
        · split at hr
          · cases hr
          · obtain ⟨r', -, hr⟩ := except_bind_eq_ok.mp hr
            rw [← Except.ok.inj hr]
            exact List.mem_cons_self
      · exact nofun
    | some t =>
    cases hpage : S.userPage (va / PGSIZE) with
    | none =>
      -- the loop stops here, before any missing table
      refine absurd (fun i hi hbefore => ?_) hreach
      by_cases hi' : i < chunk va buf.length
      · rw [table_of_chunk hva hi', ht]
        exact nofun
      · refine absurd ?_ (hbefore 0 (by omega))
        rw [phys_of_chunk hva hchunk, hpage]
        rfl
    | some pa =>
      have hS' := hsep.round buf hS hva hpage
      rw [copyLoop_round hS hsep hva ht hpage hbuf] at hr
      obtain ⟨r', hr', hr⟩ := except_bind_eq_ok.mp hr
      rw [← Except.ok.inj hr]
      refine List.mem_cons_of_mem _ (ih (k := { k with ram := _ }) ?_ hS'
        (Nat.mod_lt _ (by decide)) ?_ hr')
      · rw [List.length_drop]
        omega
      · rw [List.length_drop]
        exact fun h => hreach ((reaches_next hva ht hpage).mpr h)

/-! ### A call -/

/-- What `copyout` should do for `bs` at `va`: follow pointers to entries only, write only to bytes
that the user has in `[va, va + len)`, and return 0 just if all of that range is the user's, which
then holds `bs`. -/
structure Copies (S : Space) (ram : Memory) (va : ℕ) (bs : List Byte) (r : Copied) : Prop where
  exist : none ∉ r.ptes
  inside : ∀ a, r.k.ram a ≠ ram a → ∃ i < bs.length, S.phys ((va + i) % 2 ^ 32) = some a
  ret : r.ret = 0 ∨ r.ret = -1
  zero : r.ret = 0 ↔
    va + bs.length ≤ 2 ^ 32 ∧ ∀ i < bs.length, S.phys ((va + i) % 2 ^ 32) ≠ none
  bytes : r.ret = 0 → ∀ a, ∀ i < bs.length, S.phys ((va + i) % 2 ^ 32) = some a →
    r.k.ram a = bs.getD i 0

/-- The calls that `copyout` can serve: every page table that the loop asks for is there, a range
that goes past the end of the address space is stopped by a page that is not the user's, and a
byte that the range has twice is to be given one value. -/
structure Served (S : Space) (va : ℕ) (bs : List Byte) : Prop where
  tables : Reaches S va bs.length
  range : va + bs.length ≤ 2 ^ 32 ∨ ∃ i < bs.length, S.phys ((va + i) % 2 ^ 32) = none
  aliases : (∀ i < bs.length, S.phys ((va + i) % 2 ^ 32) ≠ none) →
    ∀ i < bs.length, ∀ j < bs.length,
      S.phys ((va + i) % 2 ^ 32) = S.phys ((va + j) % 2 ^ 32) → bs.getD i 0 = bs.getD j 0

/-- The last position of a range that is mapped to the byte of the position `i`. -/
theorem exists_last (S : Space) (va n : ℕ) {a : ℕ} (hi : i < n)
    (hphys : S.phys ((va + i) % 2 ^ 32) = some a) :
    ∃ m < n, S.phys ((va + m) % 2 ^ 32) = some a ∧
      ∀ j < n, m < j → S.phys ((va + j) % 2 ^ 32) ≠ some a := by
  classical
  let P := fun j => j < n ∧ S.phys ((va + j) % 2 ^ 32) = some a
  have hP : P (Nat.findGreatest P n) := Nat.findGreatest_spec (Nat.le_of_lt hi) ⟨hi, hphys⟩
  refine ⟨Nat.findGreatest P n, hP.1, hP.2, fun j hj hlt heq => ?_⟩
  exact Nat.findGreatest_is_greatest hlt (Nat.le_of_lt hj) ⟨hj, heq⟩

/-- Whether a loop that asks for no missing page table has done what it should. -/
theorem Ends.copies_iff {ram : Memory} {bs : List Byte} {r : Copied} (h : Ends S ram va bs r)
    (hreach : Reaches S va bs.length) : Copies S ram va bs r ↔ Served S va bs := by
  constructor
  · intro hc
    refine ⟨hreach, ?_, fun hall i hi j hj heq => ?_⟩
    · by_contra hno
      rw [not_or] at hno
      refine hno.1 (hc.zero.mp (h.zero.mpr fun i hi hnone => hno.2 ⟨i, hi, hnone⟩)).1
    · obtain ⟨a, ha⟩ := Option.ne_none_iff_exists'.mp (hall i hi)
      have hret := h.zero.mpr hall
      rw [← hc.bytes hret a i hi ha, ← hc.bytes hret a j hj (heq ▸ ha)]
  · intro hserved
    refine ⟨h.exist, h.inside, h.ret, ?_, fun hret a i hi ha => ?_⟩
    · rw [h.zero]
      refine ⟨fun hall => ⟨?_, hall⟩, And.right⟩
      exact hserved.range.resolve_right fun ⟨i, hi, hnone⟩ => hall i hi hnone
    · -- the byte holds what the last position of the range that has it was given
      obtain ⟨m, hm, hphys, hlast⟩ := exists_last S va bs.length hi ha
      rw [h.last hret a m hm hphys hlast]
      exact hserved.aliases (h.zero.mp hret) m hm i hi (hphys.trans ha.symm)

/-- **`copyout`**, for every directory whose user pages are pages of memory other than its own
tables, every address, and any bytes: it does what it should just if it comes to no address
without a page table, to no end of the address space, and to no byte that is to be given two
values. -/
theorem copyout_exact_iff (k : Kmem) (cr3 pgdir va : ℕ) (p : List Byte) (hva : va < 2 ^ 32)
    (hsep : (spaceOf k.ram pgdir).Separate) :
    (∃ r, copyout k cr3 pgdir va p = .ok r ∧ Copies (spaceOf k.ram pgdir) k.ram va p r) ↔
      Served (spaceOf k.ram pgdir) va p := by
  have hS := spaceOf_at k.ram pgdir
  by_cases hreach : Reaches (spaceOf k.ram pgdir) va p.length
  · obtain ⟨r, hr, hends⟩ := copyLoop_spec cr3 hsep (Nat.le_refl _) hS hva hreach
    rw [← hends.copies_iff hreach]
    constructor
    · rintro ⟨r', hr', hc⟩
      rwa [Except.ok.inj (hr.symm.trans hr')]
    · exact fun hc => ⟨r, hr, hc⟩
  · refine iff_of_false ?_ fun hserved => hreach hserved.tables
    rintro ⟨r, hr, hc⟩
    exact hc.exist (copyLoop_null hsep (Nat.le_refl _) hS hva hreach hr)

end Copyout

/-! ### Two calls -/

/-- Memory in which the directory at `0x3000` maps the page 0 to the page at `0x5000`, where the
first word looks like the entry of the page at `0x6000`. The page at `0x2000` is empty. -/
def pageZero : Memory :=
  putLE (putLE (putLE (fun _ => 0) 0x3000 4 0x4007) 0x4000 4 0x5007) 0x5000 4 0x6007

theorem load_pageZero {a : ℕ} (ha : a % 4 = 0) (h₃ : a ≠ 0x3000) (h₄ : a ≠ 0x4000)
    (h₅ : a ≠ 0x5000) : load pageZero a = 0 := by
  apply getLE_eq_zero
  intro b hle hlt
  unfold pageZero
  rw [putLE_of_disjoint (by omega), putLE_of_disjoint (by omega), putLE_of_disjoint (by omega)]

/-- The directory at `0x3000` has one page table. -/
theorem pageZero_table {i : ℕ} (hi : i < 1024) (h : i ≠ 0) :
    (spaceOf pageZero 0x3000).table i = none := by
  change (present (load pageZero (0x3000 + 4 * i))).map PTE_ADDR = none
  rw [load_pageZero (by omega) (by omega) (by omega) (by omega)]
  rfl

/-- The page 0 is all that it maps. -/
theorem pageZero_userPage {v pa : ℕ} (hv : v < 2 ^ 20)
    (h : (spaceOf pageZero 0x3000).userPage v = some pa) : v = 0 ∧ pa = 0x5000 := by
  have hentry : v ≠ 0 → (spaceOf pageZero 0x3000).entry v = none := by
    intro hne
    change ((spaceOf pageZero 0x3000).table (v / 1024)).bind _ = none
    by_cases hdiv : v / 1024 = 0
    · have hzero : (spaceOf pageZero 0x3000).table 0 = some 0x4000 := by decide +kernel
      rw [hdiv, hzero, Option.bind_some,
        load_pageZero (by omega) (by omega) (by omega) (by omega)]
      rfl
    · rw [pageZero_table (by omega) hdiv]
      rfl
  by_cases hne : v = 0
  · subst hne
    exact ⟨rfl, Option.some.inj (h.symm.trans (by decide +kernel))⟩
  · rw [Space.userPage, hentry hne] at h
    cases h

theorem pageZero_separate : (spaceOf pageZero 0x3000).Separate where
  aligned := by decide
  below v hv pa h := by
    rw [(pageZero_userPage hv h).2]
    decide
  pgdir v hv pa h := by
    rw [(pageZero_userPage hv h).2]
    decide
  table v hv pa h i hi := by
    rw [(pageZero_userPage hv h).2]
    by_cases hne : i = 0
    · subst hne
      decide +kernel
    · rw [pageZero_table hi hne]
      exact nofun

/-- Two bytes are copied to the page 0. -/
theorem copyout_pageZero :
    ∃ r, copyout ⟨pageZero, none, fun _ => false, 0⟩ 0x3000 0x3000 5 [1, 2] = .ok r ∧
      Copies (spaceOf pageZero 0x3000) pageZero 5 [1, 2] r :=
  (copyout_exact_iff ⟨pageZero, none, fun _ => false, 0⟩ 0x3000 0x3000 5 [1, 2] (by decide)
    pageZero_separate).mpr
    ⟨by unfold Reaches; decide +kernel, .inl (by decide), by decide +kernel⟩

/-- A directory without page tables maps nothing. -/
theorem empty_userPage {v : ℕ} (hv : v < 2 ^ 20) : (spaceOf pageZero 0x2000).userPage v = none := by
  have htable : (spaceOf pageZero 0x2000).table (v / 1024) = none := by
    change (present (load pageZero (0x2000 + 4 * (v / 1024)))).map PTE_ADDR = none
    rw [load_pageZero (by omega) (by omega) (by omega) (by omega)]
    rfl
  change Option.bind (((spaceOf pageZero 0x2000).table (v / 1024)).bind _) _ = none
  rw [htable]
  rfl

theorem empty_separate : (spaceOf pageZero 0x2000).Separate where
  aligned := by decide
  below v hv pa h := absurd ((empty_userPage hv).symm.trans h) nofun
  pgdir v hv pa h := absurd ((empty_userPage hv).symm.trans h) nofun
  table v hv pa h := absurd ((empty_userPage hv).symm.trans h) nofun

/-- **The null pointer is followed.** The directory at `0x2000` has no page tables at all. The
address is what `exec` computes for an argument of 32 megabytes on the stack of an image that ends
at `0x3000`. `copyout` takes the first word of the running process for the entry, writes to the
page at `0x6000` and returns 0. -/
theorem copyout_follows_null :
    (spaceOf pageZero 0x2000).Separate ∧
      (∀ x < 2 ^ 32, (spaceOf pageZero 0x2000).phys x = none) ∧
      ∃ r, copyout ⟨pageZero, none, fun _ => false, 0⟩ 0x3000 0x2000 0xFDFFFFFC [1] = .ok r ∧
        r.ret = 0 ∧ r.ptes = [none] ∧ r.k.ram 0x6FFC = 1 ∧ pageZero 0x6FFC = 0 ∧
        ¬ Copies (spaceOf pageZero 0x2000) pageZero 0xFDFFFFFC [1] r := by
  have huva : Kmem.uva2ka ⟨pageZero, none, fun _ => false, 0⟩ 0x3000 0x2000
      (PGROUNDDOWN 0xFDFFFFFC) = .ok (none, some 0x6000) := by
    decide +kernel
  refine ⟨empty_separate, fun x hx => ?_,
    ⟨⟨splice pageZero 0x6FFC [1], none, fun _ => false, 0⟩, 0, [none]⟩, ?_, rfl, rfl,
    by decide +kernel, by decide +kernel, fun hc => ?_⟩
  · rw [Space.phys, empty_userPage]
    · rfl
    · rw [pgsize_eq]
      omega
  · unfold copyout
    rw [List.length_singleton, copyLoop]
    · dsimp only
      rw [huva]
      rfl
    · exact nofun
  · exact hc.exist (List.mem_singleton.mpr rfl)

end Xv6.Vm
