import Assignments.Xv6.CopyUvm
import Assignments.Xv6.Copyout

/-!
# The image of an executable

The first part of `exec.c`: a new directory is filled from the program headers of a file, and two
pages for the stack are put after the last segment. The headers are 32-bit numbers that nobody has
checked, and are combined by sums that may wrap.

* `File` — what `readi` returns for the inode that `exec` has locked, whatever it holds;
* `Builds` — what each routine leaves of everything but the new directory;
* `Loaded` — a directory without holes below a size, kept by `allocuvm` and `loaduvm`;
* `Owned.loadSegments` — the loop over the program headers, for any headers;
* `Owned.stackPages` — the two pages of the stack, of which the first is not the user's.

`File.stackTop` computes where the stack ends from the file alone.
-/

namespace Xv6.Vm

open Framework
open Xv6.Ptable (PGSIZE KERNBASE Proc)

abbrev ELF_MAGIC : ℕ := 0x464C457F

abbrev ELF_PROG_LOAD : ℕ := 1

/-- What `readi` returns for an inode: the bytes that are copied, or a failure. -/
structure File where
  readi : ℕ → ℕ → Option (List Byte)
  length_le : ∀ off n bs, readi off n = some bs → bs.length ≤ n

/-- `readi(ip, p, off, n) == n`. -/
def File.read (f : File) (off n : ℕ) : Option (List Byte) :=
  (f.readi off n).filter fun bs => bs.length = n

/-- A number in a header. -/
def field (bs : List Byte) (off n : ℕ) : ℕ := getLE (fun i => bs.getD i 0) off n

structure Elfhdr where
  magic : ℕ
  entry : ℕ
  phoff : ℕ
  phnum : ℕ

def elfhdr (bs : List Byte) : Elfhdr := ⟨field bs 0 4, field bs 24 4, field bs 28 4, field bs 44 2⟩

structure Proghdr where
  type : ℕ
  off : ℕ
  vaddr : ℕ
  filesz : ℕ
  memsz : ℕ

def proghdr (bs : List Byte) : Proghdr :=
  ⟨field bs 0 4, field bs 4 4, field bs 8 4, field bs 16 4, field bs 20 4⟩

namespace Kmem

/-- The loop of `loaduvm`. A short read leaves the bytes that it got. -/
def loadLoop (f : File) (pgdir addr offset sz : ℕ) : ℕ → ℕ → Kmem → Except Halt (ℤ × Kmem)
  | 0, _, _ => .error .loop
  | fuel + 1, i, k =>
    if i < sz then
      match (k.walkpgdir pgdir ((addr + i) % 2 ^ 32) false).1 with
      | none => .error (.panic "loaduvm: address should exist")
      | some pte =>
        let pa := PTE_ADDR (load k.ram pte)
        let n := if sz - i < PGSIZE then sz - i else PGSIZE
        match f.readi ((offset + i) % 2 ^ 32) n with
        | none => .ok (-1, k)
        | some bs =>
          let k := { k with ram := splice k.ram pa bs }
          if bs.length ≠ n then .ok (-1, k)
          else loadLoop f pgdir addr offset sz fuel ((i + PGSIZE) % 2 ^ 32) k
    else .ok (0, k)

def loaduvm (k : Kmem) (pgdir addr : ℕ) (f : File) (offset sz : ℕ) : Except Halt (ℤ × Kmem) :=
  if addr % PGSIZE ≠ 0 then .error (.panic "loaduvm: addr must be page aligned")
  else loadLoop f pgdir addr offset sz (2 ^ 20 + 1) 0 k

def clearpteu (k : Kmem) (pgdir uva : ℕ) : Except Halt Kmem :=
  match (k.walkpgdir pgdir uva false).1 with
  | none => .error (.panic "clearpteu")
  | some pte => .ok (k.store pte (load k.ram pte &&& (2 ^ 32 - 1 - PTE_U)))

/-- The loop over the program headers: the size of the image, or `goto bad`. -/
def loadSegments (L : Link) (f : File) (pgdir : ℕ) :
    ℕ → ℕ → ℕ → Kmem → Except Halt (Option ℕ × Kmem)
  | 0, _, sz, k => .ok (some sz, k)
  | n + 1, off, sz, k =>
    match f.read off 32 with
    | none => .ok (none, k)
    | some bs =>
      let ph := proghdr bs
      if ph.type ≠ ELF_PROG_LOAD then loadSegments L f pgdir n ((off + 32) % 2 ^ 32) sz k
      else if ph.memsz < ph.filesz then .ok (none, k)
      else if (ph.vaddr + ph.memsz) % 2 ^ 32 < ph.vaddr then .ok (none, k)
      else do
        let (sz, k) ← k.allocuvm L pgdir sz ((ph.vaddr + ph.memsz) % 2 ^ 32)
        if sz = 0 then return (none, k)
        if ph.vaddr % PGSIZE ≠ 0 then return (none, k)
        let (r, k) ← k.loaduvm pgdir ph.vaddr f ph.off ph.filesz
        if r < 0 then return (none, k)
        loadSegments L f pgdir n ((off + 32) % 2 ^ 32) sz k

/-- The two pages of the stack: the size with them, or `goto bad`. -/
def stackPages (L : Link) (k : Kmem) (pgdir sz : ℕ) : Except Halt (Option ℕ × Kmem) := do
  let (sz, k) ← k.allocuvm L pgdir (PGROUNDUP sz) ((PGROUNDUP sz + 2 * PGSIZE) % 2 ^ 32)
  if sz = 0 then return (none, k)
  let k ← k.clearpteu pgdir (sz - 2 * PGSIZE)
  return (some sz, k)

end Kmem

/-! ### The size of an image, from the file alone -/

namespace File

/-- Every page of a segment can be read. -/
def loads (f : File) (ph : Proghdr) : Prop :=
  ∀ j < ph.filesz, PGSIZE * j < ph.filesz →
    (f.read ((ph.off + PGSIZE * j) % 2 ^ 32) (min (ph.filesz - PGSIZE * j) PGSIZE)).isSome

/-- A segment that can be mapped and read after the size `sz`. -/
structure Good (f : File) (sz : ℕ) (ph : Proghdr) : Prop where
  file : ph.filesz ≤ ph.memsz
  user : ph.vaddr + ph.memsz < KERNBASE
  pos : 0 < max sz (ph.vaddr + ph.memsz)
  aligned : ph.vaddr % PGSIZE = 0
  loads : f.loads ph

instance (f : File) (ph : Proghdr) : Decidable (f.loads ph) :=
  inferInstanceAs (Decidable (∀ j < _, _))

instance (f : File) (sz : ℕ) (ph : Proghdr) : Decidable (f.Good sz ph) :=
  decidable_of_iff
    (ph.filesz ≤ ph.memsz ∧ ph.vaddr + ph.memsz < KERNBASE ∧
      0 < max sz (ph.vaddr + ph.memsz) ∧ ph.vaddr % PGSIZE = 0 ∧ f.loads ph)
    ⟨fun ⟨h₁, h₂, h₃, h₄, h₅⟩ => ⟨h₁, h₂, h₃, h₄, h₅⟩,
      fun h => ⟨h.file, h.user, h.pos, h.aligned, h.loads⟩⟩

/-- What the loop over the program headers returns if there is memory enough. -/
def sizeLoop (f : File) : ℕ → ℕ → ℕ → Option ℕ
  | 0, _, sz => some sz
  | n + 1, off, sz =>
    (f.read off 32).bind fun bs =>
      if (proghdr bs).type ≠ ELF_PROG_LOAD then f.sizeLoop n ((off + 32) % 2 ^ 32) sz
      else if f.Good sz (proghdr bs) then
        f.sizeLoop n ((off + 32) % 2 ^ 32) (max sz ((proghdr bs).vaddr + (proghdr bs).memsz))
      else none

/-- Where the stack of the image ends. -/
def stackTop (f : File) : Option ℕ :=
  (f.read 0 52).bind fun bs =>
    if (elfhdr bs).magic ≠ ELF_MAGIC then none
    else
      (f.sizeLoop (elfhdr bs).phnum (elfhdr bs).phoff 0).bind fun sz =>
        if PGROUNDUP sz + 2 * PGSIZE < KERNBASE then some (PGROUNDUP sz + 2 * PGSIZE) else none

end File

/-! ### What is left alone -/

section Image

variable {L : Link} {k k' k₁ : Kmem} {D D' D₁ : Space} {l l' l₁ : List ℕ} {held : Multiset ℕ}
  {f : File} {sz pa v : ℕ}

/-- A routine has worked on the directory `D`: no page is lost, what others hold is unchanged, and
so are the entries at and above `KERNBASE`. -/
structure Builds (L : Link) (k : Kmem) (D : Space) (l : List ℕ) (held : Multiset ℕ) (k' : Kmem)
    (D' : Space) (l' : List ℕ) : Prop where
  owned : Owned L k' D' l' held
  pgdir : D'.pgdir = D.pgdir
  total : (l' : Multiset ℕ) + D'.pages = (l : Multiset ℕ) + D.pages
  agree : AgreeOn PGSIZE held k.ram k'.ram
  denied : k'.denied = k.denied
  kernel : ∀ v, NUSER ≤ v → D'.entry v = D.entry v

namespace Builds

theorem refl (h : Owned L k D l held) : Builds L k D l held k D l :=
  ⟨h, rfl, rfl, .refl _, rfl, fun _ _ => rfl⟩

theorem trans (h₁ : Builds L k D l held k₁ D₁ l₁) (h₂ : Builds L k₁ D₁ l₁ held k' D' l') :
    Builds L k D l held k' D' l' where
  owned := h₂.owned
  pgdir := h₂.pgdir.trans h₁.pgdir
  total := h₂.total.trans h₁.total
  agree := h₁.agree.trans h₂.agree
  denied := h₂.denied.trans h₁.denied
  kernel v hv := (h₂.kernel v hv).trans (h₁.kernel v hv)

/-- Bytes that are written to user pages. -/
theorem write (h : Owned L k D l held) {ram : Memory} (hram : AgreeOff PGSIZE D.user k.ram ram) :
    Builds L k D l held { k with ram := ram } D l where
  owned := h.congr hram rfl fun _ hq => Multiset.mem_add.mpr (.inl hq)
  pgdir := rfl
  total := rfl
  agree := by
    apply hram.agreeOn
    rw [Multiset.disjoint_left]
    intro q hq
    exact h.notMem_held_of_pages (Multiset.mem_add.mpr (.inr hq))
  denied := rfl
  kernel _ _ := rfl

end Builds

/-- The directory maps every user page below `sz`, and no other. -/
structure Loaded (L : Link) (D : Space) (sz : ℕ) : Prop where
  tight : D.Tight
  kernel : ∀ v, NUSER ≤ v → D.entry v = kernelEntry L v
  mapped : ∀ v, PGSIZE * v < sz → ∃ pa, pa % PGSIZE = 0 ∧
    D.entry v = some (pa ||| (PTE_W ||| PTE_U) ||| PTE_P)
  empty : ∀ v < NUSER, sz ≤ PGSIZE * v → D.entry v = none

/-- A new directory. -/
theorem loaded_zero (hentry : D.entry = kernelEntry L) (htight : D.Tight) : Loaded L D 0 where
  tight := htight
  kernel v _ := by rw [hentry]
  mapped v hv := absurd hv (Nat.not_lt_zero _)
  empty v hv _ := by
    rw [hentry]
    exact kernelEntry_user hv

/-- Pages are added at the end. -/
theorem Loaded.filled (h : Loaded L D sz) {newsz : ℕ} (hnew : newsz < KERNBASE) (hle : sz ≤ newsz)
    (hfilled : Filled D.entry (PGROUNDUP sz) newsz k' D') (htight : D.Tight → D'.Tight) :
    Loaded L D' newsz where
  tight := htight h.tight
  kernel v hv := by
    rw [hfilled.other v, h.kernel v hv]
    rintro ⟨-, hlt⟩
    exact absurd (lt_nuser (hlt.trans hnew)) (Nat.not_lt.mpr hv)
  mapped v hv := by
    by_cases hold : PGSIZE * v < sz
    · rw [hfilled.other v]
      · exact h.mapped v hold
      · rintro ⟨hge, -⟩
        exact absurd (hold.trans_le (le_pgroundup (hle.trans (le_of_lt hnew)))) (Nat.not_lt.mpr hge)
    · have hge := pgroundup_le (hle.trans (le_of_lt hnew)) (Nat.mul_mod_right PGSIZE v)
        (Nat.le_of_not_lt hold)
      obtain ⟨pa, hentry, hpa, -⟩ := hfilled.fresh v hge hv
      exact ⟨pa, hpa, hentry⟩
  empty v hv hge := by
    rw [hfilled.other v]
    · exact h.empty v hv (hle.trans hge)
    · exact fun hin => absurd hin.2 (Nat.not_lt.mpr hge)

/-- The image grows, or it does not and there is too little memory. -/
theorem Owned.growImage (h : Owned L k D l held) (himage : Loaded L D sz) {newsz : ℕ}
    (hle : sz ≤ newsz) (hnew : newsz < KERNBASE) :
    ∃ r k' D' l', k.allocuvm L D.pgdir sz newsz = .ok (r, k') ∧ Builds L k D l held k' D' l' ∧
      ((r = newsz ∧ Loaded L D' newsz) ∨
        (r = 0 ∧ Starved k D l ((newsz + PGSIZE - 1 - PGROUNDUP sz) / PGSIZE))) := by
  obtain ⟨r, k', D', l', hrun, hown, hcases⟩ := h.allocuvm hle hnew fun v hv hv' =>
    himage.empty v (lt_nuser (hv'.trans hnew)) hv
  refine ⟨r, k', D', l', hrun, ?_, ?_⟩
  · rcases hcases with ⟨-, hgrows, hfilled, -⟩ | ⟨-, -, hshrinks, hentry, -⟩
    · refine ⟨hown, hgrows.pgdir, add_right_cancel hgrows.total, hgrows.agreeOn h, hgrows.denied,
        fun v hv => hfilled.other v ?_⟩
      rintro ⟨-, hlt⟩
      exact absurd (lt_nuser (hlt.trans hnew)) (Nat.not_lt.mpr hv)
    · exact ⟨hown, hshrinks.pgdir, hshrinks.total, hshrinks.agreeOn hown, hshrinks.denied,
        fun v _ => by rw [hentry]⟩
  · rcases hcases with ⟨hr, -, hfilled, htight⟩ | ⟨hr, -, -, -, hstarved⟩
    · exact .inl ⟨hr, himage.filled hnew hle hfilled htight⟩
    · exact .inr ⟨hr, hstarved⟩

/-! ### Segments -/

/-- The entry of an address below the size is found, and names a user page. -/
theorem Loaded.walkpgdir (h : Loaded L D sz) (hown : Owned L k D l held) (hsz : sz < KERNBASE)
    {va : ℕ} (hva : va < sz) :
    ∃ pte, (k.walkpgdir D.pgdir va false).1 = some pte ∧
      PTE_ADDR (load k.ram pte) ∈ D.user := by
  have hlt : va < 2 ^ 32 := by
    rw [kernbase_eq] at hsz
    omega
  have hpage : PGSIZE * (va / PGSIZE) ≤ va := Nat.mul_div_le va PGSIZE
  obtain ⟨pa, hpa, hentry⟩ := h.mapped (va / PGSIZE) (hpage.trans_lt hva)
  cases ht : D.table (PDX va) with
  | none => exact nomatch (hown.space.entry_of_table_none hlt ht).symm.trans hentry
  | some t =>
    have hload := hown.space.load_entry hlt ht
    rw [hentry, present_eq_some] at hload
    refine ⟨t + 4 * PTX va, ?_, ?_⟩
    · rw [hown.space.walkpgdir, ht]
      rfl
    · rw [hload.2]
      refine Space.mem_user.mpr ⟨va / PGSIZE, lt_nuser (hpage.trans_lt (hva.trans hsz)), ?_⟩
      rw [Space.page, hentry]
      rfl

section

variable (h : Owned L k D l held) (himage : Loaded L D sz)

include h himage

/-- **The loop of `loaduvm`** writes to pages of the image only. It succeeds just if every page of
the segment can be read. -/
theorem Owned.loadLoop {fuel i addr offset n : ℕ} (hsz : sz < KERNBASE) (haddr : addr + n ≤ sz)
    (hi : i % PGSIZE = 0) (hin : i < n + PGSIZE) (hfuel : n + PGSIZE ≤ i + PGSIZE * fuel) :
    ∃ r k', Kmem.loadLoop f D.pgdir addr offset n fuel i k = .ok (r, k') ∧
      Builds L k D l held k' D l ∧
      ((r = 0 ∧ ∀ j, i ≤ PGSIZE * j → PGSIZE * j < n →
          (f.read ((offset + PGSIZE * j) % 2 ^ 32) (min (n - PGSIZE * j) PGSIZE)).isSome) ∨
        r = -1) := by
  have hbase : sz < 2 ^ 31 := hsz
  induction fuel generalizing i k with
  | zero => exact absurd (hin.trans_le hfuel) (Nat.lt_irrefl _)
  | succ fuel ih =>
    by_cases hlt : i < n
    · have hva : (addr + i) % 2 ^ 32 = addr + i := Nat.mod_eq_of_lt (by omega)
      obtain ⟨pte, hwalk, hmem⟩ := himage.walkpgdir h hsz (show addr + i < sz by omega)
      have hmin : (if n - i < PGSIZE then n - i else PGSIZE) = min (n - i) PGSIZE := by
        split
        · next hshort => exact (Nat.min_eq_left (le_of_lt hshort)).symm
        · next hlong => exact (Nat.min_eq_right (Nat.le_of_not_lt hlong)).symm
      rw [Kmem.loadLoop, if_pos hlt, hva, hwalk]
      dsimp only
      rw [hmin]
      generalize PTE_ADDR (load k.ram pte) = pa at hmem ⊢
      cases hread : f.readi ((offset + i) % 2 ^ 32) (min (n - i) PGSIZE) with
      | none => exact ⟨-1, k, rfl, .refl h, .inr rfl⟩
      | some bs =>
      -- the bytes are put on one page of the image
      have hlen : bs.length ≤ PGSIZE :=
        (f.length_le _ _ bs hread).trans (Nat.min_le_right _ _)
      have hwrite : AgreeOff PGSIZE {pa} k.ram (splice k.ram pa bs) :=
        agreeOff_splice (i := 0) (h.page_user hmem).aligned (by rwa [Nat.zero_add])
      have hbuilds := Builds.write h (hwrite.mono fun q hq => Multiset.mem_singleton.mp hq ▸ hmem)
      by_cases hshort : bs.length ≠ min (n - i) PGSIZE
      · dsimp only
        rw [if_pos hshort]
        exact ⟨-1, _, rfl, hbuilds, .inr rfl⟩
      · have hnext : (i + PGSIZE) % 2 ^ 32 = i + PGSIZE := Nat.mod_eq_of_lt (by
          rw [pgsize_eq]
          omega)
        dsimp only
        rw [if_neg hshort, hnext]
        obtain ⟨r, k', hrun, hrest, hr⟩ := ih hbuilds.owned (i := i + PGSIZE)
          (by rw [Nat.add_mod_right]; exact hi) (Nat.add_lt_add_right hlt PGSIZE)
          (by rw [Nat.mul_succ] at hfuel; omega)
        refine ⟨r, k', hrun, hbuilds.trans hrest, ?_⟩
        rcases hr with ⟨hr, hall⟩ | hr
        · refine .inl ⟨hr, fun j hj hjn => ?_⟩
          by_cases hfirst : PGSIZE * j = i
          · rw [hfirst, File.read, hread, Option.filter_some, decide_eq_true (not_not.mp hshort)]
            rfl
          · refine hall j ?_ hjn
            rw [pgsize_eq] at hi hj hfirst ⊢
            omega
        · exact .inr hr
    · refine ⟨0, k, ?_, .refl h, .inl ⟨rfl, fun j hj hjn => absurd (hj.trans_lt hjn) hlt⟩⟩
      rw [Kmem.loadLoop, if_neg hlt]

/-- A segment inside the image is loaded, or cannot be read. -/
theorem Owned.loaduvm {ph : Proghdr} (hsz : sz < KERNBASE) (haddr : ph.vaddr + ph.filesz ≤ sz)
    (haligned : ph.vaddr % PGSIZE = 0) :
    ∃ r k', k.loaduvm D.pgdir ph.vaddr f ph.off ph.filesz = .ok (r, k') ∧
      Builds L k D l held k' D l ∧ ((r = 0 ∧ f.loads ph) ∨ r = -1) := by
  have hfuel : ph.filesz + PGSIZE ≤ 0 + PGSIZE * (2 ^ 20 + 1) := by
    rw [kernbase_eq] at hsz
    rw [pgsize_eq]
    omega
  obtain ⟨r, k', hrun, hbuilds, hr⟩ := h.loadLoop (f := f) (i := 0) himage hsz haddr rfl
    (Nat.add_pos_right _ (by decide)) hfuel
  refine ⟨r, k', ?_, hbuilds, ?_⟩
  · rw [Kmem.loaduvm, if_neg (not_not.mpr haligned)]
    exact hrun
  · rcases hr with ⟨hr, hall⟩ | hr
    · exact .inl ⟨hr, fun j _ hj => hall j (Nat.zero_le _) hj⟩
    · exact .inr hr

/-- `allocuvm` in the loop: the size grows to the end of the segment, or stays. -/
theorem Owned.segment (top : ℕ) :
    ∃ r k' D' l', k.allocuvm L D.pgdir sz top = .ok (r, k') ∧ Builds L k D l held k' D' l' ∧
      (r = 0 ∨ top < KERNBASE ∧ r = max sz top ∧ Loaded L D' r) := by
  by_cases htop : top ≥ KERNBASE
  · refine ⟨0, k, D, l, ?_, .refl h, .inl rfl⟩
    rw [Kmem.allocuvm, if_pos htop]
  · have hlt : top < KERNBASE := Nat.lt_of_not_le htop
    by_cases hshort : top < sz
    · refine ⟨sz, k, D, l, ?_, .refl h, .inr ⟨hlt, (max_eq_left (le_of_lt hshort)).symm, himage⟩⟩
      rw [Kmem.allocuvm, if_neg htop, if_pos hshort]
    · have hle : sz ≤ top := Nat.le_of_not_lt hshort
      obtain ⟨r, k', D', l', hrun, hbuilds, hr⟩ := h.growImage himage hle hlt
      refine ⟨r, k', D', l', hrun, hbuilds, ?_⟩
      rcases hr with ⟨rfl, himage'⟩ | ⟨rfl, -⟩
      · exact .inr ⟨hlt, (max_eq_right hle).symm, himage'⟩
      · exact .inl rfl

end

theorem field_lt (bs : List Byte) (off n : ℕ) : field bs off n < 256 ^ n := getLE_lt

/-- **The loop over the program headers.** For any headers, the image has no hole after the loop,
and the size is the one that the file says. -/
theorem Owned.loadSegments {n : ℕ} (off : ℕ) (h : Owned L k D l held) (himage : Loaded L D sz)
    (hsz : sz < KERNBASE) :
    ∃ r k' D' l', Kmem.loadSegments L f D.pgdir n off sz k = .ok (r, k') ∧
      Builds L k D l held k' D' l' ∧
      ∀ sz', r = some sz' → sz' < KERNBASE ∧ Loaded L D' sz' ∧ f.sizeLoop n off sz = some sz' := by
  induction n generalizing k D l sz off with
  | zero =>
    refine ⟨some sz, k, D, l, rfl, .refl h, ?_⟩
    rintro sz' ⟨⟩
    exact ⟨hsz, himage, rfl⟩
  | succ n ih =>
    rw [Kmem.loadSegments, File.sizeLoop]
    cases hread : f.read off 32 with
    | none => exact ⟨none, k, D, l, rfl, .refl h, nofun⟩
    | some bs =>
    dsimp only [Option.bind_some]
    generalize hph : proghdr bs = ph
    have hvaddr : ph.vaddr < 2 ^ 32 := hph ▸ field_lt bs 8 4
    have hmemsz : ph.memsz < 2 ^ 32 := hph ▸ field_lt bs 20 4
    by_cases htype : ph.type ≠ ELF_PROG_LOAD
    · rw [if_pos htype, if_pos htype]
      exact ih _ h himage hsz
    rw [if_neg htype, if_neg htype]
    by_cases hfile : ph.memsz < ph.filesz
    · rw [if_pos hfile]
      exact ⟨none, k, D, l, rfl, .refl h, nofun⟩
    rw [if_neg hfile]
    by_cases hwrap : (ph.vaddr + ph.memsz) % 2 ^ 32 < ph.vaddr
    · rw [if_pos hwrap]
      exact ⟨none, k, D, l, rfl, .refl h, nofun⟩
    rw [if_neg hwrap]
    -- the sum has not wrapped
    have hsum : (ph.vaddr + ph.memsz) % 2 ^ 32 = ph.vaddr + ph.memsz := by omega
    rw [hsum]
    obtain ⟨r, k₁, D₁, l₁, hrun₁, hbuilds₁, hr⟩ := h.segment himage (ph.vaddr + ph.memsz)
    simp only [hrun₁, bind, Except.bind]
    by_cases hzero : r = 0
    · rw [if_pos hzero]
      exact ⟨none, k₁, D₁, l₁, rfl, hbuilds₁, nofun⟩
    rw [if_neg hzero]
    obtain ⟨htop, hmax, himage₁⟩ := hr.resolve_left hzero
    by_cases haligned : ph.vaddr % PGSIZE ≠ 0
    · rw [if_pos haligned]
      exact ⟨none, k₁, D₁, l₁, rfl, hbuilds₁, nofun⟩
    rw [if_neg haligned]
    have hr' : r < KERNBASE := hmax ▸ max_lt hsz htop
    have hend : ph.vaddr + ph.filesz ≤ r := by
      have hle : ph.vaddr + ph.memsz ≤ r := hmax ▸ le_max_right _ _
      omega
    obtain ⟨r₂, k₂, hrun₂, hbuilds₂, hr₂⟩ := hbuilds₁.owned.loaduvm (f := f) himage₁ hr' hend
      (not_not.mp haligned)
    rw [hbuilds₁.pgdir] at hrun₂
    simp only [pure, Except.pure, hrun₂]
    rcases hr₂ with ⟨rfl, hloads⟩ | rfl
    · obtain ⟨r₃, k₃, D₃, l₃, hrun₃, hbuilds₃, hdone⟩ :=
        ih ((off + 32) % 2 ^ 32) hbuilds₂.owned himage₁ hr'
      refine ⟨r₃, k₃, D₃, l₃, ?_, (hbuilds₁.trans hbuilds₂).trans hbuilds₃, fun sz' hsz' => ?_⟩
      · rw [if_neg (lt_irrefl 0), ← hbuilds₁.pgdir]
        exact hrun₃
      · have hgood : f.Good sz ph := by
          refine ⟨Nat.le_of_not_lt hfile, htop, ?_, not_not.mp haligned, hloads⟩
          rw [← hmax]
          exact Nat.pos_of_ne_zero hzero
        rw [if_pos hgood, ← hmax]
        exact hdone sz' hsz'
    · rw [if_pos (by decide)]
      exact ⟨none, k₂, D₁, l₁, rfl, hbuilds₁.trans hbuilds₂, nofun⟩

/-! ### The stack -/

/-- The image with its stack: every page below `sz` is mapped and is the user's, except that the
page before the last one is not the user's. -/
structure Stacked (L : Link) (D : Space) (sz : ℕ) : Prop where
  tight : D.Tight
  kernel : ∀ v, NUSER ≤ v → D.entry v = kernelEntry L v
  mapped : ∀ v < NUSER, D.entry v ≠ none ↔ PGSIZE * v < sz
  user : ∀ v < NUSER, D.userPage v ≠ none ↔ PGSIZE * v < sz ∧ PGSIZE * v ≠ sz - 2 * PGSIZE
  aligned : sz % PGSIZE = 0
  room : 2 * PGSIZE ≤ sz
  below : sz < KERNBASE

/-- An entry without the flag of user pages. -/
def notUser (e : ℕ) : ℕ := e &&& (2 ^ 32 - 1 - PTE_U)

theorem notUser_user (e : ℕ) : notUser e &&& PTE_U = 0 := by
  rw [notUser, Nat.and_assoc]
  exact Nat.and_zero e

theorem present_notUser {e : ℕ} (h : e &&& PTE_P ≠ 0) : present (notUser e) = some (notUser e) := by
  apply present_of_and
  rwa [notUser, Nat.and_assoc]

theorem notUser_lt (e : ℕ) : notUser e < 2 ^ 32 :=
  Nat.lt_of_le_of_lt Nat.and_le_right (by decide)

theorem notUser_addr {e : ℕ} (h : e < 2 ^ 32) : PTE_ADDR (notUser e) = PTE_ADDR e := by
  have hdiv : notUser e / 2 ^ 12 = e / 2 ^ 12 := by
    have hlt : e / 2 ^ 12 < 2 ^ 20 := by omega
    rw [notUser, Nat.and_div_two_pow]
    exact Nat.and_two_pow_sub_one_of_lt_two_pow hlt
  change notUser e / 2 ^ 12 * _ = e / 2 ^ 12 * _
  rw [hdiv]

theorem Loaded.roundup (h : Loaded L D sz) (hsz : sz < KERNBASE) : Loaded L D (PGROUNDUP sz) where
  tight := h.tight
  kernel := h.kernel
  mapped v hv := h.mapped v ((mul_lt_pgroundup (le_of_lt hsz)).mp hv)
  empty v hv hle := h.empty v hv ((le_pgroundup (le_of_lt hsz)).trans hle)

/-- The entry of a page below the size, as the user sees it. -/
theorem Loaded.userPage (h : Loaded L D sz) (hv : PGSIZE * v < sz) : D.userPage v ≠ none := by
  obtain ⟨pa, hpa, hentry⟩ := h.mapped v hv
  have huser : ¬ (pa ||| (PTE_W ||| PTE_U) ||| PTE_P) &&& PTE_U = 0 := by
    rw [Nat.or_assoc, lor_and_user hpa]
    decide
  rw [Space.userPage, hentry, Option.bind_some, if_neg huser]
  exact Option.some_ne_none _

/-- **The flag of user pages is cleared** on a page of the image. -/
theorem Owned.clearpteu (h : Owned L k D l held) (himage : Loaded L D sz) (hsz : sz < KERNBASE)
    (hv : PGSIZE * v < sz) :
    ∃ k' e, k.clearpteu D.pgdir (PGSIZE * v) = .ok k' ∧ D.entry v ≠ none ∧ e &&& PTE_U = 0 ∧
      Builds L k D l held k' (D.setEntry v (some e)) l := by
  have hva : PGSIZE * v < 2 ^ 32 := by
    rw [kernbase_eq] at hsz
    omega
  have hdiv : PGSIZE * v / PGSIZE = v := Nat.mul_div_cancel_left v (by decide)
  have hlt : v < NUSER := lt_nuser (hv.trans hsz)
  obtain ⟨pa, hpa, hentry⟩ := himage.mapped v hv
  cases ht : D.table (PDX (PGSIZE * v)) with
  | none =>
    have hnone := h.space.entry_of_table_none hva ht
    rw [hdiv, hentry] at hnone
    cases hnone
  | some t =>
    have hload := h.space.load_entry hva ht
    rw [hdiv, hentry, present_eq_some] at hload
    generalize he : load k.ram (t + 4 * PTX (PGSIZE * v)) = e at hload
    have helt : e < 2 ^ 32 := he ▸ getLE_lt
    have hv20 : v < 2 ^ 20 := hlt.trans (by decide)
    have htable : D.table (v / 1024) = some t := by
      rw [← ht, PDX_eq hva, hdiv]
    have hset := h.setEntry held hv20 htable (notUser_lt e) (by
      rw [if_pos hlt, present_notUser hload.1, Option.map_some, notUser_addr helt, Space.page,
        hentry, ← hload.2, Option.map_some])
    rw [present_notUser hload.1] at hset
    refine ⟨_, notUser e, ?_, by simp [hentry], notUser_user e, hset.1, hset.2.pgdir,
      add_right_cancel hset.2.total, hset.2.agreeOn h, hset.2.denied, ?_⟩
    · rw [Kmem.clearpteu, h.space.walkpgdir, ht]
      dsimp only [Option.map_some]
      rw [he, PTX_eq, hdiv]
      rfl
    · intro w hw
      exact Space.setEntry_entry_of_ne (ne_of_gt (hlt.trans_le hw))

/-- The image with a page that is not the user's. -/
theorem Loaded.stacked {top e : ℕ} (h : Loaded L D top) (haligned : top % PGSIZE = 0)
    (hroom : 2 * PGSIZE ≤ top) (htop : top < KERNBASE) (hguard : PGSIZE * v = top - 2 * PGSIZE)
    (he : e &&& PTE_U = 0) : Stacked L (D.setEntry v (some e)) top := by
  have hv : PGSIZE * v < top := by
    rw [hguard]
    exact Nat.sub_lt (Nat.lt_of_lt_of_le (by decide) hroom) (by decide)
  have hlt : v < NUSER := lt_nuser (hv.trans htop)
  have hempty : ∀ w < NUSER, ¬ PGSIZE * w < top → D.entry w = none := fun w hw hle =>
    h.empty w hw (Nat.le_of_not_lt hle)
  refine ⟨?_, ?_, ?_, ?_, haligned, hroom, htop⟩
  · intro i hi
    obtain ⟨w, hw, hne⟩ := h.tight i hi
    refine ⟨w, hw, ?_⟩
    by_cases hwv : w = v
    · rw [hwv, Space.setEntry_entry_self]
      exact nofun
    · rwa [Space.setEntry_entry_of_ne hwv]
  · intro w hw
    rw [Space.setEntry_entry_of_ne (ne_of_gt (hlt.trans_le hw))]
    exact h.kernel w hw
  · intro w hw
    by_cases hwv : w = v
    · rw [hwv, Space.setEntry_entry_self]
      exact iff_of_true nofun hv
    · rw [Space.setEntry_entry_of_ne hwv]
      constructor
      · intro hne
        by_contra hle
        exact hne (hempty w hw hle)
      · intro hin
        obtain ⟨pa, -, hentry⟩ := h.mapped w hin
        rw [hentry]
        exact nofun
  · intro w hw
    by_cases hwv : w = v
    · rw [hwv]
      refine iff_of_false (not_not.mpr ?_) fun hin => hin.2 hguard
      rw [Space.userPage, Space.setEntry_entry_self, Option.bind_some, if_pos he]
    · have hne : PGSIZE * w ≠ top - 2 * PGSIZE := by
        rw [← hguard]
        exact fun heq => hwv (Nat.eq_of_mul_eq_mul_left (by decide) heq)
      have hpage : (D.setEntry v (some e)).userPage w = D.userPage w := by
        rw [Space.userPage, Space.setEntry_entry_of_ne hwv]
        rfl
      rw [hpage]
      constructor
      · intro huser
        refine ⟨?_, hne⟩
        by_contra hle
        apply huser
        rw [Space.userPage, hempty w hw hle]
        rfl
      · exact fun hin => h.userPage hin.1

theorem pgroundup_self {n : ℕ} (hn : n % PGSIZE = 0) (hle : n ≤ KERNBASE) : PGROUNDUP n = n :=
  le_antisymm (pgroundup_le hle hn le_rfl) (le_pgroundup hle)

/-- **The pages of the stack** are added to an image, which has no hole then, or there is no room
for them. -/
theorem Owned.stackPages (h : Owned L k D l held) (himage : Loaded L D sz) (hsz : sz < KERNBASE) :
    ∃ r k' D' l', k.stackPages L D.pgdir sz = .ok (r, k') ∧ Builds L k D l held k' D' l' ∧
      ((r = some (PGROUNDUP sz + 2 * PGSIZE) ∧ PGROUNDUP sz + 2 * PGSIZE < KERNBASE ∧
          Stacked L D' (PGROUNDUP sz + 2 * PGSIZE)) ∨
        (r = none ∧ (KERNBASE ≤ PGROUNDUP sz + 2 * PGSIZE ∨ Starved k D l 2))) := by
  have hround : PGROUNDUP sz ≤ KERNBASE := pgroundup_le (le_of_lt hsz) (by decide) (le_of_lt hsz)
  have hmod : PGROUNDUP sz % PGSIZE = 0 := pgroundup_mod sz
  have hself : PGROUNDUP (PGROUNDUP sz) = PGROUNDUP sz := pgroundup_self hmod hround
  have himage' := himage.roundup hsz
  unfold Kmem.stackPages
  generalize PGROUNDUP sz = base at hround hmod hself himage' ⊢
  have hsum : (base + 2 * PGSIZE) % 2 ^ 32 = base + 2 * PGSIZE := by
    rw [kernbase_eq] at hround
    rw [pgsize_eq]
    omega
  rw [hsum]
  by_cases htop : base + 2 * PGSIZE < KERNBASE
  · obtain ⟨r, k₁, D₁, l₁, hrun, hbuilds, hr⟩ :=
      h.growImage himage' (Nat.le_add_right base _) htop
    simp only [hrun, bind, Except.bind]
    rcases hr with ⟨rfl, himage₁⟩ | ⟨rfl, hstarved⟩
    · have hpos : base + 2 * PGSIZE ≠ 0 := by
        rw [pgsize_eq]
        omega
      have hv : PGSIZE * (base / PGSIZE) = base + 2 * PGSIZE - 2 * PGSIZE := by
        rw [Nat.add_sub_cancel]
        exact Nat.mul_div_cancel' (Nat.dvd_of_mod_eq_zero hmod)
      obtain ⟨k₂, e, hrun₂, -, he, hbuilds₂⟩ := hbuilds.owned.clearpteu (v := base / PGSIZE) himage₁
        htop (by rw [hv]; rw [pgsize_eq]; omega)
      rw [hv, hbuilds.pgdir] at hrun₂
      refine ⟨some (base + 2 * PGSIZE), k₂, _, l₁, ?_, hbuilds.trans hbuilds₂, .inl ⟨rfl, htop, ?_⟩⟩
      · rw [if_neg hpos, hrun₂]
        rfl
      · refine himage₁.stacked ?_ (Nat.le_add_left _ _) htop hv he
        rw [Nat.add_mul_mod_self_right]
        exact hmod
    · refine ⟨none, k₁, D₁, l₁, ?_, hbuilds, .inr ⟨rfl, .inr ?_⟩⟩
      · rw [if_pos rfl]
        rfl
      · have htwo : (base + 2 * PGSIZE + PGSIZE - 1 - PGROUNDUP base) / PGSIZE = 2 := by
          rw [hself, pgsize_eq]
          omega
        rwa [htwo] at hstarved
  · refine ⟨none, k, D, l, ?_, .refl h, .inr ⟨rfl, .inl (Nat.le_of_not_lt htop)⟩⟩
    rw [Kmem.allocuvm, if_pos (Nat.le_of_not_lt htop)]
    rfl

end Image

end Xv6.Vm
