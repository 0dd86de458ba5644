import Assignments.Xv6.Exec

/-!
# What `exec` promises

Two promises of `exec`: a failed call changes nothing, and no file makes it map a page that is not
the image's. Neither says anything of a call in which `copyout` follows a null pointer, which is
undefined: in the kernel that the Makefile builds such a call runs into a trap instruction, and
neither returns nor gives anything back. So a call in which this happens does not keep them.

It happens just if the arguments come to be pushed (`Prepared`) and a string is put where the new
directory has no page table (`Clear` fails), which takes a string of more than 32 MB.

* `exec_all_or_nothing`, `exec_safe` — the promises, with the calls that keep them;
* `exec_long_string`, `exec_long_string_unsafe` — a process of 48 MB passes such a string.
-/

namespace Xv6.Vm

open Framework
open Multiset hiding bind
open Xv6.Ptable (PGSIZE KERNBASE Proc)

/-! ### A failed call changes nothing -/

/-- What a call leaves, for each of the two values that it returns. -/
structure Undone (s : Task) (S : Space) (l : List ℕ) (kstack : ℕ) (r : ℤ) (s' : Task) : Prop where
  /-- Every pointer to an entry that was followed is one. -/
  exist : none ∉ s'.followed
  ret : r = -1 ∨ r = 0
  proc : r = -1 → s'.proc = s.proc
  frame : r = -1 → ∀ i < 76, s'.k.ram (trapframe kstack + i) = s.k.ram (trapframe kstack + i)
  fs : s'.fs = s.fs
  pages : r = -1 → ∃ l', FreeList s'.k l' ∧ (l' : Multiset ℕ) = l
  freed : r = 0 → ∃ l', FreeList s'.k l' ∧ (l' : Multiset ℕ).count S.pgdir = 1

section Promises

variable {L : Link} {s : Task} {S : Space} {l : List ℕ} {held : Multiset ℕ} {kstack : ℕ}

theorem trapframe_block {i : ℕ} (hpage : L.Page kstack) (hi : i < 76) :
    blockOf PGSIZE (trapframe kstack + i) = kstack := by
  rw [trapframe, Nat.add_assoc]
  apply hpage.blockOf_add
  rw [pgsize_eq]
  omega

/-- **A failed `exec` changes nothing**, and one that succeeds frees the old directory once, for
every file, every vector of arguments, and any failure of `kalloc` and `readi`, just if no string is
put where there is no page table once the arguments come to be pushed. -/
theorem exec_all_or_nothing (h : Running L s S l held kstack) (path : List Char)
    (ip : Option File) (argv : List Argument) :
    (∃ r s', exec L s path ip argv = .ok (r, s') ∧ Undone s S l kstack r s') ↔
      ∀ f, ip = some f → Prepared L s.k f → Clear f argv := by
  constructor
  · rintro ⟨r, s', hrun, hundone⟩ f rfl hprepared
    by_contra hclear
    exact hundone.exist (h.exec_null hprepared hclear hrun)
  intro hclear
  obtain ⟨r, s', l', hrun, ⟨rfl, hfailed⟩ | ⟨rfl, D, hdone⟩⟩ := exec_spec h path ip argv hclear
  · refine ⟨-1, s', hrun, hfailed.exist, .inl rfl, fun _ => hfailed.proc, fun _ i hi => ?_,
      hfailed.fs, fun _ => ⟨l', hfailed.restored.pool.free, hfailed.restored.total⟩, nofun⟩
    apply hfailed.restored.agree
    rw [trapframe_block (h.process.owned.page_held h.mem_held) hi]
    exact mem_add.mpr (.inr h.mem_held)
  · refine ⟨0, s', hrun, hdone.exist, .inr rfl, nofun, nofun, hdone.fs, nofun,
      fun _ => ⟨l', hdone.owned.free, ?_⟩⟩
    -- the list has no page twice, and all pages of the old space
    have hnodup : (l' : Multiset ℕ).Nodup := by
      have hall := hdone.owned.nodup
      rw [add_assoc] at hall
      exact (nodup_add.mp hall).1
    apply count_eq_one_of_mem hnodup
    apply mem_of_le hdone.freed
    exact mem_add.mpr (.inl (Space.mem_skeleton.mpr (.inl rfl)))

/-! ### No file makes it unsafe -/

/-- No page at or above `KERNBASE` is the user's. -/
def NoneAbove (k : Kmem) (pgdir : ℕ) : Prop :=
  ∀ v, NUSER ≤ v → v < 2 ^ 20 → ∀ e, k.lookup pgdir v = some e → e &&& PTE_U = 0

/-- The directory maps exactly the user pages below `sz`, all of them for the user but the page at
`sz - 2 * PGSIZE`. -/
structure ExactImage (k : Kmem) (pgdir sz : ℕ) : Prop where
  aligned : sz % PGSIZE = 0
  pages : ∀ v < NUSER, k.lookup pgdir v ≠ none ↔ PGSIZE * v < sz
  user : ∀ v < NUSER, ∀ e, k.lookup pgdir v = some e →
    (e &&& PTE_U = 0 ↔ PGSIZE * v = sz - 2 * PGSIZE)
  above : NoneAbove k pgdir

/-- The directory that is built, if there is one. -/
def Loading.pgdir : Loading → Option ℕ
  | .failed pgdir => pgdir
  | .loaded pgdir _ _ => some pgdir

/-- The panics that a file could be made for. -/
def filePanics : List String :=
  ["remap", "loaduvm: address should exist", "loaduvm: addr must be page aligned", "clearpteu"]

/-- A call of `exec` for the file `f` is safe. -/
structure SafeExec (L : Link) (s : Task) (f : File) (x : Except Halt (ℤ × Task)) : Prop where
  panics : ∀ m ∈ filePanics, x ≠ .error (.panic m)
  /-- It returns, and every pointer to an entry that was followed is one. -/
  returns : ∃ r s', x = .ok (r, s') ∧ none ∉ s'.followed
  /-- While the image is built, nothing is mapped for the user at or above `KERNBASE`. -/
  building : ∀ image k₁, s.k.loadImage L f = .ok (image, k₁) →
    (∀ pgdir, image.pgdir = some pgdir → NoneAbove k₁ pgdir) ∧
      ∀ pgdir entry sz, image = .loaded pgdir entry sz →
        ∀ o k₂, k₁.stackPages L pgdir sz = .ok (o, k₂) → NoneAbove k₂ pgdir
  /-- Nor is it afterwards. -/
  above : ∀ r s', x = .ok (r, s') → ∀ pgdir, s'.proc.pgdir = some pgdir → NoneAbove s'.k pgdir
  image : ∀ s', x = .ok (0, s') →
    ∃ pgdir, s'.proc.pgdir = some pgdir ∧ ExactImage s'.k pgdir s'.proc.sz

theorem Owned.noneAbove {k : Kmem} {D : Space} (h : Owned L k D l held)
    (hkernel : ∀ v, NUSER ≤ v → D.entry v = kernelEntry L v) : NoneAbove k D.pgdir := by
  intro v hv hv' e he
  rw [h.space.lookup hv', hkernel v hv] at he
  exact kernelEntry_flags he

/-- The space of an image, as the directory in memory has it. -/
theorem Stacked.exact {k : Kmem} {D : Space} {sz : ℕ} (h : Stacked L D sz)
    (hown : Owned L k D l held) : ExactImage k D.pgdir sz := by
  refine ⟨h.aligned, fun v hv => ?_, fun v hv e he => ?_, hown.noneAbove h.kernel⟩
  · rw [hown.space.lookup (hv.trans (by decide))]
    exact h.mapped v hv
  · rw [hown.space.lookup (hv.trans (by decide))] at he
    have hmapped := (h.mapped v hv).mp (by rw [he]; exact Option.some_ne_none e)
    have hpage : D.userPage v = if e &&& PTE_U = 0 then none else some (PTE_ADDR e) := by
      rw [Space.userPage, he, Option.bind_some]
    have huser := h.user v hv
    rw [hpage] at huser
    by_cases hflag : e &&& PTE_U = 0
    · rw [if_pos hflag] at huser
      refine iff_of_true hflag ?_
      by_contra hne
      exact huser.mpr ⟨hmapped, hne⟩ rfl
    · rw [if_neg hflag] at huser
      exact iff_of_false hflag (huser.mp (Option.some_ne_none _)).2

/-- **`exec` is safe for every file**, whatever its headers say, just if no string is put where
there is no page table once the arguments come to be pushed. -/
theorem exec_safe (h : Running L s S l held kstack) (hbefore : NoneAbove s.k S.pgdir)
    (path : List Char) (f : File) (argv : List Argument) :
    SafeExec L s f (exec L s path (some f) argv) ↔ (Prepared L s.k f → Clear f argv) := by
  constructor
  · intro hsafe hprepared
    obtain ⟨r, s', hrun, hexist⟩ := hsafe.returns
    by_contra hclear
    exact hexist (h.exec_null hprepared hclear hrun)
  intro hclear
  obtain ⟨r, s', l', hrun, hcases⟩ := exec_spec h path (some f) argv fun g hg => by
    cases hg
    exact hclear
  refine ⟨?_, ?_, ?_, ?_, ?_⟩
  · intro m _ herr
    cases herr.symm.trans hrun
  · refine ⟨r, s', hrun, ?_⟩
    rcases hcases with ⟨-, hfailed⟩ | ⟨-, D, hdone⟩
    · exact hfailed.exist
    · exact hdone.exist
  · intro image k₁ hload
    obtain ⟨image', k₁', l₁, hload', hpart⟩ := h.process.owned.pool.loadImage f
    cases hload.symm.trans hload'
    rcases hpart with ⟨rfl, -⟩ | ⟨D, hbegun, rfl | ⟨entry, sz, rfl, hsz, himage, -⟩⟩
    · exact ⟨nofun, nofun⟩
    · refine ⟨?_, nofun⟩
      rintro pgdir ⟨⟩
      exact hbegun.owned.noneAbove hbegun.kernel
    · refine ⟨?_, ?_⟩
      · rintro pgdir ⟨⟩
        exact hbegun.owned.noneAbove hbegun.kernel
      · rintro pgdir entry sz ⟨⟩ o k₂ hstack
        obtain ⟨o', k₂', D₂, l₂, hstack', hbuilds, -⟩ := hbegun.owned.stackPages himage hsz
        cases hstack.symm.trans hstack'
        rw [← hbuilds.pgdir]
        exact hbuilds.owned.noneAbove (hbegun.builds hbuilds).kernel
  · intro r' s'' hr pgdir hpgdir
    cases hr.symm.trans hrun
    rcases hcases with ⟨rfl, hfailed⟩ | ⟨rfl, D, hdone⟩
    · -- the directory of the process is the one it had
      rw [hfailed.proc, h.process.pgdir] at hpgdir
      cases hpgdir
      have hspace : S.At s'.k.ram := by
        refine h.process.owned.space.of_agreeOn hfailed.restored.agree fun pa hpa => ?_
        exact ⟨(h.process.owned.page_skeleton hpa).aligned,
          mem_add.mpr (.inl (mem_add.mpr (.inl hpa)))⟩
      intro v hv hv' e he
      rw [hspace.lookup hv', ← h.process.owned.space.lookup hv'] at he
      exact hbefore v hv hv' e he
    · rw [hdone.proc] at hpgdir
      cases hpgdir
      exact hdone.owned.noneAbove hdone.image.kernel
  · intro s'' hr
    cases hr.symm.trans hrun
    rcases hcases with ⟨hne, -⟩ | ⟨-, D, hdone⟩
    · cases hne
    · refine ⟨D.pgdir, ?_, hdone.image.exact hdone.owned⟩
      rw [hdone.proc]
      rfl

end Promises

/-! ### Calls that push their arguments -/

section Prepared

variable {L : Link} {D S : Space} {l : List ℕ} {held : Multiset ℕ} {kstack : ℕ} {s : Task}

/-- The pages that a new directory leaves. -/
theorem Loaded.card_free (h : Loaded L D 0) {l₁ : List ℕ}
    (htotal : (l₁ : Multiset ℕ) + D.pages = l) : l₁.length + D.skeleton.card = l.length := by
  have huser : D.user = 0 := by
    apply heldIn_eq_zero
    intro v hv
    rw [Space.page, h.empty v (Finset.mem_range.mp hv) (Nat.zero_le _)]
    rfl
  have hsum := congrArg card htotal
  rwa [Space.pages, huser, add_zero, card_add, coe_card,
    coe_card] at hsum

/-- A file without segments is loaded, and has its stack, if there are pages enough. -/
theorem Running.prepared (h : Running L s S l held kstack) {f : File} {hdr : List Byte}
    (hread : f.read 0 52 = some hdr) (hmagic : (elfhdr hdr).magic = ELF_MAGIC)
    (hphnum : (elfhdr hdr).phnum = 0) (hfree : 1028 < l.length)
    (hdenied : ∀ c, s.k.denied c = false) : Prepared L s.k f := by
  obtain ⟨r, k₁, l₁, hrun, -, hsame, hcases⟩ := h.process.owned.pool.setupkvm
  rcases hcases with ⟨-, -, -, hwhy⟩ | ⟨D, rfl, hown, htotal, hentry, htight⟩
  · rcases hwhy with ⟨c, hc⟩ | hlen
    · rw [hdenied c] at hc
      cases hc
    · exact absurd hlen (by omega)
  · have hload : s.k.loadImage L f = .ok (.loaded D.pgdir (elfhdr hdr).entry 0, k₁) := by
      unfold Kmem.loadImage
      rw [hread]
      dsimp only
      rw [if_neg (not_not.mpr hmagic), hphnum]
      simp only [hrun, bind, Except.bind, Kmem.loadSegments, pure, Except.pure]
    have himage := loaded_zero hentry htight
    obtain ⟨o, k₂, D₂, l₂, hstack, -, hr⟩ := hown.stackPages himage (by decide)
    rcases hr with ⟨rfl, -, -⟩ | ⟨-, hwhy⟩
    · exact ⟨_, _, _, _, _, _, hload, hstack⟩
    · -- there are pages enough: the new directory has no user page yet
      exfalso
      have hcard := himage.card_free htotal
      rcases hwhy with hbig | ⟨c, hc⟩ | hlen
      · exact absurd hbig (by decide)
      · rw [hsame, hdenied c] at hc
        cases hc
      · omega

end Prepared

/-! ### Calls on a machine with 50000 pages -/

/-- An ELF header without program headers, and nothing else. -/
def headerOnly : List Byte := [0x7F, 0x45, 0x4C, 0x46] ++ List.replicate 48 0

def headerFile : File where
  readi off n := if off = 0 ∧ n = 52 then some headerOnly else none
  length_le off n bs h := by
    split at h
    · next hn =>
      rw [← Option.some.inj h, hn.2]
      decide
    · cases h

/-- The `n` pages from 4 MB on have been given to the allocator. -/
theorem exists_pool {n : ℕ} (hn : 0x400000 + PGSIZE * n ≤ PHYSTOP) :
    ∃ k l, Pool smallKernel k l 0 ∧ l.length = n ∧ ∀ c, k.denied c = false := by
  have hpage : ∀ i < n, smallKernel.Page (0x400000 + PGSIZE * i) := by
    intro i hi
    refine ⟨?_, ?_, ?_⟩
    · rw [pgsize_eq]
      omega
    · exact (by decide : smallKernel.kernelEnd ≤ 0x400000).trans (Nat.le_add_right _ _)
    · refine lt_of_lt_of_le ?_ hn
      rw [pgsize_eq]
      omega
  have hstart : 0x400000 = (0x400000 + PGSIZE - 1) / PGSIZE * PGSIZE := by decide
  have hend : n = (0x400000 + PGSIZE * n - 0x400000) / PGSIZE := by
    rw [pgsize_eq]
    omega
  let k : Kmem := ⟨fun _ => 0, none, fun _ => false, 0⟩
  have hempty : FreeList k [] := rfl
  obtain ⟨ram, fl, -, hlist, -⟩ := hempty.freerange (L := smallKernel) nofun hstart hend hpage
    fun _ _ => List.not_mem_nil
  rw [List.append_nil] at hlist
  refine ⟨_, _, ⟨hlist, ?_, ?_⟩, ?_, fun _ => rfl⟩
  · rw [add_zero, coe_nodup, List.nodup_reverse]
    refine List.Nodup.map ?_ List.nodup_range
    intro i j hij
    have hmul : PGSIZE * i = PGSIZE * j := Nat.add_left_cancel hij
    exact Nat.eq_of_mul_eq_mul_left (by decide) hmul
  · intro pa hpa
    rw [add_zero, mem_coe, List.mem_reverse, List.mem_map] at hpa
    obtain ⟨i, hi, rfl⟩ := hpa
    exact hpage i (List.mem_range.mp hi)
  · rw [List.length_reverse, List.length_map, List.length_range]

theorem Loaded.card_user_le {L : Link} {D : Space} {n : ℕ} (h : Loaded L D (PGSIZE * n))
    (hn : n ≤ NUSER) : D.user.card ≤ n := by
  have hsub : Finset.range n ⊆ Finset.range NUSER := Finset.range_mono hn
  rw [Space.user, heldIn_subset hsub]
  · exact card_heldIn_le.trans (le_of_eq (Finset.card_range n))
  · intro v hv hnot
    have hle : n ≤ v := Nat.le_of_not_lt fun hlt => hnot (Finset.mem_range.mpr hlt)
    rw [Space.page, h.empty v (Finset.mem_range.mp hv) (Nat.mul_le_mul_left PGSIZE hle)]
    rfl

/-- A process of 48 MB has been given its memory. -/
theorem exists_machine :
    ∃ k S l kstack, Owned smallKernel k S l {kstack} ∧ Loaded smallKernel S 0x3000000 ∧
      1028 < l.length ∧ ∀ c, k.denied c = false := by
  obtain ⟨k₀, l₀, hpool, hlen, hdenied⟩ := exists_pool (n := 50000) (by decide)
  rcases hpool.kalloc with ⟨-, -, hwhy⟩ | ⟨kstack, l₁, k₁, -, rfl, -, hsame₁, hpool₁⟩
  · rcases hwhy with rfl | hc
    · cases hlen
    · rw [hdenied] at hc
      cases hc
  rw [List.length_cons] at hlen
  have hdenied₁ : ∀ c, k₁.denied c ≠ true := fun c hc => by
    rw [hsame₁, hdenied c] at hc
    cases hc
  obtain ⟨r, k₂, l₂, -, -, hsame₂, hcases⟩ := hpool₁.setupkvm
  rcases hcases with ⟨-, -, -, hwhy⟩ | ⟨S, -, hown, htotal, hentry, htight⟩
  · rcases hwhy with ⟨c, hc⟩ | hshort
    · exact absurd hc (hdenied₁ c)
    · omega
  have himage := loaded_zero hentry htight
  have hcard := himage.card_free htotal
  obtain ⟨r, k₃, S₃, l₃, -, hbuilds, hr⟩ :=
    hown.growImage himage (Nat.zero_le 0x3000000) (by decide)
  rcases hr with ⟨-, himage₃⟩ | ⟨-, hwhy⟩
  · refine ⟨k₃, S₃, l₃, kstack, hbuilds.owned, himage₃, ?_, fun c => ?_⟩
    · -- the directory and its tables take at most 1025 pages, the user 12288
      have huser : S₃.user.card ≤ 12288 := by
        refine Loaded.card_user_le (L := smallKernel) ?_ (by decide)
        have hsize : PGSIZE * 12288 = 0x3000000 := by decide
        rwa [hsize]
      have hskeleton := S₃.card_skeleton_le
      have hsum := congrArg card (hbuilds.total.trans htotal)
      rw [Space.pages, card_add, card_add, coe_card,
        coe_card] at hsum
      omega
    · rw [hbuilds.denied, hsame₂, hsame₁, hdenied]
  · rcases hwhy with ⟨c, hc⟩ | hshort
    · rw [hsame₂] at hc
      exact absurd hc (hdenied₁ c)
    · have hpages : (0x3000000 + PGSIZE - 1 - PGROUNDUP 0) / PGSIZE = 12288 := by decide
      rw [hpages] at hshort
      omega

/-- The process calls `exec`, and its arguments come to be pushed. -/
theorem exists_call :
    ∃ s S l kstack, Running smallKernel s S l {kstack} kstack ∧ NoneAbove s.k S.pgdir ∧
      Prepared smallKernel s.k headerFile := by
  obtain ⟨k, S, l, kstack, hown, himage, hfree, hdenied⟩ := exists_machine
  let p : Proc := { bareProc with sz := 0x3000000, pgdir := some S.pgdir, kstack := some kstack }
  have hrun : Running smallKernel ⟨k, ⟨0, 0, false⟩, p, []⟩ S l {kstack} kstack := by
    refine ⟨⟨hown, rfl, Option.some_ne_none _, (by decide : 0x3000000 < KERNBASE), ?_⟩, rfl,
      mem_singleton_self kstack, rfl, le_refl _, List.not_mem_nil⟩
    intro v hv hne
    by_contra hle
    exact hne (himage.empty v hv (Nat.le_of_not_lt hle))
  exact ⟨_, S, l, kstack, hrun, hown.noneAbove himage.kernel,
    hrun.prepared (by decide : _ = some headerOnly) (by decide) (by decide) hfree hdenied⟩

/-- The letter `a`, `n` times. -/
def letters (n : ℕ) (hn : n < KERNBASE) : Argument where
  bytes := List.replicate n 97
  nonzero hmem := absurd (List.eq_of_mem_replicate hmem) (by decide)
  short := by rwa [List.length_replicate]

theorem pushAt_letters (sp n : ℕ) (hn : n < KERNBASE) :
    pushAt sp (letters n hn) = (sp + 2 ^ 32 - (n + 1)) % 2 ^ 32 / 4 * 4 := by
  rw [pushAt, letters, List.length_replicate]

theorem headerFile_stackTop : headerFile.stackTop = some 0x2000 := by decide

/-- A string that fits on the stack is clear. -/
theorem clear_short {n : ℕ} (hn : n < KERNBASE) (hfits : n < PGSIZE) :
    Clear headerFile [letters n hn] := by
  intro top htop hlands
  obtain rfl := Option.some.inj (headerFile_stackTop.symm.trans htop)
  obtain ⟨-, ⟨hle, -⟩ | ⟨-, -, hnext⟩⟩ := hlands
  · change 0x8E000000 ≤ _ at hle
    rw [pgsize_eq] at hfits
    rw [pushAt_letters] at hle
    omega
  · exact hnext

/-- A string of 32 MB more than the stack and the image is not. -/
theorem not_clear_long (hn : 0x2000 + 0x2000000 < KERNBASE) :
    ¬ Clear headerFile [letters (0x2000 + 0x2000000) hn] := by
  intro hclear
  refine hclear 0x2000 headerFile_stackTop ⟨by decide, .inl ?_⟩
  rw [pushAt_letters]
  decide

/-! ### What the calls do -/

/-- A call with one argument. -/
theorem exec_all_or_nothing_argument :
    ∃ s S l kstack, Running smallKernel s S l {kstack} kstack ∧
      ∃ r s', exec smallKernel s [] (some headerFile) [letters 5 (by decide)] = .ok (r, s') ∧
        Undone s S l kstack r s' := by
  obtain ⟨s, S, l, kstack, hrun, -, -⟩ := exists_call
  refine ⟨s, S, l, kstack, hrun, (exec_all_or_nothing hrun [] _ _).mpr ?_⟩
  rintro f ⟨⟩ -
  exact clear_short _ (by decide)

/-- A call with a string that is too long follows a null pointer. -/
theorem exec_long_string :
    ∃ s S l kstack, Running smallKernel s S l {kstack} kstack ∧
      ¬ ∃ r s', exec smallKernel s [] (some headerFile)
          [letters (0x2000 + 0x2000000) (by decide)] = .ok (r, s') ∧
        Undone s S l kstack r s' := by
  obtain ⟨s, S, l, kstack, hrun, -, hprepared⟩ := exists_call
  refine ⟨s, S, l, kstack, hrun, ?_⟩
  rintro ⟨r, s', hexec, hundone⟩
  exact hundone.exist (hrun.exec_null hprepared (not_clear_long _) hexec)

/-- A call with one argument is safe. -/
theorem exec_safe_argument :
    ∃ s S l kstack, Running smallKernel s S l {kstack} kstack ∧ NoneAbove s.k S.pgdir ∧
      SafeExec smallKernel s headerFile
        (exec smallKernel s [] (some headerFile) [letters 5 (by decide)]) := by
  obtain ⟨s, S, l, kstack, hrun, hbefore, -⟩ := exists_call
  exact ⟨s, S, l, kstack, hrun, hbefore,
    (exec_safe hrun hbefore [] headerFile _).mpr fun _ => clear_short _ (by decide)⟩

/-- A call with a string that is too long is not. -/
theorem exec_long_string_unsafe :
    ∃ s S l kstack, Running smallKernel s S l {kstack} kstack ∧ NoneAbove s.k S.pgdir ∧
      ¬ SafeExec smallKernel s headerFile (exec smallKernel s [] (some headerFile)
        [letters (0x2000 + 0x2000000) (by decide)]) := by
  obtain ⟨s, S, l, kstack, hrun, hbefore, hprepared⟩ := exists_call
  refine ⟨s, S, l, kstack, hrun, hbefore, fun hsafe => ?_⟩
  obtain ⟨r, s', hexec, hexist⟩ := hsafe.returns
  exact hexist (hrun.exec_null hprepared (not_clear_long _) hexec)

end Xv6.Vm
