import Assignments.Xv6.ExecImage

/-!
# Replacing the image of a process

`exec` of `exec.c`. The image is built in a directory of its own, and the process gets it only when
nothing can fail any more. Until then every failure goes to the label `bad`, with the directory
built or not, and with the inode locked inside a transaction or already given back.

The strings of the arguments are put on the stack by `copyout`, at an address that is found by
subtracting their lengths from the top of the stack. Nobody checks that the difference does not
wrap. It is harmless below 32 MB, where `copyout` comes to a page of the devices and stops; a
longer string is put where there is no page table, and `copyout` follows a null pointer. What the
call does then is undefined, so the pointers that are followed are kept (`Task.followed`), and
nothing is said of a call that has a null pointer among them.

* `Fs` — what `exec` takes from the file system;
* `Clear` — no string is put where there is no page table, said of the file and the arguments;
* `Pool.loadImage`, `Owned.pushStack`, `Running.commit` — the parts of a call;
* `exec_spec` — what a call does where every string is clear;
* `Running.exec_null` — where one is not, and the arguments come to be pushed, a null pointer is
  followed.
-/

namespace Xv6.Vm

open Framework
open Xv6.Ptable (PGSIZE KERNBASE Proc Name)

abbrev MAXARG : ℕ := 32

/-- A string of user memory, without the NUL at its end. -/
structure Argument where
  bytes : List Byte
  nonzero : 0 ∉ bytes
  short : bytes.length < KERNBASE

/-- `sp - (strlen(s) + 1) & ~3`. -/
def pushAt (sp : ℕ) (s : Argument) : ℕ := (sp + 2 ^ 32 - (s.bytes.length + 1)) % 2 ^ 32 / 4 * 4

/-- A word, byte by byte. -/
def wordBytes (w : ℕ) : List Byte :=
  [BitVec.ofNat 8 w, BitVec.ofNat 8 (w / 2 ^ 8), BitVec.ofNat 8 (w / 2 ^ 16),
    BitVec.ofNat 8 (w / 2 ^ 24)]

/-- The words below the strings: a return address, `argc`, `argv` and the pointers. -/
def ustack (sp : ℕ) (sps : List ℕ) : List Byte :=
  ([0xffffffff, sps.length, (sp + 2 ^ 32 - (sps.length + 1) * 4) % 2 ^ 32] ++ sps ++ [0]).flatMap
    wordBytes

namespace Kmem

/-- The loop over the arguments: the stack pointer and where the strings are, or `goto bad`, and
the pointers to entries that were followed. -/
def pushArgs (cr3 pgdir : ℕ) : ℕ → ℕ → List Argument → Kmem →
    Except Halt (Option (ℕ × List ℕ) × Kmem × List (Option ℕ))
  | _, sp, [], k => .ok (some (sp, []), k, [])
  | argc, sp, s :: ss, k =>
    if argc ≥ MAXARG then .ok (none, k, [])
    else do
      let r ← copyout k cr3 pgdir (pushAt sp s) (s.bytes ++ [0])
      if r.ret < 0 then return (none, r.k, r.ptes)
      let (rest, k, ptes) ← pushArgs cr3 pgdir (argc + 1) (pushAt sp s) ss r.k
      return (rest.map fun o => (o.1, pushAt sp s :: o.2), k, r.ptes ++ ptes)

/-- The strings and the words below them. -/
def pushStack (k : Kmem) (cr3 pgdir sz : ℕ) (argv : List Argument) :
    Except Halt (Option ℕ × Kmem × List (Option ℕ)) := do
  let (o, k, ptes) ← pushArgs cr3 pgdir 0 sz argv k
  match o with
  | none => return (none, k, ptes)
  | some (sp, sps) =>
    let sp' := (sp + 2 ^ 32 - (3 + sps.length + 1) * 4) % 2 ^ 32
    let r ← copyout k cr3 pgdir sp' (ustack sp sps)
    if r.ret < 0 then return (none, r.k, ptes ++ r.ptes)
    return (some sp', r.k, ptes ++ r.ptes)

end Kmem

/-! ### What is taken from the file system -/

/-- The operations that are open, the references to the inode, and whether it is locked by the
process. -/
structure Fs where
  outstanding : ℤ
  ref : ℤ
  locked : Bool

namespace Fs

def beginOp (s : Fs) : Fs := { s with outstanding := s.outstanding + 1 }

def endOp (s : Fs) : Fs := { s with outstanding := s.outstanding - 1 }

/-- The reference that `namei` returns. -/
def iget (s : Fs) : Fs := { s with ref := s.ref + 1 }

/-- A process that has the lock waits for itself. -/
def ilock (s : Fs) : Except Halt Fs :=
  if s.ref < 1 then .error (.panic "ilock")
  else if s.locked then .error .loop
  else .ok { s with locked := true }

def iunlockput (s : Fs) : Except Halt Fs :=
  if s.locked = false ∨ s.ref < 1 then .error (.panic "iunlock")
  else .ok { s with locked := false, ref := s.ref - 1 }

end Fs

/-! ### The call -/

/-- The process that calls, with memory and the file system. The code has no `followed`: it keeps
the pointers to entries that `copyout` has followed for the process. -/
structure Task where
  k : Kmem
  fs : Fs
  proc : Proc
  followed : List (Option ℕ)

/-- Where the loading of a file has come to. -/
inductive Loading where
  | failed (pgdir : Option ℕ)
  | loaded (pgdir entry sz : ℕ)

/-- The checks of the ELF header, the directory, and the segments. -/
def Kmem.loadImage (L : Link) (f : File) (k : Kmem) : Except Halt (Loading × Kmem) :=
  match f.read 0 52 with
  | none => .ok (.failed none, k)
  | some bs =>
    if (elfhdr bs).magic ≠ ELF_MAGIC then .ok (.failed none, k)
    else do
      let (pgdir, k) ← k.setupkvm L
      match pgdir with
      | none => return (.failed none, k)
      | some pgdir =>
        let (sz, k) ← loadSegments L f pgdir (elfhdr bs).phnum (elfhdr bs).phoff 0 k
        match sz with
        | none => return (.failed (some pgdir), k)
        | some sz => return (.loaded pgdir (elfhdr bs).entry sz, k)

/-- `if(pgdir) freevm(pgdir)`. -/
def Kmem.freeImage (L : Link) (k : Kmem) : Option ℕ → Except Halt Kmem
  | none => .ok k
  | some pgdir => k.freevm L (some pgdir)

/-- The label `bad`, with or without the inode. -/
def bad (L : Link) (pgdir : Option ℕ) (ip : Bool) (s : Task) : Except Halt (ℤ × Task) := do
  let k ← s.k.freeImage L pgdir
  if ip then
    let fs ← s.fs.iunlockput
    return (-1, { s with k := k, fs := fs.endOp })
  else return (-1, { s with k := k })

/-- What follows the last `/`. -/
def lastElement : List Char → List Char → List Char
  | last, [] => last
  | last, c :: s => if c = '/' then lastElement s s else lastElement last s

def safestrcpy (s : List Char) : Name := ⟨s.take 15, Nat.lt_succ_of_le (List.length_take_le 15 s)⟩

/-- The trap frame is at the top of the kernel stack. -/
def trapframe (kstack : ℕ) : ℕ := kstack + (PGSIZE - 76)

/-- What `exec` writes to the record. -/
def replaced (p : Proc) (path : List Char) (pgdir sz : ℕ) : Proc :=
  { p with name := safestrcpy (lastElement path path), pgdir := some pgdir, sz := sz }

/-- The process gets the image. -/
def commit (L : Link) (s : Task) (path : List Char) (pgdir entry sz sp : ℕ) :
    Except Halt (ℤ × Task) :=
  match s.proc.kstack with
  | none => .error .fault
  | some kstack => do
    let k := (s.k.store (trapframe kstack + 56) entry).store (trapframe kstack + 68) sp
    switchuvm (replaced s.proc path pgdir sz)
    let k ← k.freevm L s.proc.pgdir
    return (0, { s with k := k, proc := replaced s.proc path pgdir sz })

/-- `exec(path, argv)`, where `namei(path)` returns `ip`. -/
def exec (L : Link) (s : Task) (path : List Char) (ip : Option File) (argv : List Argument) :
    Except Halt (ℤ × Task) :=
  match s.proc.pgdir, ip with
  | none, _ => .error .fault
  | _, none => .ok (-1, { s with fs := s.fs.beginOp.endOp })
  | some cr3, some f => do
    let fs ← s.fs.beginOp.iget.ilock
    let (image, k) ← s.k.loadImage L f
    match image with
    | .failed pgdir => bad L pgdir true { s with k := k, fs := fs }
    | .loaded pgdir entry sz =>
      let fs ← fs.iunlockput
      let (top, k) ← k.stackPages L pgdir sz
      match top with
      | none => bad L (some pgdir) false { s with k := k, fs := fs.endOp }
      | some top =>
        let (sp, k, ptes) ← k.pushStack cr3 pgdir top argv
        let s := { s with k := k, fs := fs.endOp, followed := s.followed ++ ptes }
        match sp with
        | none => bad L (some pgdir) false s
        | some sp => commit L s path pgdir entry top sp

/-! ### Where the strings are put -/

/-- A string is put between the end of physical memory and the devices, after strings that have
been put on the page of the stack. -/
def Lands (bottom : ℕ) : ℕ → ℕ → List Argument → Prop
  | _, _, [] => False
  | argc, sp, s :: ss =>
    argc < MAXARG ∧
      (P2V PHYSTOP ≤ pushAt sp s ∧ pushAt sp s < DEVSPACE ∨
        bottom ≤ pushAt sp s ∧ pushAt sp s ≤ sp ∧ Lands bottom (argc + 1) (pushAt sp s) ss)

/-- No string is put where there is no page table. -/
def Clear (f : File) (argv : List Argument) : Prop :=
  ∀ top, f.stackTop = some top → ¬ Lands (top - PGSIZE) 0 top argv

/-- The file is loaded and its image gets its stack: neither the file nor `kalloc` fails before the
arguments are pushed. -/
def Prepared (L : Link) (k : Kmem) (f : File) : Prop :=
  ∃ pgdir entry sz k₁ top k₂, k.loadImage L f = .ok (.loaded pgdir entry sz, k₁) ∧
    k₁.stackPages L pgdir sz = .ok (some top, k₂)

section Exec

variable {L : Link} {k k' : Kmem} {D S : Space} {l l' : List ℕ} {held : Multiset ℕ} {f : File}
  {cr3 sz sp va n v i : ℕ} {bs : List Byte} {s : Argument}

/-! ### Copying to the image -/

/-- `copyout` changes memory only. -/
theorem copyLoop_fields {pgdir fuel : ℕ} {r : Copied}
    (h : copyLoop cr3 pgdir fuel k va bs = .ok r) : r.k = { k with ram := r.k.ram } := by
  induction fuel generalizing k va bs r with
  | zero =>
    cases bs with
    | nil =>
      cases h
      rfl
    | cons b bs => cases h
  | succ fuel ih =>
    cases bs with
    | nil =>
      cases h
      rfl
    | cons b bs =>
      rw [copyLoop] at h
      · obtain ⟨⟨pte, pa⟩, -, h⟩ := except_bind_eq_ok.mp h
        cases pa with
        | none =>
          cases h
          rfl
        | some pa =>
          dsimp only at h
          split at h
          · cases h
          · obtain ⟨r', hr', h⟩ := except_bind_eq_ok.mp h
            cases h
            have hrest := ih hr'
            dsimp only at hrest ⊢
            rw [hrest]
      · intro heq
        cases heq

/-- The user pages of the image are pages that were given to it. -/
theorem Stacked.mem_user (h : Stacked L D sz) {pa : ℕ}
    (hpage : D.userPage v = some pa) : v < NUSER ∧ pa ∈ D.user := by
  obtain ⟨e, he, hpa⟩ := Option.bind_eq_some_iff.mp hpage
  by_cases hlt : v < NUSER
  · refine ⟨hlt, Space.mem_user.mpr ⟨v, hlt, ?_⟩⟩
    rw [Space.page, he]
    split at hpa
    · cases hpa
    · exact hpa
  · -- above `KERNBASE` nothing is the user's
    rw [h.kernel v (Nat.le_of_not_lt hlt)] at he
    rw [if_pos (kernelEntry_flags he)] at hpa
    cases hpa

theorem Stacked.separate (h : Stacked L D sz) (hown : Owned L k D l held) : D.Separate where
  aligned := hown.page_pgdir.aligned
  below _ _ _ hpage := (hown.page_user (h.mem_user hpage).2).below
  pgdir _ _ _ hpage heq :=
    hown.notMem_user_of_skeleton (Space.mem_skeleton.mpr (.inl heq)) (h.mem_user hpage).2
  table _ _ _ hpage i hi ht :=
    hown.notMem_user_of_skeleton (Space.mem_skeleton.mpr (.inr ⟨i, hi, ht⟩)) (h.mem_user hpage).2

/-- **Bytes are copied to the image**, if every page table is there that `copyout` asks for. -/
theorem Owned.copyTo (cr3 : ℕ) (hown : Owned L k D l held) (h : Stacked L D sz) (hva : va < 2 ^ 32)
    (hreach : Reaches D va bs.length) :
    ∃ r, copyout k cr3 D.pgdir va bs = .ok r ∧ Builds L k D l held r.k D l ∧ none ∉ r.ptes ∧
      (r.ret = 0 ∨ r.ret = -1) ∧
      (r.ret = 0 ↔ ∀ i < bs.length, D.phys ((va + i) % 2 ^ 32) ≠ none) := by
  obtain ⟨r, hrun, hends⟩ :=
    copyLoop_spec cr3 (h.separate hown) (Nat.le_refl _) hown.space hva hreach
  refine ⟨r, hrun, ?_, hends.exist, hends.ret, hends.zero⟩
  rw [copyLoop_fields hrun]
  apply Builds.write hown
  intro a ha
  by_contra hne
  obtain ⟨i, -, hphys⟩ := hends.inside a hne
  obtain ⟨pa, hpage, rfl⟩ := Option.map_eq_some_iff.mp hphys
  refine ha ?_
  have hmem := (h.mem_user hpage).2
  rwa [(hown.page_user hmem).blockOf_add (Nat.mod_lt _ (by decide))]

section

variable (h : Stacked L D sz) (hown : Owned L k D l held)

include h hown

/-- There are page tables for the addresses below the size. -/
theorem Stacked.table (hva : va < sz) :
    D.table (PDX va) ≠ none := by
  have hsz := h.below
  have hlt : va < 2 ^ 32 := by
    rw [kernbase_eq] at hsz
    omega
  have hpage : PGSIZE * (va / PGSIZE) < sz := (Nat.mul_div_le va PGSIZE).trans_lt hva
  intro hnone
  exact (h.mapped _ (lt_nuser (hpage.trans hsz))).mpr hpage
    (hown.space.entry_of_table_none hlt hnone)

theorem Stacked.reaches (hle : va + n ≤ sz) :
    Reaches D va n := by
  intro i hi _
  have hsz := h.below
  have hmod : (va + i) % 2 ^ 32 = va + i := Nat.mod_eq_of_lt (by
    rw [kernbase_eq] at hsz
    omega)
  rw [hmod]
  exact h.table hown (by omega)

/-- A copy to a page that is mapped for the kernel stops at once. -/
theorem Stacked.reaches_kernel (hva : va < 2 ^ 32) (hle : KERNBASE ≤ va)
    (hentry : kernelEntry L (va / PGSIZE) ≠ none) :
    Reaches D va n ∧ D.phys va = none := by
  have hpage : NUSER ≤ va / PGSIZE := (Nat.le_div_iff_mul_le (by decide)).mpr hle
  have hkernel := h.kernel _ hpage
  have hphys : D.phys va = none := by
    rw [Space.phys, Space.userPage, hkernel]
    cases he : kernelEntry L (va / PGSIZE) with
    | none => rfl
    | some e =>
      rw [Option.bind_some, if_pos (kernelEntry_flags he)]
      rfl
  refine ⟨fun i hi hbefore => ?_, hphys⟩
  cases i with
  | zero =>
    rw [Nat.add_zero, Nat.mod_eq_of_lt hva]
    intro hnone
    exact hentry (hkernel ▸ hown.space.entry_of_table_none hva hnone)
  | succ i =>
    refine absurd ?_ (hbefore 0 (Nat.succ_pos i))
    rw [Nat.add_zero, Nat.mod_eq_of_lt hva]
    exact hphys

end

/-! ### The arguments -/

/-- The address of a string is found without wrapping, or lies above `KERNBASE`. -/
theorem pushAt_cases (hsp : sp < 2 ^ 31) (s : Argument) :
    (pushAt sp s + (s.bytes.length + 1) ≤ sp ∧ sp < pushAt sp s + (s.bytes.length + 1) + 4) ∨
      (sp < s.bytes.length + 1 ∧ 2 ^ 31 + sp < pushAt sp s + 4 ∧ pushAt sp s < 2 ^ 32) := by
  have hshort : s.bytes.length < 2 ^ 31 := s.short
  unfold pushAt
  by_cases hle : s.bytes.length + 1 ≤ sp
  · left
    have hmod : (sp + 2 ^ 32 - (s.bytes.length + 1)) % 2 ^ 32 = sp - (s.bytes.length + 1) := by
      omega
    rw [hmod]
    omega
  · right
    have hmod : (sp + 2 ^ 32 - (s.bytes.length + 1)) % 2 ^ 32
        = sp + 2 ^ 32 - (s.bytes.length + 1) := by
      omega
    rw [hmod]
    omega

theorem pushAt_lt (sp : ℕ) (s : Argument) : pushAt sp s < 2 ^ 32 :=
  Nat.lt_of_le_of_lt (Nat.div_mul_le_self _ 4) (Nat.mod_lt _ (by decide))

/-- The page before the stack is not the user's. -/
theorem Stacked.guard (h : Stacked L D sz) (hle : sz - 2 * PGSIZE ≤ va) (hlt : va < sz - PGSIZE) :
    D.phys va = none := by
  have hdiv : PGSIZE * (va / PGSIZE) = sz - 2 * PGSIZE := by
    have haligned := h.aligned
    have hroom := h.room
    rw [pgsize_eq] at haligned hroom hle hlt ⊢
    omega
  have hsz := h.below
  have hpage : D.userPage (va / PGSIZE) = none := by
    by_contra hne
    refine ((h.user _ (lt_nuser ?_)).mp hne).2 hdiv
    rw [hdiv]
    omega
  rw [Space.phys, hpage]
  rfl

/-- A string that `copyout` has copied is on the page of the stack. -/
theorem Stacked.on_stack (h : Stacked L D sz) (hbottom : sz - PGSIZE ≤ sp) (hsp : sp ≤ sz)
    (hle : va + n ≤ sp) (hlt : sp < va + n + 4)
    (huser : ∀ i < n, D.phys ((va + i) % 2 ^ 32) ≠ none) (hpos : 0 < n) : sz - PGSIZE ≤ va := by
  have hroom := h.room
  have hsz := h.below
  rw [kernbase_eq] at hsz
  by_contra hout
  -- the byte of the range that is on the page before the stack
  have hguard : ∃ i < n, sz - 2 * PGSIZE ≤ va + i ∧ va + i < sz - PGSIZE := by
    rw [pgsize_eq] at hbottom hroom hout ⊢
    by_cases hva : sz - 2 * 4096 ≤ va
    · exact ⟨0, hpos, by omega, by omega⟩
    · have hsum : va + (sz - 2 * 4096 - va) = sz - 2 * 4096 :=
        Nat.add_sub_cancel' (Nat.le_of_not_le hva)
      exact ⟨sz - 2 * 4096 - va, by omega, hsum.ge, by omega⟩
  obtain ⟨i, hi, hin⟩ := hguard
  have hmod : (va + i) % 2 ^ 32 = va + i := Nat.mod_eq_of_lt (by omega)
  refine huser i hi ?_
  rw [hmod]
  exact h.guard hin.1 hin.2

/-- **A string is put on the stack**, or it does not fit. -/
theorem Owned.pushArg (cr3 : ℕ) (hown : Owned L k D l held) (h : Stacked L D sz)
    (hbottom : sz - PGSIZE ≤ sp) (hsp : sp ≤ sz) (s : Argument)
    (hclear : ¬ (P2V PHYSTOP ≤ pushAt sp s ∧ pushAt sp s < DEVSPACE)) :
    ∃ r, copyout k cr3 D.pgdir (pushAt sp s) (s.bytes ++ [0]) = .ok r ∧
      Builds L k D l held r.k D l ∧ none ∉ r.ptes ∧
      ((r.ret = 0 ∧ sz - PGSIZE ≤ pushAt sp s ∧ pushAt sp s ≤ sp) ∨ r.ret = -1) := by
  have hsz := h.below
  have hlength : (s.bytes ++ [0]).length = s.bytes.length + 1 := List.length_append
  have hlt : pushAt sp s < 2 ^ 32 := pushAt_lt sp s
  rcases pushAt_cases (hsp.trans_lt hsz) s with ⟨hle, hgt⟩ | ⟨-, hgt, -⟩
  · -- the string is below the top of the stack
    have hreach : Reaches D (pushAt sp s) (s.bytes ++ [0]).length := by
      rw [hlength]
      exact h.reaches hown (hle.trans hsp)
    obtain ⟨r, hrun, hbuilds, hptes, hret, hzero⟩ := hown.copyTo cr3 h hlt hreach
    refine ⟨r, hrun, hbuilds, hptes, hret.imp_left fun hr => ⟨hr, ?_, by omega⟩⟩
    refine h.on_stack hbottom hsp hle hgt ?_ (Nat.succ_pos _)
    rw [← hlength]
    exact hzero.mp hr
  · -- the difference has wrapped, to a page of the kernel
    have hbase : KERNBASE ≤ pushAt sp s := by
      have hroom := h.room
      rw [pgsize_eq] at hroom hbottom
      rw [kernbase_eq]
      omega
    have hentry : kernelEntry L (pushAt sp s / PGSIZE) ≠ none := by
      have hphys : P2V PHYSTOP = 0x8E000000 := by decide
      have hdev : DEVSPACE = 0xFE000000 := rfl
      rw [hphys, hdev] at hclear
      by_cases hlow : pushAt sp s < 0x8E000000
      · refine kernelEntry_memory ((Nat.le_div_iff_mul_le (by decide)).mpr hbase) ?_
        rw [pgsize_eq]
        omega
      · refine kernelEntry_device ?_ ?_
        · rw [pgsize_eq]
          omega
        · rw [pgsize_eq]
          omega
    obtain ⟨hreach, hphys⟩ :=
      h.reaches_kernel (n := (s.bytes ++ [0]).length) hown hlt hbase hentry
    obtain ⟨r, hrun, hbuilds, hptes, hret, hzero⟩ := hown.copyTo cr3 h hlt hreach
    refine ⟨r, hrun, hbuilds, hptes, .inr (hret.resolve_left fun hr => ?_)⟩
    refine hzero.mp hr 0 ?_ ?_
    · rw [hlength]
      exact Nat.succ_pos _
    · rw [Nat.add_zero, Nat.mod_eq_of_lt hlt]
      exact hphys

theorem notMem_append {ptes ptes' : List (Option ℕ)} (h : none ∉ ptes) (h' : none ∉ ptes') :
    none ∉ ptes ++ ptes' := fun hmem => (List.mem_append.mp hmem).elim h h'

/-- **The loop over the arguments.** What it returns is on the page of the stack. -/
theorem Owned.pushArgs (cr3 : ℕ) {argv : List Argument} {argc : ℕ} (hown : Owned L k D l held)
    (h : Stacked L D sz) (hbottom : sz - PGSIZE ≤ sp) (hsp : sp ≤ sz) (hargc : argc ≤ MAXARG)
    (hclear : ¬ Lands (sz - PGSIZE) argc sp argv) :
    ∃ o k' ptes, Kmem.pushArgs cr3 D.pgdir argc sp argv k = .ok (o, k', ptes) ∧
      Builds L k D l held k' D l ∧ none ∉ ptes ∧
      ∀ top sps, o = some (top, sps) →
        sz - PGSIZE ≤ top ∧ top ≤ sz ∧ argc + sps.length ≤ MAXARG := by
  induction argv generalizing argc sp k with
  | nil =>
    refine ⟨_, k, [], rfl, .refl hown, List.not_mem_nil, ?_⟩
    rintro top sps ⟨⟩
    exact ⟨hbottom, hsp, hargc⟩
  | cons s ss ih =>
    rw [Kmem.pushArgs]
    by_cases hmax : argc ≥ MAXARG
    · rw [if_pos hmax]
      exact ⟨none, k, [], rfl, .refl hown, List.not_mem_nil, nofun⟩
    rw [if_neg hmax]
    have hlt : argc < MAXARG := Nat.lt_of_not_le hmax
    have hhere : ¬ (P2V PHYSTOP ≤ pushAt sp s ∧ pushAt sp s < DEVSPACE) := fun hin =>
      hclear ⟨hlt, .inl hin⟩
    obtain ⟨r, hrun, hbuilds, hptes, hr⟩ := hown.pushArg cr3 h hbottom hsp s hhere
    simp only [hrun, bind, Except.bind]
    rcases hr with ⟨hret, hbottom', hle⟩ | hret
    · have hnext : ¬ Lands (sz - PGSIZE) (argc + 1) (pushAt sp s) ss := fun hin =>
        hclear ⟨hlt, .inr ⟨hbottom', hle, hin⟩⟩
      obtain ⟨o, k', ptes, hrun', hbuilds', hptes', ho⟩ :=
        ih hbuilds.owned hbottom' (hle.trans hsp) hlt hnext
      simp only [hret, lt_irrefl, ↓reduceIte, hrun', pure, Except.pure]
      refine ⟨_, k', _, rfl, hbuilds.trans hbuilds', notMem_append hptes hptes',
        fun top sps hsome => ?_⟩
      obtain ⟨⟨top', sps'⟩, rfl, hpair⟩ := Option.map_eq_some_iff.mp hsome
      obtain ⟨rfl, rfl⟩ := Prod.mk.inj hpair
      obtain ⟨h₁, h₂, h₃⟩ := ho top' sps' rfl
      refine ⟨h₁, h₂, ?_⟩
      dsimp only at h₃ ⊢
      rw [List.length_cons]
      omega
    · rw [hret, if_pos (by decide)]
      exact ⟨none, r.k, r.ptes, rfl, hbuilds, hptes, nofun⟩

theorem length_ustack (sp : ℕ) (sps : List ℕ) :
    (ustack sp sps).length = (3 + sps.length + 1) * 4 := by
  have hword : ∀ w, (wordBytes w).length = 4 := fun _ => rfl
  rw [ustack, List.length_flatMap]
  simp only [hword, List.map_const', List.sum_replicate_nat, List.length_append,
    List.length_cons, List.length_nil]

/-- **The stack of the image** is written, or does not fit on its page. -/
theorem Owned.pushStack (cr3 : ℕ) {argv : List Argument} (hown : Owned L k D l held)
    (h : Stacked L D sz) (hclear : ¬ Lands (sz - PGSIZE) 0 sz argv) :
    ∃ o k' ptes, k.pushStack cr3 D.pgdir sz argv = .ok (o, k', ptes) ∧
      Builds L k D l held k' D l ∧ none ∉ ptes := by
  obtain ⟨o, k₁, ptes, hrun, hbuilds, hptes, ho⟩ :=
    hown.pushArgs cr3 h (Nat.sub_le sz PGSIZE) le_rfl (Nat.zero_le MAXARG) hclear
  unfold Kmem.pushStack
  simp only [hrun, bind, Except.bind]
  cases o with
  | none => exact ⟨none, k₁, ptes, rfl, hbuilds, hptes⟩
  | some o =>
    obtain ⟨top, sps⟩ := o
    obtain ⟨hbottom, hle, hargc⟩ := ho top sps rfl
    change 0 + sps.length ≤ 32 at hargc
    have hroom := h.room
    have hsz := h.below
    rw [pgsize_eq] at hbottom hroom
    rw [kernbase_eq] at hsz
    have hsp : (top + 2 ^ 32 - (3 + sps.length + 1) * 4) % 2 ^ 32
        = top - (3 + sps.length + 1) * 4 := by
      omega
    have hreach : Reaches D (top - (3 + sps.length + 1) * 4) (ustack top sps).length := by
      rw [length_ustack]
      exact h.reaches hbuilds.owned (by omega)
    obtain ⟨r, hrun', hbuilds', hptes', hret, -⟩ := hbuilds.owned.copyTo cr3 h (by omega) hreach
    have hnone := notMem_append hptes hptes'
    simp only [hsp, hrun', pure, Except.pure]
    rcases hret with hret | hret
    · rw [hret, if_neg (lt_irrefl 0)]
      exact ⟨_, r.k, _, rfl, hbuilds.trans hbuilds', hnone⟩
    · rw [hret, if_pos (by decide)]
      exact ⟨none, r.k, _, rfl, hbuilds.trans hbuilds', hnone⟩

/-! ### Arguments that are not clear -/

/-- There is no page table between the end of physical memory and the devices. -/
theorem Stacked.gap (h : Stacked L D sz) (hle : 568 ≤ i) (hlt : i < 1016) : D.table i = none := by
  by_contra hne
  obtain ⟨v, hv, hentry⟩ := h.tight i hne
  have hbounds : 0x8E000 ≤ v ∧ v < 0xFE000 := by omega
  rw [h.kernel v ((by decide : NUSER ≤ 0x8E000).trans hbounds.1)] at hentry
  exact hentry (kernelEntry_gap hbounds.1 hbounds.2)

/-- The page of the stack is the user's. -/
theorem Stacked.phys_stack (h : Stacked L D sz) (hle : sz - PGSIZE ≤ va) (hlt : va < sz) :
    D.phys va ≠ none := by
  have haligned := h.aligned
  have hroom := h.room
  have hsz := h.below
  have hdiv : PGSIZE * (va / PGSIZE) = sz - PGSIZE := by
    rw [pgsize_eq] at haligned hroom hle ⊢
    omega
  have hpage : D.userPage (va / PGSIZE) ≠ none := by
    refine (h.user _ (lt_nuser ?_)).mpr ?_
    · rw [hdiv]
      omega
    · rw [hdiv]
      rw [pgsize_eq] at hroom ⊢
      omega
  rw [Space.phys, ne_eq, Option.map_eq_none_iff]
  exact hpage

section

variable (hown : Owned L k D l held) (h : Stacked L D sz)

include hown h

/-- A string between the end of physical memory and the devices: `copyout` follows a null pointer
for its first byte. -/
theorem Owned.copyout_gap (hle : P2V PHYSTOP ≤ va) (hlt : va < DEVSPACE) (hbs : bs ≠ [])
    {r : Copied} (hrun : copyout k cr3 D.pgdir va bs = .ok r) : none ∈ r.ptes := by
  change 0x8E000000 ≤ va at hle
  change va < 0xFE000000 at hlt
  have hva : va < 2 ^ 32 := by omega
  refine copyLoop_null (h.separate hown) (Nat.le_refl _) hown.space hva (fun hreach => ?_) hrun
  refine hreach 0 (List.length_pos_iff.mpr hbs) (fun j hj => absurd hj (Nat.not_lt_zero j)) ?_
  rw [Nat.add_zero, Nat.mod_eq_of_lt hva]
  refine h.gap ?_ ?_
  · rw [PDX]
    omega
  · rw [PDX]
    omega

/-- **A string that lands there is come to.** The strings before it are on the page of the stack, so
they are copied. -/
theorem Owned.pushArgs_null {argv : List Argument} {argc : ℕ} {o : Option (ℕ × List ℕ)}
    {ptes : List (Option ℕ)} (hsp : sp ≤ sz) (hlands : Lands (sz - PGSIZE) argc sp argv)
    (hrun : Kmem.pushArgs cr3 D.pgdir argc sp argv k = .ok (o, k', ptes)) : none ∈ ptes := by
  induction argv generalizing argc sp k o k' ptes with
  | nil => exact hlands.elim
  | cons s ss ih =>
    obtain ⟨hargc, hcases⟩ := hlands
    rw [Kmem.pushArgs, if_neg (Nat.not_le.mpr hargc)] at hrun
    obtain ⟨r, hcopy, hrun⟩ := except_bind_eq_ok.mp hrun
    -- what is followed for a string stays in the record
    have hhere : none ∈ r.ptes → none ∈ ptes := by
      intro hmem
      split at hrun
      · cases hrun
        exact hmem
      · obtain ⟨x, -, hrun⟩ := except_bind_eq_ok.mp hrun
        cases hrun
        exact List.mem_append_left _ hmem
    rcases hcases with ⟨hle, hlt⟩ | ⟨hbottom, hle, hnext⟩
    · have hbs : s.bytes ++ [0] ≠ [] := List.append_ne_nil_of_right_ne_nil _ (List.cons_ne_nil 0 [])
      exact hhere (hown.copyout_gap h hle hlt hbs hcopy)
    · -- the string fits on the page of the stack
      have hsz := h.below
      have hlength : (s.bytes ++ [0]).length = s.bytes.length + 1 := List.length_append
      have hend : pushAt sp s + (s.bytes.length + 1) ≤ sp := by
        rcases pushAt_cases (hsp.trans_lt hsz) s with ⟨hend, -⟩ | ⟨-, hgt, -⟩
        · exact hend
        · have hsp' : sp < 2 ^ 31 := hsp.trans_lt hsz
          omega
      have hreach : Reaches D (pushAt sp s) (s.bytes ++ [0]).length := by
        rw [hlength]
        exact h.reaches hown (hend.trans hsp)
      obtain ⟨r', hcopy', hbuilds, -, -, hzero⟩ := hown.copyTo cr3 h (pushAt_lt sp s) hreach
      obtain rfl : r' = r := Except.ok.inj (hcopy'.symm.trans hcopy)
      have hret : r'.ret = 0 := by
        refine hzero.mpr fun i hi => ?_
        rw [hlength] at hi
        have hlt : pushAt sp s + i < sz := by omega
        rw [kernbase_eq] at hsz
        rw [Nat.mod_eq_of_lt (by omega)]
        exact h.phys_stack (by omega) hlt
      rw [hret, if_neg (lt_irrefl 0)] at hrun
      obtain ⟨⟨rest, k₂, ptes₂⟩, hrest, hrun⟩ := except_bind_eq_ok.mp hrun
      cases hrun
      exact List.mem_append_right _ (ih hbuilds.owned (hle.trans hsp) hnext hrest)

theorem Owned.pushStack_null {argv : List Argument} {o : Option ℕ} {ptes : List (Option ℕ)}
    (hlands : Lands (sz - PGSIZE) 0 sz argv)
    (hrun : k.pushStack cr3 D.pgdir sz argv = .ok (o, k', ptes)) : none ∈ ptes := by
  unfold Kmem.pushStack at hrun
  obtain ⟨⟨o₁, k₁, ptes₁⟩, hargs, hrun⟩ := except_bind_eq_ok.mp hrun
  have hmem := hown.pushArgs_null h le_rfl hlands hargs
  cases o₁ with
  | none =>
    cases hrun
    exact hmem
  | some o₁ =>
    obtain ⟨r, -, hrun⟩ := except_bind_eq_ok.mp hrun
    split at hrun
    · cases hrun
      exact List.mem_append_left _ hmem
    · cases hrun
      exact List.mem_append_left _ hmem

end

/-! ### What a call starts from and what it leaves -/

/-- The process that calls has an address space, a kernel stack that somebody holds for it, and
not the lock of the inode; no null pointer has been followed for it. -/
structure Running (L : Link) (s : Task) (S : Space) (l : List ℕ) (held : Multiset ℕ)
    (kstack : ℕ) : Prop where
  process : Process L s.k s.proc S l held
  stack : s.proc.kstack = some kstack
  mem_held : kstack ∈ held
  lock : s.fs.locked = false
  ref : 0 ≤ s.fs.ref
  exist : none ∉ s.followed

/-- A directory has been begun while others hold `held`: it has the entries of the kernel, and its
pages were free. -/
structure Begun (L : Link) (k : Kmem) (l : List ℕ) (held : Multiset ℕ) (k' : Kmem) (D : Space)
    (l' : List ℕ) : Prop where
  owned : Owned L k' D l' held
  total : (l' : Multiset ℕ) + D.pages = l
  agree : AgreeOn PGSIZE held k.ram k'.ram
  denied : k'.denied = k.denied
  kernel : ∀ v, NUSER ≤ v → D.entry v = kernelEntry L v

theorem Begun.builds {k₁ k₂ : Kmem} {D₁ D₂ : Space} {l₁ l₂ : List ℕ}
    (h : Begun L k l held k₁ D₁ l₁) (hb : Builds L k₁ D₁ l₁ held k₂ D₂ l₂) :
    Begun L k l held k₂ D₂ l₂ where
  owned := hb.owned
  total := hb.total.trans h.total
  agree := h.agree.trans hb.agree
  denied := hb.denied.trans h.denied
  kernel v hv := (hb.kernel v hv).trans (h.kernel v hv)

/-- The pages are as they were. -/
structure Restored (L : Link) (k : Kmem) (l : List ℕ) (held : Multiset ℕ) (k' : Kmem)
    (l' : List ℕ) : Prop where
  pool : Pool L k' l' held
  total : (l' : Multiset ℕ) = l
  agree : AgreeOn PGSIZE held k.ram k'.ram
  denied : k'.denied = k.denied

/-- A directory that has been begun is freed. -/
theorem Begun.freevm {k₁ : Kmem} {l₁ : List ℕ} (h : Begun L k l held k₁ D l₁) :
    ∃ k' l', k₁.freevm L (some D.pgdir) = .ok k' ∧ Restored L k l held k' l' := by
  obtain ⟨k', l', hrun, hpool, htotal, hagree, hdenied⟩ := h.owned.freevm
  exact ⟨k', l', hrun, hpool, htotal.trans h.total, h.agree.trans hagree, hdenied.trans h.denied⟩

/-- **The loading of a file**, whatever it holds. -/
theorem Pool.loadImage (h : Pool L k l held) (f : File) :
    ∃ image k' l', k.loadImage L f = .ok (image, k') ∧
      ((image = .failed none ∧ Restored L k l held k' l') ∨
        ∃ D, Begun L k l held k' D l' ∧
          (image = .failed (some D.pgdir) ∨
            ∃ entry sz, image = .loaded D.pgdir entry sz ∧ sz < KERNBASE ∧ Loaded L D sz ∧
              (PGROUNDUP sz + 2 * PGSIZE < KERNBASE →
                f.stackTop = some (PGROUNDUP sz + 2 * PGSIZE)))) := by
  have hsame : Restored L k l held k l := ⟨h, rfl, .refl _, rfl⟩
  unfold Kmem.loadImage File.stackTop
  cases hread : f.read 0 52 with
  | none => exact ⟨_, k, l, rfl, .inl ⟨rfl, hsame⟩⟩
  | some bs =>
    dsimp only [Option.bind_some]
    by_cases hmagic : (elfhdr bs).magic ≠ ELF_MAGIC
    · rw [if_pos hmagic]
      exact ⟨_, k, l, rfl, .inl ⟨rfl, hsame⟩⟩
    rw [if_neg hmagic, if_neg hmagic]
    obtain ⟨r, k₁, l₁, hrun, hagree, hdenied, hcases⟩ := h.setupkvm
    simp only [hrun, bind, Except.bind]
    rcases hcases with ⟨rfl, hpool, htotal, -⟩ | ⟨D, rfl, hown, htotal, hentry, htight⟩
    · exact ⟨_, k₁, l₁, rfl, .inl ⟨rfl, hpool, htotal, hagree, hdenied⟩⟩
    · have hbegun : Begun L k l held k₁ D l₁ :=
        ⟨hown, htotal, hagree, hdenied, fun v _ => by rw [hentry]⟩
      obtain ⟨r, k₂, D₂, l₂, hrun₂, hbuilds, hr⟩ := hown.loadSegments (f := f)
        (n := (elfhdr bs).phnum) (elfhdr bs).phoff (loaded_zero hentry htight) (by decide)
      simp only [hrun₂, pure, Except.pure]
      have hbegun₂ := hbegun.builds hbuilds
      cases r with
      | none =>
        refine ⟨_, k₂, l₂, rfl, .inr ⟨D₂, hbegun₂, .inl ?_⟩⟩
        rw [hbuilds.pgdir]
      | some sz =>
        obtain ⟨hsz, himage, hsize⟩ := hr sz rfl
        refine ⟨_, k₂, l₂, rfl, .inr ⟨D₂, hbegun₂,
          .inr ⟨(elfhdr bs).entry, sz, ?_, hsz, himage, ?_⟩⟩⟩
        · rw [hbuilds.pgdir]
        · intro htop
          rw [hsize, Option.bind_some, if_pos htop]

/-! ### The whole call -/

/-- A call that fails changes nothing. -/
structure Failed (L : Link) (s : Task) (S : Space) (l : List ℕ) (held : Multiset ℕ) (s' : Task)
    (l' : List ℕ) : Prop where
  exist : none ∉ s'.followed
  proc : s'.proc = s.proc
  fs : s'.fs = s.fs
  restored : Restored L s.k l (S.pages + held) s'.k l'

/-- A call that succeeds: the process has the space `D`, all pages of its old space are free, and
of what others hold only the kernel stack has changed. -/
structure Committed (L : Link) (s : Task) (S : Space) (l : List ℕ) (held : Multiset ℕ)
    (kstack : ℕ) (path : List Char) (s' : Task) (D : Space) (l' : List ℕ) : Prop where
  exist : none ∉ s'.followed
  proc : s'.proc = replaced s.proc path D.pgdir s'.proc.sz
  fs : s'.fs = s.fs
  image : Stacked L D s'.proc.sz
  owned : Owned L s'.k D l' held
  total : (l' : Multiset ℕ) + D.pages = (l : Multiset ℕ) + S.pages
  freed : S.pages ≤ (l' : Multiset ℕ)
  others : ∀ a, blockOf PGSIZE a ∈ held → blockOf PGSIZE a ≠ kstack → s'.k.ram a = s.k.ram a
  denied : s'.k.denied = s.k.denied

section Call

variable {s : Task} {kstack : ℕ} {k₁ : Kmem} {l₁ : List ℕ} {ptes : List (Option ℕ)}

/-- What the inode and the transaction come to when both are given back. -/
theorem Running.release (h : Running L s S l held kstack) :
    ∃ fs fs', s.fs.beginOp.iget.ilock = .ok fs ∧ fs.iunlockput = .ok fs' ∧ fs'.endOp = s.fs := by
  obtain ⟨⟨outstanding, ref, locked⟩, hfs⟩ : ∃ fs, s.fs = fs := ⟨_, rfl⟩
  have hlock := h.lock
  have href := h.ref
  rw [hfs] at hlock href ⊢
  dsimp only at hlock href
  subst hlock
  have hpos : ¬ ref + 1 < 1 := by omega
  refine ⟨⟨outstanding + 1, ref + 1, true⟩, ⟨outstanding + 1, ref, false⟩, ?_, ?_, ?_⟩
  · simp [Fs.ilock, Fs.iget, Fs.beginOp, hpos]
  · simp [Fs.iunlockput, hpos]
  · simp [Fs.endOp]

/-- The space of the process is still there while the image is built. -/
theorem Running.beside (h : Running L s S l held kstack)
    (hbegun : Begun L s.k l (S.pages + held) k₁ D l₁) : Owned L k₁ S l₁ (D.pages + held) := by
  have hspace : S.At k₁.ram := by
    refine h.process.owned.space.of_agreeOn hbegun.agree fun pa hpa => ?_
    exact ⟨(h.process.owned.page_skeleton hpa).aligned,
      Multiset.mem_add.mpr (.inl (Multiset.mem_add.mpr (.inl hpa)))⟩
  refine Pool.owned ?_ hspace
  have hpool := hbegun.owned.pool
  rwa [show D.pages + (S.pages + held) = S.pages + (D.pages + held) by abel] at hpool

/-- **The image is handed to the process**, and the old one is freed. -/
theorem Running.commit (h : Running L s S l held kstack) (path : List Char) (entry sp : ℕ) {fs : Fs}
    (hfs : fs = s.fs) (hbegun : Begun L s.k l (S.pages + held) k₁ D l₁) (hD : Stacked L D sz)
    (hptes : none ∉ ptes) :
    ∃ s' l', commit L ⟨k₁, fs, s.proc, ptes⟩ path D.pgdir entry sz sp = .ok (0, s') ∧
      Committed L s S l held kstack path s' D l' := by
  have hkstack : L.Page kstack := h.process.owned.page_held h.mem_held
  -- the trap frame is on the kernel stack
  let k₂ := (k₁.store (trapframe kstack + 56) entry).store (trapframe kstack + 68) sp
  have hwrite : AgreeOff PGSIZE {kstack} k₁.ram k₂.ram := by
    have hword : ∀ (ram : Memory) (i w : ℕ), i ≤ 72 →
        AgreeOff PGSIZE {kstack} ram (putLE ram (trapframe kstack + i) 4 w) := by
      intro ram i w hi
      rw [trapframe, Nat.add_assoc]
      refine agreeOff_putLE hkstack.aligned ?_
      rw [pgsize_eq]
      omega
    exact (hword _ 56 entry (by decide)).trans (hword _ 68 sp (by decide))
  have hsub : ∀ ps : Multiset ℕ, {kstack} ⊆ ps + held := fun ps q hq =>
    Multiset.mem_add.mpr (.inr (Multiset.mem_singleton.mp hq ▸ h.mem_held))
  have hown : Owned L k₂ D l₁ (S.pages + held) := by
    refine hbegun.owned.congr hwrite rfl ?_
    rw [← add_assoc]
    exact hsub _
  have hold : Owned L k₂ S l₁ (D.pages + held) := by
    refine (h.beside hbegun).congr hwrite rfl ?_
    rw [← add_assoc]
    exact hsub _
  obtain ⟨k', l', hrun, hpool, htotal, hagree, hdenied⟩ := hold.freevm
  have hswitch : switchuvm (replaced s.proc path D.pgdir sz) = .ok () := by
    have hstack : (replaced s.proc path D.pgdir sz).kstack ≠ none := h.process.kstack
    have hpgdir : (replaced s.proc path D.pgdir sz).pgdir ≠ none := Option.some_ne_none _
    rw [switchuvm, if_neg hstack, if_neg hpgdir]
  refine ⟨⟨k', fs, replaced s.proc path D.pgdir sz, ptes⟩, l', ?_, ?_⟩
  · unfold Xv6.Vm.commit
    dsimp only
    rw [h.stack, h.process.pgdir]
    simp only [hswitch, bind, Except.bind]
    rw [hrun]
    rfl
  · refine ⟨hptes, rfl, hfs, hD, hpool.owned ?_, ?_, ?_, ?_, ?_⟩
    · exact hold.other_space hown.space hagree
    · rw [htotal, ← hbegun.total]
      abel
    · rw [htotal]
      exact Multiset.le_add_left _ _
    · intro a ha hne
      rw [← hbegun.agree a (Multiset.mem_add.mpr (.inr ha)),
        ← hwrite a (fun hmem => hne (Multiset.mem_singleton.mp hmem)),
        hagree a (Multiset.mem_add.mpr (.inr ha))]
    · exact hdenied.trans hbegun.denied

/-- The label `bad`, with the inode locked. -/
theorem Restored.bad_locked {k' : Kmem} {l' : List ℕ} {fs fs' : Fs} {pgdir : Option ℕ}
    (h : Restored L s.k l (S.pages + held) k' l') (hfs : fs.iunlockput = .ok fs')
    (hend : fs'.endOp = s.fs) (hrun : k₁.freeImage L pgdir = .ok k') (hptes : none ∉ ptes) :
    bad L pgdir true ⟨k₁, fs, s.proc, ptes⟩ = .ok (-1, ⟨k', s.fs, s.proc, ptes⟩) ∧
      Failed L s S l held ⟨k', s.fs, s.proc, ptes⟩ l' := by
  refine ⟨?_, hptes, rfl, rfl, h⟩
  unfold bad
  simp only [hrun, bind, Except.bind, hfs, ↓reduceIte, pure, Except.pure, hend]

/-- The label `bad`, after the inode was given back. -/
theorem Begun.bad (h : Begun L s.k l (S.pages + held) k₁ D l₁) (hptes : none ∉ ptes) :
    ∃ s' l', bad L (some D.pgdir) false ⟨k₁, s.fs, s.proc, ptes⟩ = .ok (-1, s') ∧
      Failed L s S l held s' l' := by
  obtain ⟨k', l', hrun, hrestored⟩ := h.freevm
  refine ⟨⟨k', s.fs, s.proc, ptes⟩, l', ?_, hptes, rfl, rfl, hrestored⟩
  unfold Xv6.Vm.bad
  simp only [Kmem.freeImage, hrun, bind, Except.bind, Bool.false_eq_true, ↓reduceIte,
    pure, Except.pure]

/-- **What a call of `exec` does**, for any file and any failure on the way: it never stops the
kernel, changes nothing if it fails, and hands over the whole image if it does not. -/
theorem exec_spec (h : Running L s S l held kstack) (path : List Char) (ip : Option File)
    (argv : List Argument) (hclear : ∀ f, ip = some f → Prepared L s.k f → Clear f argv) :
    ∃ r s' l', exec L s path ip argv = .ok (r, s') ∧
      ((r = -1 ∧ Failed L s S l held s' l') ∨
        (r = 0 ∧ ∃ D, Committed L s S l held kstack path s' D l')) := by
  unfold exec
  rw [h.process.pgdir]
  cases ip with
  | none =>
    refine ⟨-1, _, l, rfl, .inl ⟨rfl, h.exist, rfl, ?_, h.process.owned.pool, rfl, .refl _, rfl⟩⟩
    obtain ⟨outstanding, ref, locked⟩ := s.fs
    simp [Fs.beginOp, Fs.endOp]
  | some f =>
    obtain ⟨fs, fs', hlock, hunlock, hend⟩ := h.release
    obtain ⟨image, k₁, l₁, hload, hcases⟩ := h.process.owned.pool.loadImage f
    simp only [hlock, hload, bind, Except.bind]
    rcases hcases with ⟨rfl, hrestored⟩ | ⟨D, hbegun, rfl | ⟨entry, sz, rfl, hsz, himage, hsize⟩⟩
    · obtain ⟨hbad, hfailed⟩ := hrestored.bad_locked hunlock hend
        (rfl : k₁.freeImage L none = _) h.exist
      exact ⟨-1, _, l₁, hbad, .inl ⟨rfl, hfailed⟩⟩
    · obtain ⟨k₂, l₂, hrun, hrestored⟩ := hbegun.freevm
      have hfree : k₁.freeImage L (some D.pgdir) = .ok k₂ := hrun
      obtain ⟨hbad, hfailed⟩ := hrestored.bad_locked hunlock hend hfree h.exist
      exact ⟨-1, _, l₂, hbad, .inl ⟨rfl, hfailed⟩⟩
    · -- the inode is given back, and the stack is built
      obtain ⟨r, k₂, D₂, l₂, hstack, hbuilds, hr⟩ := hbegun.owned.stackPages himage hsz
      have hbegun₂ := hbegun.builds hbuilds
      simp only [hunlock, hstack, hend]
      rcases hr with ⟨rfl, htop, hD⟩ | ⟨rfl, -⟩
      · have hnot := hclear f rfl ⟨_, _, _, _, _, _, hload, hstack⟩ _ (hsize htop)
        obtain ⟨sp, k₃, ptes, hpush, hbuilds₃, hptes⟩ := hbuilds.owned.pushStack S.pgdir hD hnot
        have hbegun₃ := hbegun₂.builds hbuilds₃
        have hexist := notMem_append h.exist hptes
        rw [hbuilds.pgdir] at hpush
        simp only [hpush]
        cases sp with
        | none =>
          obtain ⟨s', l', hbad, hfailed⟩ := hbegun₃.bad hexist
          rw [hbuilds.pgdir] at hbad
          exact ⟨-1, s', l', hbad, .inl ⟨rfl, hfailed⟩⟩
        | some sp =>
          obtain ⟨s', l', hcommit, hdone⟩ := h.commit path entry sp rfl hbegun₃ hD hexist
          rw [hbuilds.pgdir] at hcommit
          exact ⟨0, s', l', hcommit, .inr ⟨rfl, D₂, hdone⟩⟩
      · obtain ⟨s', l', hbad, hfailed⟩ := hbegun₂.bad h.exist
        rw [hbuilds.pgdir] at hbad
        exact ⟨-1, s', l', hbad, .inl ⟨rfl, hfailed⟩⟩

/-- The label `bad` follows no pointer to an entry. -/
theorem bad_followed {pgdir : Option ℕ} {ip : Bool} {s s' : Task} {r : ℤ}
    (h : bad L pgdir ip s = .ok (r, s')) : s'.followed = s.followed := by
  unfold bad at h
  obtain ⟨k, -, h⟩ := except_bind_eq_ok.mp h
  split at h
  · obtain ⟨fs, -, h⟩ := except_bind_eq_ok.mp h
    cases h
    rfl
  · cases h
    rfl

theorem commit_followed {s s' : Task} {path : List Char} {pgdir entry : ℕ} {r : ℤ}
    (h : commit L s path pgdir entry sz sp = .ok (r, s')) : s'.followed = s.followed := by
  unfold commit at h
  split at h
  · cases h
  · obtain ⟨-, -, h⟩ := except_bind_eq_ok.mp h
    obtain ⟨k, -, h⟩ := except_bind_eq_ok.mp h
    cases h
    rfl

/-- **A call that follows a null pointer.** If the arguments come to be pushed and a string is put
where there is no page table, the record of a call that returns has the null pointer. -/
theorem Running.exec_null (h : Running L s S l held kstack) {path : List Char}
    {argv : List Argument} (hprepared : Prepared L s.k f) (hclear : ¬ Clear f argv) {r : ℤ}
    {s' : Task} (hrun : exec L s path (some f) argv = .ok (r, s')) : none ∈ s'.followed := by
  obtain ⟨pgdir, entry, sz, k₁, top, k₂, hload, hstack⟩ := hprepared
  -- the image is a space with the stack where the file has it
  obtain ⟨image, k₁', l₁, hload', hcases⟩ := h.process.owned.pool.loadImage f
  cases hload.symm.trans hload'
  rcases hcases with ⟨heq, -⟩ | ⟨D, hbegun, heq | ⟨entry, sz, heq, hsz, himage, hsize⟩⟩
  · cases heq
  · cases heq
  cases heq
  obtain ⟨o, k₂', D₂, l₂, hstack', hbuilds, hr⟩ := hbegun.owned.stackPages himage hsz
  cases hstack.symm.trans hstack'
  rcases hr with ⟨heq, htop, hD⟩ | ⟨heq, -⟩
  swap
  · cases heq
  cases heq
  have hlands : Lands (PGROUNDUP sz + 2 * PGSIZE - PGSIZE) 0 (PGROUNDUP sz + 2 * PGSIZE) argv := by
    by_contra hnot
    refine hclear fun top' htop' => ?_
    rw [← Option.some.inj ((hsize htop).symm.trans htop')]
    exact hnot
  -- the call, up to the pushing of the arguments
  obtain ⟨fs, fs', hlock, hunlock, -⟩ := h.release
  unfold exec at hrun
  rw [h.process.pgdir] at hrun
  simp only [hlock, hload, hunlock, hstack, bind, Except.bind] at hrun
  cases hpush : k₂.pushStack S.pgdir D.pgdir (PGROUNDUP sz + 2 * PGSIZE) argv with
  | error e =>
    rw [hpush] at hrun
    cases hrun
  | ok x =>
    obtain ⟨sp, k₃, ptes⟩ := x
    rw [hpush] at hrun
    rw [← hbuilds.pgdir] at hpush
    have hmem := hbuilds.owned.pushStack_null hD hlands hpush
    cases sp with
    | none =>
      rw [bad_followed hrun]
      exact List.mem_append_right _ hmem
    | some sp =>
      rw [commit_followed hrun]
      exact List.mem_append_right _ hmem

end Call

end Exec

end Xv6.Vm
