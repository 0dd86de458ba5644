import Assignments.Framework.Outcome
import Assignments.Xv6.Exec
import Assignments.Xv6.HeapSize
import Assignments.Xv6.UserMemory

/-!
# The checks of system call arguments are exact

`argint`, `argptr` and `argstr` compare 32-bit sums, which may wrap around, with the size of the
process. What keeps them right is not in `syscall.c`: the size of a process is below `KERNBASE`.

* `Reachable.size` — whatever memory looks like, `fork`, `growproc` and `exec` keep it there;
* `syscall_args_exact` — so the checks accept just what they should, as exact integers.
-/

namespace Xv6.Ptable

/-- The address in `*pp` and the length that is returned: the loop goes from `addr` to the end of
the process. -/
def fetchstr (sz : ℕ) (mem : Memory) (addr : ℕ) : Option (ℕ × ℤ) :=
  if addr ≥ sz then none
  else ((List.range (sz - addr)).find? fun i => mem (addr + i) = 0).map fun len : ℕ =>
    (addr, int len)

def argstr (sz esp : ℕ) (mem : Memory) (n : ℕ) : Option (ℕ × ℤ) :=
  match argint sz esp mem n with
  | none => none
  | some addr => fetchstr sz mem (uint addr)

section Checks

variable {mem : Memory} {sz esp n addr : ℕ}

theorem uint_natCast (a : ℕ) : uint a = a % 2 ^ 32 := by
  unfold uint
  omega

theorem argint_eq (hsz : sz < KERNBASE) : argint sz esp mem n =
    if (esp + 4 + 4 * n) % 2 ^ 32 + 4 ≤ sz then
      some (loadInt mem ((esp + 4 + 4 * n) % 2 ^ 32)) else none := by
  have haddr : uint (esp + 4 + 4 * n) = (esp + 4 + 4 * n) % 2 ^ 32 := by
    rw [← uint_natCast]
    push_cast
    rfl
  rw [argint, fetchint, haddr]
  generalize (esp + 4 + 4 * n) % 2 ^ 32 = addr
  have hsz' : sz < 2 ^ 31 := hsz
  -- an address near the end of the 32-bit range is above the size, before and after the wrap
  rw [← ite_not]
  refine if_congr ⟨fun h => ?_, fun h => ?_⟩ rfl rfl <;> unfold uint at * <;> omega

theorem argptr_eq {size : ℤ} (hsz : sz < KERNBASE) (hsize : size < 2 ^ 31) {i : ℤ}
    (hargint : argint sz esp mem n = some i) : argptr sz esp mem n size =
      if 0 ≤ size ∧ uint i < sz ∧ uint i + size ≤ sz then some (uint i) else none := by
  have hsz' : sz < 2 ^ 31 := hsz
  simp only [argptr, hargint]
  generalize uint i = ptr
  rw [← ite_not]
  -- neither summand reaches 2 ^ 31 once the pointer is below the size
  refine if_congr ⟨fun h => ?_, fun h => ?_⟩ rfl rfl <;> unfold uint at * <;> omega

theorem fetchstr_eq_some (hsz : sz < KERNBASE) {pp : ℕ} {r : ℤ} :
    fetchstr sz mem addr = some (pp, r) ↔ pp = addr ∧ ∃ len : ℕ, r = len ∧ addr + len < sz ∧
      mem (addr + len) = 0 ∧ ∀ i < len, mem (addr + i) ≠ 0 := by
  have hsz' : sz < 2 ^ 31 := hsz
  have hint : ∀ len, addr + len < sz → int len = len :=
    fun len hlen => int_eq_self (by omega) (by omega)
  unfold fetchstr
  split
  · next hge => exact iff_of_false nofun fun ⟨_, _, _, hlt, _⟩ => by omega
  · next hlt =>
    simp only [Option.map_eq_some_iff, List.find?_range_eq_some, Prod.mk.injEq, List.mem_range,
      decide_eq_true_eq, Bool.not_eq_true', decide_eq_false_iff_not]
    constructor
    · rintro ⟨len, ⟨hnul, hlen, hbefore⟩, rfl, rfl⟩
      have hlen' : addr + len < sz := by omega
      exact ⟨rfl, len, hint len hlen', hlen', hnul, hbefore⟩
    · rintro ⟨rfl, len, rfl, hlen, hnul, hbefore⟩
      exact ⟨len, ⟨hnul, by omega, hbefore⟩, rfl, hint len hlen⟩

/-- There is a string at `addr` just if there is a NUL. -/
theorem isSome_fetchstr : (fetchstr sz mem addr).isSome ↔
    ∃ a, addr ≤ a ∧ a < sz ∧ mem a = 0 := by
  unfold fetchstr
  split
  · next hge => exact iff_of_false nofun fun ⟨a, ha, hlt, _⟩ => by omega
  · rw [Option.isSome_map, List.find?_isSome]
    simp only [List.mem_range, decide_eq_true_eq]
    constructor
    · rintro ⟨i, hi, hnul⟩
      exact ⟨addr + i, by omega, by omega, hnul⟩
    · rintro ⟨a, ha, hlt, hnul⟩
      obtain ⟨i, rfl⟩ := Nat.exists_eq_add_of_le ha
      exact ⟨i, by omega, hnul⟩

end Checks

end Xv6.Ptable

namespace Xv6.Vm

open Framework
open Ptable (Proc Slot RtcDate PGSIZE KERNBASE argint argptr argstr loadInt uint int)

/-! ### The size of a process -/

/-- The processes that there are, whatever the memory is like in which they call `fork`, `growproc`
and `exec`. -/
inductive Reachable : Proc → Prop where
  | userinit {p : Proc} (hsz : p.sz = PGSIZE) : Reachable p
  | fork {parent : Proc} (h : Reachable parent) (x : Proc) (now : RtcDate) (pid : ℤ)
      (kstack pgdir : ℕ) (cur : Slot) : Reachable (forked x now pid kstack pgdir cur parent)
  | growproc {L : Link} {k k' : Kmem} {p p' : Proc} {n r : ℤ} (h : Reachable p)
      (hrun : growproc L k p n = .ok (r, k', p')) : Reachable p'
  | exec {L : Link} {s s' : Task} {path : List Char} {ip : Option File} {argv : List Argument}
      {r : ℤ} (h : Reachable s.proc) (hrun : exec L s path ip argv = .ok (r, s')) :
      Reachable s'.proc

section Sizes

/-- The result has `post`, whatever else stops the kernel. -/
abbrev Returns {α : Type} (x : Except Halt α) (post : α → Prop) : Prop :=
  Ensures (fun _ => True) x post

variable {L : Link} {k : Kmem} {pgdir oldsz newsz sz : ℕ}

theorem allocLoop_size {fuel a : ℕ} :
    Returns (Kmem.allocLoop L pgdir oldsz newsz fuel a k) fun r => r.1 = 0 ∨ r.1 = newsz := by
  induction fuel generalizing a k with
  | zero => exact .error trivial
  | succ fuel ih =>
    rw [Kmem.allocLoop]
    refine .ite (fun _ => ?_) fun _ => .ok (.inr rfl)
    split
    · exact Ensures.true.bind fun _ _ => .ok (.inl rfl)
    · refine Ensures.true.bind fun _ _ => .ite (fun _ => ?_) fun _ => ih
      exact Ensures.true.bind fun _ _ => Ensures.true.bind fun _ _ => .ok (.inl rfl)

theorem allocuvm_size (h : oldsz < KERNBASE ∨ oldsz ≤ newsz) :
    Returns (k.allocuvm L pgdir oldsz newsz) fun r => r.1 < KERNBASE := by
  refine .ite (fun _ => .ok (show 0 < KERNBASE by decide)) fun hnew =>
    .ite (fun hlt => .ok ?_) fun _ => ?_
  · exact h.resolve_right (Nat.not_le.mpr hlt)
  · refine allocLoop_size.mono fun r hr => ?_
    rcases hr with hr | hr <;> rw [hr]
    · decide
    · exact Nat.lt_of_not_le hnew

theorem deallocuvm_size : Returns (k.deallocuvm L pgdir oldsz newsz) fun r => r.1 ≤ oldsz := by
  refine .ite (fun _ => .ok (le_refl _)) fun hlt => Ensures.map (Ensures.true.mono fun _ _ => ?_)
  exact le_of_lt (Nat.lt_of_not_le hlt)

theorem growproc_size {p : Proc} {n : ℤ} (h : p.sz < KERNBASE) :
    Returns (growproc L k p n) fun r => r.2.2.sz < KERNBASE := by
  have hresize : ∀ pgdir, Returns (resize L k pgdir p.sz n)
      fun r => r.1 < KERNBASE := by
    intro pgdir
    refine .ite (fun _ => allocuvm_size (.inl h)) fun _ => .ite (fun _ => ?_) fun _ => .ok h
    exact deallocuvm_size.mono fun r hr => lt_of_le_of_lt hr h
  unfold growproc
  split
  · exact .error trivial
  · refine (hresize _).bind fun r hr => .ite (fun _ => .ok h) fun _ => ?_
    exact Ensures.true.bind fun _ _ => .ok hr

theorem loadSegments_size {f : File} {n off : ℕ} (h : sz < KERNBASE) :
    Returns (Kmem.loadSegments L f pgdir n off sz k)
      fun r => ∀ sz', r.1 = some sz' → sz' < KERNBASE := by
  induction n generalizing off sz k with
  | zero =>
    rintro sz' ⟨⟩
    exact h
  | succ n ih =>
    rw [Kmem.loadSegments]
    split
    · exact .ok (by simp)
    · refine .ite (fun _ => ih h) fun _ => .ite (fun _ => .ok (by simp)) fun _ =>
        .ite (fun _ => .ok (by simp)) fun _ => (allocuvm_size (.inl h)).bind fun r hr => ?_
      refine .ite (fun _ => .ok (by simp)) fun _ => .ite (fun _ => .ok (by simp)) fun _ =>
        Ensures.true.bind fun _ _ => .ite (fun _ => .ok (by simp)) fun _ => ih hr

theorem loadImage_size {f : File} : Returns (k.loadImage L f)
    fun r => ∀ pgdir entry sz, r.1 = .loaded pgdir entry sz → sz < KERNBASE := by
  unfold Kmem.loadImage
  split
  · exact .ok nofun
  · refine .ite (fun _ => .ok nofun) fun _ => Ensures.true.bind fun r _ => ?_
    dsimp only
    split
    · exact .ok nofun
    · refine (loadSegments_size (by decide)).bind fun r hr => ?_
      split
      · exact .ok nofun
      · next sz hsz =>
        rintro pgdir entry sz' ⟨⟩
        exact hr sz hsz

/-- The two pages of the stack are above the rounded size, without a wrap. -/
theorem stackPages_size {k' : Kmem} {top : ℕ} (h : sz < KERNBASE)
    (hrun : k.stackPages L pgdir sz = .ok (some top, k')) : top < KERNBASE := by
  have hle : PGROUNDUP sz ≤ (PGROUNDUP sz + 2 * PGSIZE) % 2 ^ 32 := by
    rw [kernbase_eq] at h
    unfold PGROUNDUP
    rw [pgsize_eq]
    omega
  unfold Kmem.stackPages at hrun
  generalize (PGROUNDUP sz + 2 * PGSIZE) % 2 ^ 32 = newsz at hle hrun
  refine @Ensures.of_eq_ok _ _ (fun _ => True) _ (fun r => ∀ top, r.1 = some top → top < KERNBASE)
    _ ((allocuvm_size (.inr hle)).bind fun r hr => ?_) hrun top rfl
  refine .ite (fun _ => .ok nofun) fun _ => Ensures.true.bind fun _ _ => Ensures.ok ?_
  rintro top ⟨⟩
  exact hr

theorem bad_size {pgdir : Option ℕ} {ip : Bool} {s : Task} (h : s.proc.sz < KERNBASE) :
    Returns (bad L pgdir ip s) fun r => r.2.proc.sz < KERNBASE :=
  Ensures.true.bind fun _ _ => .ite (fun _ => Ensures.true.bind fun _ _ => .ok h) fun _ => .ok h

theorem commit_size {s : Task} {path : List Char} {entry sp : ℕ} (h : sz < KERNBASE) :
    Returns (commit L s path pgdir entry sz sp)
      fun r => r.2.proc.sz < KERNBASE := by
  unfold commit
  split
  · exact .error trivial
  · exact Ensures.true.bind fun _ _ => Ensures.true.bind fun _ _ => .ok h

theorem exec_size {s : Task} {path : List Char} {ip : Option File} {argv : List Argument}
    (h : s.proc.sz < KERNBASE) :
    Returns (exec L s path ip argv) fun r => r.2.proc.sz < KERNBASE := by
  unfold exec
  split
  · exact .error trivial
  · exact .ok h
  · refine Ensures.true.bind fun fs _ => loadImage_size.bind fun ⟨image, k⟩ himage => ?_
    cases image with
    | failed pgdir => exact bad_size h
    | loaded pgdir entry sz =>
      refine Ensures.true.bind fun fs _ => ?_
      cases hpages : k.stackPages L pgdir sz with
      | error e => exact .error trivial
      | ok r =>
        obtain ⟨_ | top, k⟩ := r
        · exact bad_size h
        have htop := stackPages_size (himage pgdir entry sz rfl) hpages
        show Ensures _ (k.pushStack _ pgdir top argv >>= _) _
        refine Ensures.true.bind fun ⟨sp, k, ptes⟩ _ => ?_
        cases sp with
        | none => exact bad_size h
        | some sp => exact commit_size htop

end Sizes

theorem Reachable.size {p : Proc} (h : Reachable p) : p.sz < KERNBASE := by
  induction h with
  | userinit hsz =>
    rw [hsz]
    decide
  | fork _ _ _ _ _ _ _ ih => exact ih
  | growproc _ hrun ih => exact (growproc_size ih).of_eq_ok hrun
  | exec _ hrun ih => exact (exec_size ih).of_eq_ok hrun

/-! ### The checks -/

/-- **The checks are exact.** With `addr` the address of the `n`th argument word and `ptr` what it
holds, for a process that is reached by `fork`, `growproc` and `exec`: `argint` accepts just if the
word is inside the process, `argptr` just if moreover `size` is not negative and the bytes at `ptr`
are inside, and `argstr` just if there is a NUL inside at or after `ptr`; it returns the length of
the string up to the first one. -/
theorem syscall_args_exact (p : Proc) (hp : Reachable p) (mem : Ptable.Memory) (esp n : ℕ)
    (size : ℤ) (hsize : IsInt size) (addr ptr : ℕ) (haddr : addr = (esp + 4 + 4 * n) % 2 ^ 32)
    (hptr : ptr = uint (loadInt mem addr)) :
    p.sz < KERNBASE ∧
    argint p.sz esp mem n = (if addr + 4 ≤ p.sz then some (loadInt mem addr) else none) ∧
    argptr p.sz esp mem n size = (if addr + 4 ≤ p.sz ∧ 0 ≤ size ∧ ptr < p.sz ∧ ptr + size ≤ p.sz
      then some ptr else none) ∧
    ((argstr p.sz esp mem n).isSome ↔
      addr + 4 ≤ p.sz ∧ ∃ a, ptr ≤ a ∧ a < p.sz ∧ mem a = 0) ∧
    ∀ pp r, argstr p.sz esp mem n = some (pp, r) ↔ addr + 4 ≤ p.sz ∧ pp = ptr ∧
      ∃ len : ℕ, r = len ∧ ptr + len < p.sz ∧ mem (ptr + len) = 0 ∧
        ∀ i < len, mem (ptr + i) ≠ 0 := by
  have hsz := hp.size
  have hargint := @Ptable.argint_eq mem p.sz esp n hsz
  rw [← haddr] at hargint
  refine ⟨hsz, hargint, ?_⟩
  by_cases hword : addr + 4 ≤ p.sz
  · rw [if_pos hword] at hargint
    have hargstr : argstr p.sz esp mem n = Ptable.fetchstr p.sz mem ptr := by
      rw [argstr, hargint, hptr]
    rw [Ptable.argptr_eq hsz hsize.2 hargint, ← hptr, hargstr, Ptable.isSome_fetchstr]
    simp only [hword, true_and, Ptable.fetchstr_eq_some hsz, implies_true, and_self]
  · rw [if_neg hword] at hargint
    have hargstr : argstr p.sz esp mem n = none := by rw [argstr, hargint]
    rw [argptr, hargint, hargstr]
    simp [hword]

/-- A process of one page, with the number 7 as its first argument. -/
theorem syscall_args_exact_page : argint PGSIZE 0 (fun a => if a = 4 then 7 else 0) 0 = some 7 ∧
    argptr PGSIZE 0 (fun a => if a = 4 then 7 else 0) 0 8 = some 7 := by
  obtain ⟨-, hint, hptr, -⟩ := syscall_args_exact { Ptable.Proc.zeroed with sz := PGSIZE }
    (.userinit rfl) (fun a => if a = 4 then 7 else 0) 0 0 8 ⟨by decide, by decide⟩ 4 7 (by decide)
    (by decide +kernel)
  exact ⟨hint.trans (by decide +kernel), hptr.trans (by decide +kernel)⟩

end Xv6.Vm
