import Assignments.Framework.Run
import Assignments.Xv6.Growproc

/-!
# Heap accounting

`memAlloc` prints the field `heapSize` of a process (`Proc.memAllocated`), which `growproc` is the
only function to write. Nothing writes it when a slot of the process table is given to a new
process, and `growproc` leaves it alone when the new value would be negative, though the size of the
process changes.

The run of a process is the list of its calls of `sbrk` since `fork` has made it, whatever its slot
was used for before. `heapSize_accurate_iff` says when what is printed is the number of bytes by
which the process has grown: the slot must have been left with a `heapSize` of 0, and no call may
shrink the process below the size it was made with.
-/

namespace Xv6.Vm

open Framework
open Xv6.Ptable (PGSIZE KERNBASE Proc Slot RtcDate int uint)

/-- `sys_sbrk`, once its argument is fetched: the old size, or -1. -/
def sbrk (L : Link) (k : Kmem) (p : Proc) (n : ℤ) : Except Halt (ℤ × Kmem × Proc) := do
  let addr := int p.sz
  let (r, k, p) ← growproc L k p n
  if r < 0 then return (-1, k, p)
  return (addr, k, p)

/-- A call of `sbrk`, as a step of the process and its memory. -/
def sbrkStep (L : Link) (s : Kmem × Proc) (n : ℤ) : Option (Kmem × Proc) :=
  match sbrk L s.1 s.2 n with
  | .ok (_, s) => some s
  | .error _ => none

/-- The record that `allocproc` and `fork` make of a slot with the record `x`. -/
def forked (x : Proc) (now : RtcDate) (pid : ℤ) (kstack pgdir : ℕ) (cur : Slot) (parent : Proc) :
    Proc :=
  ({ x.alloc now pid with kstack := some kstack }).copy pgdir cur parent

/-- What `memAlloc` prints is the growth of the process since it had the size `sz`. -/
def Accurate (sz : ℕ) (p : Proc) : Prop := p.memAllocated = p.sz - sz

section Runs

variable {L : Link} {k k' : Kmem} {p p' : Proc} {S S' : Space} {l l' : List ℕ}
  {held : Multiset ℕ} {n : ℤ} {sz : ℕ}

/-- An `int`. -/
def IsInt (n : ℤ) : Prop := -2 ^ 31 ≤ n ∧ n < 2 ^ 31

theorem heapSize_grown (h : IsInt (p.heapSize + n)) :
    (grown p sz n).heapSize = if 0 ≤ p.heapSize + n then p.heapSize + n else p.heapSize := by
  have hint : int (p.heapSize + n) = p.heapSize + n :=
    Int.bmod_eq_of_le (by have := h.1; omega) (by have := h.2; omega)
  unfold grown
  rw [hint]

/-- What a call does to a process, as a step. -/
theorem sbrkStep_spec (h : Process L k p S l held) (hn : IsInt n) :
    ∃ r k' p' S' l', sbrkStep L (k, p) n = some (k', p') ∧ Process L k' p' S' l' held ∧
      GrowStep k p S l held n r k' p' S' l' := by
  obtain ⟨r, k', p', S', l', hrun, h', hstep⟩ := growproc_step h hn.1 hn.2
  refine ⟨r, k', p', S', l', ?_, h', hstep⟩
  have hsbrk : ∃ addr, sbrk L k p n = .ok (addr, k', p') := by
    unfold sbrk
    simp only [hrun, bind, Except.bind, pure, Except.pure]
    split
    · exact ⟨_, rfl⟩
    · exact ⟨_, rfl⟩
  obtain ⟨addr, haddr⟩ := hsbrk
  unfold sbrkStep
  rw [haddr]

/-- A process that is not below its first size stays accurate if it is not shrunk below it. -/
theorem GrowStep.accurate {r : ℤ} (hstep : GrowStep k p S l held n r k' p' S' l')
    (h : Process L k p S l held) (h' : Process L k' p' S' l' held) (hn : IsInt n)
    (hacc : Accurate sz p) (hle : sz ≤ p.sz)
    (hcond : (p.sz : ℤ) + n ≤ 0 ∨ (sz : ℤ) ≤ p.sz + n) : Accurate sz p' ∧ sz ≤ p'.sz := by
  have hsize := h.size
  have hsize' := h'.size
  have hlow := hn.1
  rw [kernbase_eq] at hsize hsize'
  unfold Accurate Ptable.Proc.memAllocated at hacc ⊢
  cases hstep with
  | failed _ _ _ _ => exact ⟨hacc, hle⟩
  | emptied _ _ _ _ => exact ⟨hacc, hle⟩
  | refused _ _ => exact ⟨hacc, hle⟩
  | ignored hneg hsum hpos =>
    -- the sum is negative, and the field is left alone like the size
    have hheap : (grown p p.sz n).heapSize = p.heapSize := by
      rw [heapSize_grown ⟨by omega, by omega⟩, if_neg (by omega)]
    exact ⟨hheap.trans hacc, hle⟩
  | kept hzero =>
    have hheap : (grown p p.sz n).heapSize = p.heapSize := by
      rw [heapSize_grown ⟨by omega, by omega⟩, if_pos (by omega), hzero, add_zero]
    exact ⟨hheap.trans hacc, hle⟩
  | @shrunk _ _ _ sz' hneg hpos hsz _ _ =>
    have hheap : (grown p sz' n).heapSize = p.heapSize + n := by
      rw [heapSize_grown ⟨by omega, by omega⟩, if_pos (by omega)]
    have hsz' : (grown p sz' n).sz = sz' := rfl
    rw [hheap, hsz']
    omega
  | @extended _ _ _ sz' hpos hsz hlt _ _ =>
    have hheap : (grown p sz' n).heapSize = p.heapSize + n := by
      rw [kernbase_eq] at hlt
      rw [heapSize_grown ⟨by omega, by omega⟩, if_pos (by omega)]
    have hsz' : (grown p sz' n).sz = sz' := rfl
    rw [hheap, hsz']
    omega

/-- A call that shrinks the process below its first size leaves it inaccurate. -/
theorem GrowStep.inaccurate {r : ℤ} (hstep : GrowStep k p S l held n r k' p' S' l')
    (h : Process L k p S l held) (hn : IsInt n) (hacc : Accurate sz p) (hle : sz ≤ p.sz)
    (hpos : 0 < (p.sz : ℤ) + n) (hlt : (p.sz : ℤ) + n < sz) : ¬ Accurate sz p' := by
  have hsize := h.size
  have hlow := hn.1
  rw [kernbase_eq] at hsize
  unfold Accurate Ptable.Proc.memAllocated at hacc ⊢
  cases hstep with
  | failed hpos' _ _ _ => omega
  | emptied _ hzero _ _ => omega
  | refused _ hzero => omega
  | ignored _ hsum _ => omega
  | kept hzero => omega
  | extended hpos' _ _ _ _ => omega
  | @shrunk _ _ _ sz' hneg _ hsz _ _ =>
    have hheap : (grown p sz' n).heapSize = p.heapSize := by
      rw [heapSize_grown ⟨by omega, by omega⟩, if_neg (by omega)]
    have hsz' : (grown p sz' n).sz = sz' := rfl
    rw [hheap, hsz']
    omega

/-- The field is never negative once it is 0. -/
theorem GrowStep.heapSize_nonneg {r : ℤ} (hstep : GrowStep k p S l held n r k' p' S' l')
    (hheap : 0 ≤ p.heapSize) : 0 ≤ p'.heapSize := by
  have hgrown : ∀ sz, 0 ≤ (grown p sz n).heapSize := by
    intro sz
    unfold grown
    dsimp only
    split
    · next hge => exact hge
    · exact hheap
  cases hstep with
  | failed _ _ _ _ => exact hheap
  | emptied _ _ _ _ => exact hheap
  | refused _ _ => exact hheap
  | ignored _ _ _ => exact hgrown _
  | kept _ => exact hgrown _
  | shrunk _ _ _ _ _ => exact hgrown _
  | extended _ _ _ _ _ => exact hgrown _

/-- Calls of `sbrk` never panic. -/
theorem sbrk_runs (h : Process L k p S l held) {ns : List ℤ}
    (hns : Along (sbrkStep L) (fun _ n => IsInt n) (k, p) ns) :
    ∃ s, run (sbrkStep L) (k, p) ns = some s ∧ ∃ S l, Process L s.1 s.2 S l held := by
  refine run_invariant ?_ ⟨S, l, h⟩ hns
  rintro ⟨k, p⟩ n ⟨S, l, h⟩ hn
  obtain ⟨-, k', p', S', l', hstep, h', -⟩ := sbrkStep_spec h hn
  exact ⟨(k', p'), hstep, S', l', h'⟩

/-- A process whose `heapSize` is not negative. -/
structure Nonneg (L : Link) (held : Multiset ℕ) (s : Kmem × Proc) : Prop where
  process : ∃ S l, Process L s.1 s.2 S l held
  heapSize : 0 ≤ s.2.heapSize

theorem sbrk_nonneg (h : Process L k p S l held) (hheap : 0 ≤ p.heapSize) {ns : List ℤ}
    (hns : Along (sbrkStep L) (fun _ n => IsInt n) (k, p) ns) {s : Kmem × Proc}
    (hrun : run (sbrkStep L) (k, p) ns = some s) : Nonneg L held s := by
  refine run_preserves ?_ ⟨⟨S, l, h⟩, hheap⟩ hns hrun
  rintro ⟨k, p⟩ n s' ⟨⟨S, l, h⟩, hheap⟩ hn hstep
  obtain ⟨r, k', p', S', l', hstep', h', hgrow⟩ := sbrkStep_spec h hn
  obtain rfl := Option.some.inj (hstep'.symm.trans hstep)
  exact ⟨⟨S', l', h'⟩, hgrow.heapSize_nonneg hheap⟩

/-- A process that is accurate, and not below its first size. -/
structure Tracked (L : Link) (held : Multiset ℕ) (sz : ℕ) (s : Kmem × Proc) : Prop where
  process : ∃ S l, Process L s.1 s.2 S l held
  accurate : Accurate sz s.2
  le : sz ≤ s.2.sz

/-- **The run lemma.** A process that is never shrunk below its first size stays accurate. -/
theorem sbrk_accurate (h : Process L k p S l held) (hheap : p.heapSize = 0) {ns : List ℤ}
    (hns : Along (sbrkStep L)
      (fun s n => ((s.2.sz : ℤ) + n ≤ 0 ∨ (p.sz : ℤ) ≤ s.2.sz + n) ∧ IsInt n) (k, p) ns)
    {s : Kmem × Proc} (hrun : run (sbrkStep L) (k, p) ns = some s) : Tracked L held p.sz s := by
  have hfirst : Accurate p.sz p := hheap.trans (sub_self _).symm
  refine run_preserves ?_ ⟨⟨S, l, h⟩, hfirst, le_refl _⟩ hns hrun
  rintro ⟨k, q⟩ n s' ⟨⟨S, l, h⟩, hacc, hle⟩ ⟨hcond, hn⟩ hstep
  obtain ⟨r, k', p', S', l', hstep', h', hgrow⟩ := sbrkStep_spec h hn
  obtain rfl := Option.some.inj (hstep'.symm.trans hstep)
  obtain ⟨hacc', hle'⟩ := hgrow.accurate h h' hn hacc hle hcond
  exact ⟨⟨S', l', h'⟩, hacc', hle'⟩

/-- **When the heap accounting is right.** A process made by `fork` in a slot with any history calls
`sbrk` any number of times. Then what `memAlloc` prints is right after each of the calls just if the
slot was left with a `heapSize` of 0 and no call shrinks the process below its first size. -/
theorem heapSize_accurate_iff {x parent : Proc} {now : RtcDate} {pid : ℤ} {kstack pgdir : ℕ}
    {cur : Slot} (h : Process L k (forked x now pid kstack pgdir cur parent) S l held)
    {ns : List ℤ} (hns : ∀ n ∈ ns, IsInt n) :
    (∃ s, run (sbrkStep L) (k, forked x now pid kstack pgdir cur parent) ns = some s) ∧
      ((∀ done rest s, ns = done ++ rest →
          run (sbrkStep L) (k, forked x now pid kstack pgdir cur parent) done = some s →
          Accurate parent.sz s.2) ↔
        x.heapSize = 0 ∧
          Along (sbrkStep L)
            (fun s n => (s.2.sz : ℤ) + n ≤ 0 ∨ (parent.sz : ℤ) ≤ s.2.sz + n)
            (k, forked x now pid kstack pgdir cur parent) ns) := by
  have hints : Along (sbrkStep L) (fun _ n => IsInt n)
      (k, forked x now pid kstack pgdir cur parent) ns := along_of_forall hns
  refine ⟨(sbrk_runs h hints).imp fun _ hs => hs.1, ?_, ?_⟩
  · intro hall
    have hzero : x.heapSize = 0 := by
      have hfirst : x.heapSize = parent.sz - parent.sz := hall [] ns _ rfl rfl
      omega
    refine ⟨hzero, (along_iff _ _).mpr ?_⟩
    intro done n rest s hsplit hrun
    by_contra hcond
    rw [not_or, not_le, not_le] at hcond
    have hacc : Accurate parent.sz s.2 := hall done (n :: rest) s hsplit hrun
    rw [hsplit] at hints
    obtain ⟨⟨S₁, l₁, h₁⟩, hnonneg⟩ := sbrk_nonneg h (le_of_eq hzero.symm) hints.left hrun
    have hn : IsInt n := hns n (by rw [hsplit]; simp)
    obtain ⟨r, k', p', S', l', hstep, -, hgrow⟩ := sbrkStep_spec h₁ hn
    have hle : parent.sz ≤ s.2.sz := by
      unfold Accurate Ptable.Proc.memAllocated at hacc
      omega
    refine hgrow.inaccurate h₁ hn hacc hle hcond.1 hcond.2 ?_
    refine hall (done ++ [n]) rest (k', p') ?_ (run_concat.mpr ⟨s, hrun, hstep⟩)
    rw [hsplit, List.append_assoc]
    rfl
  · rintro ⟨hzero, hcond⟩ done rest s hsplit hrun
    have hboth := hcond.and_of_forall hns
    rw [hsplit] at hboth
    exact (sbrk_accurate h hzero hboth.left hrun).accurate

end Runs

/-! ### Slots that are used again -/

/-- A process made from nothing by a parent without memory. -/
def firstChild : Proc :=
  forked Ptable.Proc.zeroed .zero 2 0x400000 0x200000 0 Ptable.Proc.zeroed

theorem firstChild_process :
    Process smallKernel threeFree firstChild bareSpace [0x300000, 0x301000, 0x302000] 0 :=
  ⟨bare_process.owned, rfl, Option.some_ne_none _, by decide, fun _ _ hne => absurd rfl hne⟩

/-- A process that grows by a page and shrinks by half of it. -/
theorem heapSize_accurate_page :
    firstChild.heapSize = 0 ∧ ∀ done rest s, [4096, -2048] = done ++ rest →
      run (sbrkStep smallKernel) (threeFree, firstChild) done = some s → Accurate 0 s.2 := by
  have hns : ∀ n ∈ [(4096 : ℤ), -2048], IsInt n := by
    intro n hn
    rcases List.mem_cons.mp hn with rfl | hn
    · exact ⟨by decide, by decide⟩
    · obtain rfl := List.mem_singleton.mp hn
      exact ⟨by decide, by decide⟩
  refine ⟨rfl, (heapSize_accurate_iff firstChild_process hns).2.mpr ⟨rfl, (along_iff _ _).mpr ?_⟩⟩
  intro _ _ _ s _ _
  exact le_total _ _

/-- The first child grows by a page, exits and is waited for. The process that is then made in its
slot has grown by nothing, but a page is reported. -/
theorem heapSize_inherited :
    ∃ k p, run (sbrkStep smallKernel) (threeFree, firstChild) [4096] = some (k, p) ∧
      ¬ Accurate 0 (forked ({ p with state := .zombie }).reaped .zero 3 0x400000 0x200000 0
        Ptable.Proc.zeroed) := by
  have hheap : (run (sbrkStep smallKernel) (threeFree, firstChild) [4096]).map
      (fun s => s.2.heapSize) = some 4096 := by decide +kernel
  obtain ⟨⟨k, p⟩, hrun, hp⟩ := Option.map_eq_some_iff.mp hheap
  refine ⟨k, p, hrun, ?_⟩
  intro hacc
  have hreported : p.heapSize = 0 := hacc
  have hgrown : p.heapSize = 4096 := hp
  omega

end Xv6.Vm
