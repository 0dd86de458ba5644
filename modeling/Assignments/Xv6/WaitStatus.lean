import Assignments.Xv6.TableLock

/-!
# What `wait` writes to user memory

`sys_wait` checks the pointer it is given against the size of the process and passes it to `wait`,
which stores the exit status of the child through it. Address 0 is an address like any other: the
check accepts it in every process of at least four bytes, and the store is made without asking
whether the caller wants the status.

* `Reaps` — the child that a call finds, from the tables it looks at;
* `waitLoop_mem` — `wait` stores the status of that child and writes nothing else;
* `wait_frame` — so the word at the pointer is all that changes, and `wait(0)` changes it as well
  unless the status is there already.
-/

namespace Xv6.Ptable

open Framework

def Kernel.sysWait (k : Kernel) (cur : Slot) (now : RtcDate) (meanwhile : Meanwhile) :
    Except Halt (ℤ × Kernel) :=
  match argptr (k.proc cur).sz k.esp k.mem 0 4 with
  | none => .ok (-1, k)
  | some status => k.wait cur status now meanwhile

/-! ### The child that a call finds -/

/-- The table that a process leaves when it goes to sleep in `wait`. -/
def asleep (t : Table) (cur : Slot) (now : RtcDate) : Table :=
  Function.update t cur
    { t cur with
      chan := some (.proc cur)
      state := .sleeping
      processLastContextSwitchedOutDateTime := now }

/-- The table that it looks at next. -/
def awake (t : Table) (cur : Slot) : Table := Function.update t cur { t cur with chan := none }

/-- In the first of the tables it looks at that ends its wait, the caller finds the child `x`. -/
inductive Reaps (cur : Slot) (now : RtcDate) : Table → Meanwhile → Proc → Prop where
  | found {t : Table} {meanwhile : Meanwhile} {p : Slot} (h : t.zombieChild cur = some p) :
      Reaps cur now t meanwhile (t p)
  | later {t : Table} {f : Table → Table} {meanwhile : Meanwhile} {x : Proc}
      (hnone : t.zombieChild cur = none) (hwait : ¬(¬t.havekids cur ∨ (t cur).killed))
      (h : Reaps cur now (awake (f (asleep t cur now)) cur) meanwhile x) :
      Reaps cur now t (f :: meanwhile) x

theorem Reaps.unique {cur : Slot} {now : RtcDate} {t : Table} {meanwhile : Meanwhile} {x y : Proc}
    (hx : Reaps cur now t meanwhile x) (hy : Reaps cur now t meanwhile y) : x = y := by
  induction hx with
  | found h =>
    cases hy with
    | found h' => rw [Option.some.inj (h.symm.trans h')]
    | later hnone _ _ =>
      rw [h] at hnone
      cases hnone
  | later hnone _ _ ih =>
    cases hy with
    | found h' =>
      rw [h'] at hnone
      cases hnone
    | later _ _ h' => exact ih h'

/-! ### What the loop writes -/

namespace Kernel

variable {k : Kernel} {cur : Slot} {now : RtcDate} {status : ℕ}

theorem release_mem : Ensures (fun _ => True) k.release fun k' => k'.mem = k.mem := by
  unfold release
  refine .ite (fun _ => .error trivial) fun _ => ?_
  exact .ite (fun _ => .error trivial) fun _ => .ok rfl

theorem sched_mem {f : Table → Table} :
    Ensures (fun _ => True) (k.sched cur now (some f)) fun k' =>
      k'.mem = k.mem ∧ k'.proc = f (Function.update k.proc cur
        { k.proc cur with processLastContextSwitchedOutDateTime := now }) := by
  unfold sched
  refine .ite (fun _ => .error trivial) fun _ => ?_
  refine .ite (fun _ => .error trivial) fun _ => ?_
  exact .ite (fun _ => .error trivial) fun _ => .ok ⟨rfl, rfl⟩

theorem sleep_mem {f : Table → Table} :
    Ensures (fun _ => True) (k.sleep cur (some (.proc cur)) now (some f)) fun k' =>
      k'.mem = k.mem ∧ k'.proc = awake (f (asleep k.proc cur now)) cur := by
  refine sched_mem.bind fun k' hk' => .ok ⟨hk'.1, ?_⟩
  simp [setProc, awake, asleep, hk'.2]

/-- What a call leaves in memory: the status of the child it finds, stored at `status`. -/
def Delivers (k : Kernel) (cur : Slot) (status : ℕ) (now : RtcDate) (meanwhile : Meanwhile)
    (mem : Memory) : Prop :=
  (∃ x, Reaps cur now k.proc meanwhile x ∧ mem = storeInt k.mem status x.exitstatus) ∨
    (∀ x, ¬Reaps cur now k.proc meanwhile x) ∧ mem = k.mem

/-- A pass over the table that ends the loop. -/
theorem waitScan_mem {meanwhile : Meanwhile} {r : ℤ} {k' : Kernel}
    (h : k.waitScan cur status = some (r, k')) : k.Delivers cur status now meanwhile k'.mem := by
  unfold waitScan at h
  split at h
  · next p hp =>
    cases h
    exact .inl ⟨_, .found hp, rfl⟩
  · next hnone =>
    split at h
    · next hstop =>
      cases h
      refine .inr ⟨fun x hx => ?_, rfl⟩
      cases hx with
      | found hp =>
        rw [hp] at hnone
        cases hnone
      | later _ hwait _ => exact hwait hstop
    · cases h

/-- A pass that goes to sleep. -/
theorem waitScan_none (h : k.waitScan cur status = none) :
    k.proc.zombieChild cur = none ∧ ¬(¬k.proc.havekids cur ∨ (k.proc cur).killed) := by
  unfold waitScan at h
  split at h
  · cases h
  · next hnone =>
    split at h
    · cases h
    · next hwait => exact ⟨hnone, hwait⟩

theorem waitLoop_mem (meanwhile : Meanwhile) :
    Ensures (fun _ => True) (waitLoop cur status now meanwhile k) fun r =>
      k.Delivers cur status now meanwhile r.2.mem := by
  induction meanwhile generalizing k with
  | nil =>
    unfold waitLoop
    cases hscan : k.waitScan cur status with
    | some r =>
      refine release_mem.bind fun k' hk' => .ok ?_
      rw [hk']
      exact waitScan_mem hscan
    | none => exact Ensures.true.bind fun _ _ => .error trivial
  | cons f meanwhile ih =>
    unfold waitLoop
    cases hscan : k.waitScan cur status with
    | some r =>
      refine release_mem.bind fun k' hk' => .ok ?_
      rw [hk']
      exact waitScan_mem hscan
    | none =>
      obtain ⟨hnone, hwait⟩ := waitScan_none hscan
      refine sleep_mem.bind fun k' hk' => ih.mono fun r hr => ?_
      rcases hr with ⟨x, hx, hmem⟩ | ⟨hno, hmem⟩
      · rw [hk'.2] at hx
        rw [hk'.1] at hmem
        exact .inl ⟨x, .later hnone hwait hx, hmem⟩
      · rw [hk'.1] at hmem
        refine .inr ⟨fun x hx => ?_, hmem⟩
        cases hx with
        | found hp =>
          rw [hp] at hnone
          cases hnone
        | later _ _ hx =>
          rw [← hk'.2] at hx
          exact hno x hx

end Kernel

/-! ### The frame of `wait` -/

/-- What `sys_wait` leaves in memory. -/
theorem sysWait_mem {k k' : Kernel} {cur : Slot} {now : RtcDate} {meanwhile : Meanwhile} {r : ℤ}
    (h : k.sysWait cur now meanwhile = .ok (r, k')) :
    (argptr (k.proc cur).sz k.esp k.mem 0 4 = none ∧ k'.mem = k.mem) ∨
      ∃ status, argptr (k.proc cur).sz k.esp k.mem 0 4 = some status ∧
        k.Delivers cur status now meanwhile k'.mem := by
  unfold Kernel.sysWait at h
  cases hptr : argptr (k.proc cur).sz k.esp k.mem 0 4 with
  | none =>
    rw [hptr] at h
    cases h
    exact .inl ⟨rfl, rfl⟩
  | some status =>
    rw [hptr] at h
    refine .inr ⟨status, rfl, ?_⟩
    dsimp only [Kernel.wait, Kernel.acquire] at h
    split at h
    · cases h
    · exact (Kernel.waitLoop_mem meanwhile).of_eq_ok h

/-- A process of one page with a child that has exited with status 5; its memory is zero. -/
def discarding : Kernel where
  locked := false
  ncli := 0
  proc := fun p =>
    if p = 0 then { Proc.zeroed with sz := 4096, state := .running, pid := 1 }
    else if p = 1 then
      { Proc.zeroed with state := .zombie, pid := 2, parent := some 0, exitstatus := 5 }
    else .zeroed
  nextpid := 3
  console := ""
  mem := fun _ => 0
  esp := 4000

/-- `wait(0)` overwrites the word at address 0. -/
theorem wait_zero_writes :
    argint (discarding.proc 0).sz discarding.esp discarding.mem 0 = some 0 ∧
      ∃ k', discarding.sysWait 0 .zero [] = .ok (2, k') ∧
        k'.mem 0 ≠ discarding.mem 0 := by
  refine ⟨by decide +kernel, _, rfl, by decide +kernel⟩

/-- **What a call of `wait` may change in user memory.** Only the word at the pointer changes, only
if a child is reaped, and nothing changes for the pointer 0: this holds of a call just if it does
not reap, with an accepted pointer 0, a child whose status differs from the word at address 0. -/
theorem wait_frame (k k' : Kernel) (cur : Slot) (now : RtcDate) (meanwhile : Meanwhile) (r : ℤ)
    (h : k.sysWait cur now meanwhile = .ok (r, k')) :
    ((∀ a, k'.mem a ≠ k.mem a →
        ∃ status x, argptr (k.proc cur).sz k.esp k.mem 0 4 = some status ∧
          Reaps cur now k.proc meanwhile x ∧ status ≤ a ∧ a < status + 4) ∧
      (argint (k.proc cur).sz k.esp k.mem 0 = some 0 → k'.mem = k.mem)) ↔
    ¬∃ x, argptr (k.proc cur).sz k.esp k.mem 0 4 = some 0 ∧ Reaps cur now k.proc meanwhile x ∧
      loadInt k.mem 0 ≠ int x.exitstatus := by
  rcases sysWait_mem h with ⟨hptr, hmem⟩ | ⟨status, hptr, hdelivers⟩
  · refine iff_of_true ⟨fun a ha => absurd (congrFun hmem a) ha, fun _ => hmem⟩ ?_
    rintro ⟨x, hzero, -⟩
    rw [hptr] at hzero
    cases hzero
  · have hzero := argptr_eq_zero hptr
    rcases hdelivers with ⟨x, hreaps, hmem⟩ | ⟨hno, hmem⟩
    · -- the store is made: what is left is whether it changes the word at address 0
      have hframe : ∀ a, k'.mem a ≠ k.mem a → status ≤ a ∧ a < status + 4 := by
        intro a ha
        by_contra hout
        exact ha (by rw [hmem, storeInt_of_lt (by omega)])
      constructor
      · rintro ⟨-, hdiscard⟩ ⟨y, hptr', hreaps', hword⟩
        obtain rfl := Option.some.inj (hptr.symm.trans hptr')
        obtain rfl := hreaps.unique hreaps'
        exact hword (storeInt_eq_self.mp (hmem.symm.trans (hdiscard (hzero.mp rfl))))
      · intro hcond
        refine ⟨fun a ha => ⟨status, x, hptr, hreaps, hframe a ha⟩, fun harg => ?_⟩
        obtain rfl : status = 0 := hzero.mpr harg
        rw [hmem, storeInt_eq_self]
        by_contra hword
        exact hcond ⟨x, hptr, hreaps, hword⟩
    · refine iff_of_true ⟨fun a ha => absurd (congrFun hmem a) ha, fun _ => hmem⟩ ?_
      rintro ⟨x, -, hreaps, -⟩
      exact hno x hreaps

/-- The process above, with a pointer on its stack to the word above it. -/
theorem wait_frame_pointer :
    ∃ k', Kernel.sysWait { discarding with mem := storeInt discarding.mem 4004 4008 } 0
        .zero [] = .ok (2, k') ∧
      ∀ a, k'.mem a ≠ storeInt discarding.mem 4004 4008 a → 4008 ≤ a ∧ a < 4012 := by
  have hptr : argptr 4096 4000 (storeInt discarding.mem 4004 4008) 0 4 = some 4008 := by
    decide +kernel
  refine ⟨_, rfl, fun a ha => ?_⟩
  obtain ⟨status, x, hstatus, -, hle, hlt⟩ :=
    ((wait_frame { discarding with mem := storeInt discarding.mem 4004 4008 } _ 0
      .zero [] 2 rfl).mpr (by
        rintro ⟨x, hzero, -⟩
        cases hptr.symm.trans hzero)).1 a ha
  obtain rfl := Option.some.inj (hptr.symm.trans hstatus)
  exact ⟨hle, hlt⟩

end Xv6.Ptable
