import Assignments.Xv6.UserMemory
import Assignments.Framework.Outcome

/-!
# The routines that take `ptable.lock`

The routines of `proc.c` that take `ptable.lock` on their own, one call at a time: `allocproc`,
`wait`, `kill`, `wakeup`, `yield`, and the four that print what the table says about a process.
`acquire` and `release` check who holds the lock and count `pushcli` as `spinlock.c` does.

`yield` and `wait` give up the CPU in `sched`. What the rest of the machine does to the table until
the caller is switched to again is an argument of the call: one function from tables to tables for
each time the caller leaves. It comes back with the lock held, as the scheduler hands it over. When
the functions run out, the caller is never switched to again.

* `call_unlocked` — a call gives the lock back unless `getprocesstimedetails` meets a zero year;
* `returns_unlocked` — the lock is given back just if the call is not such a call.
-/

namespace Xv6.Ptable

open Framework

/-- How a routine ends when it does not return. -/
inductive Halt where
  | panic (msg : String)
  /-- The caller left the CPU in `sched` and is not switched to again. -/
  | switchedOut
deriving DecidableEq

/-- What the routines work on: the table and its lock, the CPU's `ncli`, the console, and the
memory and the stack pointer of the process that made the call. -/
structure Kernel where
  locked : Bool
  ncli : ℕ
  proc : Table
  nextpid : ℤ
  console : String
  mem : Memory
  esp : ℕ

/-- What the machine does while the caller is switched out, each time it is. -/
abbrev Meanwhile : Type := List (Table → Table)

/-! ### Texts and checks -/

def stateText : ProcState → String
  | .unused => "UNUSED\n"
  | .embryo => "EMBRYO\n"
  | .sleeping => "SLEEPING\n"
  | .runnable => "RUNNABLE\n"
  | .running => "RUNNING\n"
  | .zombie => "ZOMBIE\n"

def dateText (label : String) (d : RtcDate) : String :=
  label ++ ": " ++ toString d.second ++ ":" ++ toString d.minute ++ ":" ++ toString d.hour ++ " " ++
    toString d.day ++ ":" ++ toString d.month ++ ":" ++ toString d.year ++ " \n"

/-- What `getprocesstimedetails` prints for a process. -/
def Proc.times (x : Proc) : String :=
  dateText "processCreationDateTime" x.processCreationDateTime ++
  dateText "processLastContextSwitchedOutDateTime" x.processLastContextSwitchedOutDateTime ++
  dateText "processLastContextSwitchedInDateTime" x.processLastContextSwitchedInDateTime

/-- The check that `getprocesstimedetails` makes before it prints. -/
def Proc.ZeroYear (x : Proc) : Prop :=
  x.processCreationDateTime.year = 0 ∨ x.processLastContextSwitchedOutDateTime.year = 0 ∨
    x.processLastContextSwitchedInDateTime.year = 0

instance (x : Proc) : Decidable x.ZeroYear :=
  inferInstanceAs (Decidable (_ ∨ _))

/-- The files that the processes of one pid have open. -/
def Table.openFiles (t : Table) (processid : ℤ) : ℕ :=
  (List.finRange NPROC).foldl (fun nof p =>
    if (t p).pid = processid then
      nof + (List.finRange NOFILE).countP fun fd => ((t p).ofile fd).isSome
    else nof) 0

namespace Kernel

def setProc (k : Kernel) (p : Slot) (x : Proc) : Kernel :=
  { k with proc := Function.update k.proc p x }

def cprintf (k : Kernel) (s : String) : Kernel := { k with console := k.console ++ s }

/-- A loop over the table that prints a text for each slot. -/
def printEach (k : Kernel) (text : Proc → String) : Kernel :=
  (List.finRange NPROC).foldl (fun k p => k.cprintf (text (k.proc p))) k

/-- `acquire(&ptable.lock)`, on a CPU that holds the lock or finds it free. -/
def acquire (k : Kernel) : Except Halt Kernel :=
  if k.locked then .error (.panic "acquire") else .ok { k with locked := true, ncli := k.ncli + 1 }

def release (k : Kernel) : Except Halt Kernel :=
  if ¬k.locked then .error (.panic "release")
  else if k.ncli = 0 then .error (.panic "popcli")
  else .ok { k with locked := false, ncli := k.ncli - 1 }

/-- `sched`, for the process `cur`. -/
def sched (k : Kernel) (cur : Slot) (now : RtcDate) (meanwhile : Option (Table → Table)) :
    Except Halt Kernel :=
  if ¬k.locked then .error (.panic "sched ptable.lock")
  else if k.ncli ≠ 1 then .error (.panic "sched locks")
  else if (k.proc cur).state = .running then .error (.panic "sched running")
  else
    let k := k.setProc cur { k.proc cur with processLastContextSwitchedOutDateTime := now }
    match meanwhile with
    | none => .error .switchedOut
    | some f => .ok { k with proc := f k.proc }

/-! ### The routines -/

def allocproc (k : Kernel) (now : RtcDate) (page : Option Page) :
    Except Halt (Option Slot × Kernel) := do
  let k ← k.acquire
  match k.proc.findUnused with
  | none =>
    let k ← k.release
    return (none, k)
  | some p =>
    let k := { k.setProc p ((k.proc p).alloc now k.nextpid) with nextpid := int (k.nextpid + 1) }
    let k ← k.release
    match page with
    | none => return (none, k.setProc p { k.proc p with kstack := none, state := .unused })
    | some g => return (some p, k.setProc p { k.proc p with kstack := some g })

/-- `sleep(chan, &ptable.lock)`. -/
def sleep (k : Kernel) (cur : Slot) (chan : Option Chan) (now : RtcDate)
    (meanwhile : Option (Table → Table)) : Except Halt Kernel := do
  let k := k.setProc cur { k.proc cur with chan := chan, state := .sleeping }
  let k ← k.sched cur now meanwhile
  return k.setProc cur { k.proc cur with chan := none }

/-- One pass of `wait` over the table: the result it returns, or `none` if it has to sleep. -/
def waitScan (k : Kernel) (cur : Slot) (status : ℕ) : Option (ℤ × Kernel) :=
  match k.proc.zombieChild cur with
  | some p =>
    let x := k.proc p
    some (x.pid, { k.setProc p x.reaped with mem := storeInt k.mem status x.exitstatus })
  | none => if ¬k.proc.havekids cur ∨ (k.proc cur).killed then some (-1, k) else none

/-- The loop of `wait`, entered with the lock held. -/
def waitLoop (cur : Slot) (status : ℕ) (now : RtcDate) :
    Meanwhile → Kernel → Except Halt (ℤ × Kernel)
  | meanwhile, k =>
    match k.waitScan cur status with
    | some (r, k) => do
      let k ← k.release
      return (r, k)
    | none =>
      match meanwhile with
      | [] => do
        let _ ← k.sleep cur (some (.proc cur)) now none
        .error .switchedOut
      | f :: meanwhile => do
        let k ← k.sleep cur (some (.proc cur)) now (some f)
        waitLoop cur status now meanwhile k

def wait (k : Kernel) (cur : Slot) (status : ℕ) (now : RtcDate) (meanwhile : Meanwhile) :
    Except Halt (ℤ × Kernel) := do
  let k ← k.acquire
  waitLoop cur status now meanwhile k

def kill (k : Kernel) (pid : ℤ) : Except Halt (ℤ × Kernel) := do
  let k ← k.acquire
  match k.proc.findPid pid with
  | some p =>
    let k ← release (k.setProc p (k.proc p).kill)
    return (0, k)
  | none =>
    let k ← k.release
    return (-1, k)

def wakeup (k : Kernel) (chan : Option Chan) : Except Halt Kernel := do
  let k ← k.acquire
  release { k with proc := wakeup1 k.proc chan }

def yield (k : Kernel) (cur : Slot) (now : RtcDate) (meanwhile : Option (Table → Table)) :
    Except Halt Kernel := do
  let k ← k.acquire
  let k := k.setProc cur { k.proc cur with state := .runnable }
  let k ← k.sched cur now meanwhile
  k.release

/-! ### The routines that print -/

/-- What `psinfo` prints for a slot: the name, filled up to 20 columns, the pid and the state. -/
def psText (x : Proc) : String :=
  if x.pid = 0 then ""
  else String.ofList (x.name.1 ++ List.replicate (20 - x.name.1.length) ' ') ++ toString x.pid ++
    "  " ++ stateText x.state

def psinfo (k : Kernel) : Except Halt (ℤ × Kernel) := do
  let k ← k.acquire
  let k := k.printEach psText
  let k ← k.release
  return (0, k)

def memText (processid : ℤ) (x : Proc) : String :=
  if x.pid = processid then "Memory allocated: " ++ toString x.memAllocated ++ " \n" else ""

def memAlloc (k : Kernel) (processid : ℤ) : Except Halt (ℤ × Kernel) := do
  let k ← k.acquire
  let k := k.printEach (memText processid)
  let k ← k.release
  return (0, k)

def numOpenFiles (k : Kernel) (processid : ℤ) : Except Halt (ℤ × Kernel) := do
  let k ← k.acquire
  let nof := k.proc.openFiles processid
  let k ← k.release
  return (0, k.cprintf ("Number of files opened: " ++ toString nof ++ "\n"))

/-- The loop of `getprocesstimedetails`; `false` when a `return` inside it is taken. -/
def timeLoop (processid : ℤ) : List Slot → Kernel → Bool × Kernel
  | [], k => (true, k)
  | p :: ps, k =>
    if (k.proc p).pid = processid then
      if (k.proc p).ZeroYear then (false, k) else timeLoop processid ps (k.cprintf (k.proc p).times)
    else
      timeLoop processid ps k

def getprocesstimedetails (k : Kernel) (processid : ℤ) : Except Halt (ℤ × Kernel) := do
  let k ← k.acquire
  match timeLoop processid (List.finRange NPROC) k with
  | (false, k) => return (-1, k)
  | (true, k) =>
    let k ← k.release
    return (0, k)

end Kernel

/-! ### Calls -/

inductive Call where
  | allocproc (now : RtcDate) (page : Option Page)
  | wait (cur : Slot) (status : ℕ) (now : RtcDate) (meanwhile : Meanwhile)
  | kill (pid : ℤ)
  | wakeup (chan : Option Chan)
  | yield (cur : Slot) (now : RtcDate) (meanwhile : Option (Table → Table))
  | psinfo
  | memAlloc (processid : ℤ)
  | numOpenFiles (processid : ℤ)
  | getprocesstimedetails (processid : ℤ)

def Kernel.call (k : Kernel) : Call → Except Halt Kernel
  | .allocproc now page => Prod.snd <$> k.allocproc now page
  | .wait cur status now meanwhile => Prod.snd <$> k.wait cur status now meanwhile
  | .kill pid => Prod.snd <$> k.kill pid
  | .wakeup chan => k.wakeup chan
  | .yield cur now meanwhile => k.yield cur now meanwhile
  | .psinfo => Prod.snd <$> k.psinfo
  | .memAlloc processid => Prod.snd <$> k.memAlloc processid
  | .numOpenFiles processid => Prod.snd <$> k.numOpenFiles processid
  | .getprocesstimedetails processid => Prod.snd <$> k.getprocesstimedetails processid

/-- The calls that leave the CPU need not come back. -/
def Call.Blocks : Call → Prop
  | .wait .. | .yield .. => True
  | _ => False

/-- The calls that return from inside the loop over the table. -/
def Call.KeepsLock (t : Table) : Call → Prop
  | .getprocesstimedetails processid => ∃ p, (t p).pid = processid ∧ (t p).ZeroYear
  | _ => False

/-- The ways in which a call made in `k` may fail to return: it leaves the CPU for good, or `sched`
finds that the caller holds another lock. -/
def Call.MayHalt (k : Kernel) (a : Call) (h : Halt) : Prop :=
  a.Blocks ∧ (h = .switchedOut ∨ h = .panic "sched locks" ∧ k.ncli ≠ 0)

/-! ### The lock along each routine -/

namespace Kernel

variable {k : Kernel} {allowed : Halt → Prop} {n : ℕ} {cur : Slot} {now : RtcDate} {status : ℕ}
  {processid : ℤ}
  {meanwhile : Option (Table → Table)}

/-- The lock is held, and `ncli` counts it on top of `n`. -/
def Holds (n : ℕ) (k : Kernel) : Prop := k.locked = true ∧ k.ncli = n + 1

theorem acquire_spec (h : k.locked = false) :
    Ensures allowed k.acquire fun k' => Holds k.ncli k' ∧ k'.proc = k.proc := by
  unfold acquire
  rw [h]
  exact .ok ⟨⟨rfl, rfl⟩, rfl⟩

theorem release_spec (h : Holds n k) : Ensures allowed k.release fun k' => k'.locked = false := by
  unfold release
  rw [if_neg (by rw [h.1]; exact not_not_intro rfl), if_neg (by rw [h.2]; exact Nat.succ_ne_zero n)]
  exact .ok rfl

theorem Holds.setProc (h : Holds n k) (p : Slot) (x : Proc) : Holds n (k.setProc p x) := h

theorem Holds.cprintf (h : Holds n k) (s : String) : Holds n (k.cprintf s) := h

/-- A caller of `sched` that comes back holds the lock again. -/
theorem sched_spec (h : Holds n k) (hstate : (k.proc cur).state ≠ .running) :
    Ensures (fun e => e = .switchedOut ∨ e = .panic "sched locks" ∧ n ≠ 0)
      (k.sched cur now meanwhile) (Holds n) := by
  unfold sched
  rw [if_neg (by rw [h.1]; exact not_not_intro rfl)]
  refine .ite (fun hncli => ?_) fun _ => ?_
  · refine .error (.inr ⟨rfl, fun hn => hncli ?_⟩)
    rw [h.2, hn]
  · rw [if_neg hstate]
    cases meanwhile with
    | none => exact .error (.inl rfl)
    | some f => exact .ok h

theorem allocproc_spec (h : k.locked = false) {page : Option Page} :
    Ensures allowed (k.allocproc now page) fun r => r.2.locked = false := by
  unfold allocproc
  refine (acquire_spec h).bind fun k₁ hk₁ => ?_
  cases k₁.proc.findUnused with
  | none => exact (release_spec hk₁.1).bind fun k₂ hk₂ => .ok hk₂
  | some p =>
    refine (release_spec (n := k.ncli) ?_).bind fun k₂ hk₂ => ?_
    · exact hk₁.1
    · cases page with
      | none => exact .ok hk₂
      | some g => exact .ok hk₂

theorem sleep_spec (h : Holds n k) {chan : Option Chan} :
    Ensures (fun e => e = .switchedOut ∨ e = .panic "sched locks" ∧ n ≠ 0)
      (k.sleep cur chan now meanwhile) (Holds n) := by
  unfold sleep
  refine (sched_spec (h.setProc cur _) ?_).bind fun k' hk' => .ok (hk'.setProc cur _)
  simp [setProc]

theorem Holds.waitScan (h : Holds n k) {r : ℤ} {k' : Kernel}
    (hscan : k.waitScan cur status = some (r, k')) : Holds n k' := by
  unfold Kernel.waitScan at hscan
  split at hscan
  · cases hscan
    exact h
  · split at hscan
    · cases hscan
      exact h
    · cases hscan

theorem waitLoop_spec (meanwhile : Meanwhile) (h : Holds n k) :
    Ensures (fun e => e = .switchedOut ∨ e = .panic "sched locks" ∧ n ≠ 0)
      (waitLoop cur status now meanwhile k) fun r => r.2.locked = false := by
  induction meanwhile generalizing k with
  | nil =>
    unfold waitLoop
    cases hscan : k.waitScan cur status with
    | some r => exact (release_spec (h.waitScan hscan)).bind fun k' hk' => .ok hk'
    | none => exact (sleep_spec h).bind fun k' _ => .error (.inl rfl)
  | cons f meanwhile ih =>
    unfold waitLoop
    cases hscan : k.waitScan cur status with
    | some r => exact (release_spec (h.waitScan hscan)).bind fun k' hk' => .ok hk'
    | none => exact (sleep_spec h).bind fun k' hk' => ih hk'

theorem wait_spec (h : k.locked = false) {meanwhile : Meanwhile} :
    Ensures (fun e => e = .switchedOut ∨ e = .panic "sched locks" ∧ k.ncli ≠ 0)
      (k.wait cur status now meanwhile) fun r => r.2.locked = false :=
  (acquire_spec h).bind fun _ hk => waitLoop_spec meanwhile hk.1

theorem kill_spec (h : k.locked = false) {pid : ℤ} :
    Ensures allowed (k.kill pid) fun r => r.2.locked = false := by
  unfold kill
  refine (acquire_spec h).bind fun k₁ hk₁ => ?_
  cases k₁.proc.findPid pid with
  | none => exact (release_spec hk₁.1).bind fun k₂ hk₂ => .ok hk₂
  | some p => exact (release_spec (hk₁.1.setProc p _)).bind fun k₂ hk₂ => .ok hk₂

theorem wakeup_spec (h : k.locked = false) {chan : Option Chan} :
    Ensures allowed (k.wakeup chan) fun k' => k'.locked = false :=
  (acquire_spec h).bind fun _ hk => release_spec (n := k.ncli) hk.1

theorem yield_spec (h : k.locked = false) :
    Ensures (fun e => e = .switchedOut ∨ e = .panic "sched locks" ∧ k.ncli ≠ 0)
      (k.yield cur now meanwhile) fun k' => k'.locked = false := by
  unfold yield
  refine (acquire_spec h).bind fun k₁ hk₁ => ?_
  refine (sched_spec (hk₁.1.setProc cur _) ?_).bind fun k₂ hk₂ => release_spec hk₂
  simp [setProc]

theorem Holds.printEach (h : Holds n k) (text : Proc → String) : Holds n (k.printEach text) := by
  unfold Kernel.printEach
  generalize List.finRange NPROC = ps
  induction ps generalizing k with
  | nil => exact h
  | cons p ps ih => exact ih (h.cprintf _)

theorem psinfo_spec (h : k.locked = false) : Ensures allowed k.psinfo fun r => r.2.locked = false :=
  (acquire_spec h).bind fun _ hk =>
    (release_spec (hk.1.printEach psText)).bind fun _ hk' => .ok hk'

theorem memAlloc_spec (h : k.locked = false) :
    Ensures allowed (k.memAlloc processid) fun r => r.2.locked = false :=
  (acquire_spec h).bind fun _ hk =>
    (release_spec (hk.1.printEach (memText processid))).bind fun _ hk' => .ok hk'

theorem numOpenFiles_spec (h : k.locked = false) :
    Ensures allowed (k.numOpenFiles processid) fun r => r.2.locked = false :=
  (acquire_spec h).bind fun _ hk => (release_spec hk.1).bind fun _ hk' => .ok hk'

/-- The loop keeps the lock, and is left early just if it meets a process with a zero year. -/
theorem timeLoop_spec (processid : ℤ) (ps : List Slot) (h : Holds n k) :
    Holds n (timeLoop processid ps k).2 ∧
      ((timeLoop processid ps k).1 = false ↔
        ∃ p ∈ ps, (k.proc p).pid = processid ∧ (k.proc p).ZeroYear) := by
  induction ps generalizing k with
  | nil => exact ⟨h, by simp [timeLoop]⟩
  | cons p ps ih =>
    unfold timeLoop
    by_cases hpid : (k.proc p).pid = processid
    · rw [if_pos hpid]
      by_cases hzero : (k.proc p).ZeroYear
      · rw [if_pos hzero]
        exact ⟨h, iff_of_true rfl ⟨p, List.mem_cons_self, hpid, hzero⟩⟩
      · rw [if_neg hzero]
        refine ⟨(ih (h.cprintf _)).1, (ih (h.cprintf _)).2.trans ?_⟩
        rw [List.exists_mem_cons_iff, or_iff_right fun hp => hzero hp.2]
        rfl
    · rw [if_neg hpid]
      refine ⟨(ih h).1, (ih h).2.trans ?_⟩
      rw [List.exists_mem_cons_iff, or_iff_right fun hp => hpid hp.1]

/-- It returns, and still holds the lock just if it left the loop early. -/
theorem getprocesstimedetails_spec (h : k.locked = false) :
    Ensures allowed (k.getprocesstimedetails processid) fun r =>
      (r.2.locked = true ↔ ∃ p, (k.proc p).pid = processid ∧ (k.proc p).ZeroYear) := by
  unfold getprocesstimedetails
  refine (acquire_spec h).bind fun k₁ hk₁ => ?_
  obtain ⟨hholds, hearly⟩ := timeLoop_spec processid (List.finRange NPROC) hk₁.1
  simp only [List.mem_finRange, true_and, hk₁.2] at hearly
  rcases hloop : timeLoop processid (List.finRange NPROC) k₁ with ⟨_ | _, k₂⟩
  · rw [hloop] at hholds hearly
    exact .ok (iff_of_true hholds.1 (hearly.mp rfl))
  · rw [hloop] at hholds hearly
    refine (release_spec hholds).bind fun k₃ hk₃ => .ok (iff_of_false ?_ ?_)
    · rw [hk₃]
      exact Bool.false_ne_true
    · intro hex
      cases hearly.mpr hex

end Kernel

/-! ### Every call gives the lock back, but one -/

/-- A call made without the lock returns without it, unless it is `getprocesstimedetails` on a
process with a zero year. -/
theorem call_unlocked {k : Kernel} (h : k.locked = false) (a : Call)
    (hkeeps : ¬a.KeepsLock k.proc) :
    Ensures (a.MayHalt k) (k.call a) fun k' => k'.locked = false := by
  cases a with
  | allocproc now page => exact .map (Kernel.allocproc_spec h)
  | wait cur status now meanwhile =>
    exact .map ((Kernel.wait_spec h).weaken fun e he => ⟨trivial, he⟩)
  | kill pid => exact .map (Kernel.kill_spec h)
  | wakeup chan => exact Kernel.wakeup_spec h
  | yield cur now meanwhile => exact (Kernel.yield_spec h).weaken fun e he => ⟨trivial, he⟩
  | psinfo => exact .map (Kernel.psinfo_spec h)
  | memAlloc processid => exact .map (Kernel.memAlloc_spec h)
  | numOpenFiles processid => exact .map (Kernel.numOpenFiles_spec h)
  | getprocesstimedetails processid =>
    refine .map ((Kernel.getprocesstimedetails_spec h).mono fun r hr => ?_)
    exact Bool.eq_false_iff.mpr fun hlocked => hkeeps (hr.mp hlocked)

/-- `getprocesstimedetails` on a slot that was never used leaves the lock held. -/
theorem locked_zeroYear :
    ∃ k', Kernel.call ⟨false, 0, fun _ => .zeroed, 1, "", fun _ => 0, 0⟩
      (.getprocesstimedetails 0) = .ok k' ∧ k'.locked = true :=
  ⟨_, rfl, rfl⟩

/-- **Every routine gives the lock back, but one.** A call made without the lock returns without it
(or, where it can block, leaves the CPU for good) just if it is not `getprocesstimedetails` on a pid
that some slot with a zero year has. -/
theorem returns_unlocked (k : Kernel) (h : k.locked = false) (a : Call) :
    Ensures (a.MayHalt k) (k.call a) (fun k' => k'.locked = false) ↔ ¬a.KeepsLock k.proc := by
  refine ⟨fun hcall hkeeps => ?_, call_unlocked h a⟩
  cases a with
  | getprocesstimedetails processid =>
    have hspec : Ensures (fun _ => False) (k.getprocesstimedetails processid) fun r =>
        (r.2.locked = true ↔ ∃ p, (k.proc p).pid = processid ∧ (k.proc p).ZeroYear) :=
      Kernel.getprocesstimedetails_spec h
    rcases hres : k.getprocesstimedetails processid with e | r
    · exact hspec.of_eq_error hres
    · have hunlocked : r.2.locked = false := hcall.of_eq_ok (by rw [Kernel.call, hres]; rfl)
      rw [(hspec.of_eq_ok hres).mpr hkeeps] at hunlocked
      cases hunlocked
  | _ => exact hkeeps

/-- One process, which has been switched to and from. -/
def oneProcess : Kernel :=
  ⟨false, 0, Function.update (fun _ => .zeroed) 3 { Proc.zeroed with
    pid := 7
    state := .runnable
    processCreationDateTime := ⟨0, 30, 9, 1, 3, 2024⟩
    processLastContextSwitchedOutDateTime := ⟨2, 30, 9, 1, 3, 2024⟩
    processLastContextSwitchedInDateTime := ⟨1, 30, 9, 1, 3, 2024⟩ }, 8, "", fun _ => 0, 0⟩

theorem returns_unlocked_times :
    Ensures (Call.MayHalt oneProcess (.getprocesstimedetails 7))
      (oneProcess.call (.getprocesstimedetails 7)) (fun k' => k'.locked = false) := by
  refine (returns_unlocked oneProcess rfl (.getprocesstimedetails 7)).mpr ?_
  show ¬ ∃ p, (oneProcess.proc p).pid = 7 ∧ (oneProcess.proc p).ZeroYear
  decide

end Xv6.Ptable
