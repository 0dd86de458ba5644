import Assignments.Xv6.ProcTable
import Assignments.Framework.Run

/-!
# CPUs, processes and `ptable.lock`

The processes of the table under any number of CPUs. A CPU is in its scheduler or executes a
process; the steps are the critical sections of `ptable.lock` and the pieces of `fork` and `exit`
between them, each taken by one CPU, in any order. Three things of `proc.c` need care:

* `swtch`. The scheduler takes the lock, switches to a process and has the lock back when the
  process switches back; the process gives the lock up and takes it again. So a CPU that holds the
  lock is in its scheduler (`Cpu.scan`, `Cpu.back`) or executes a process that has not yet left the
  section it was switched out in (`Thread.resume`).
* `fork` and `exit` work without the lock between their sections (`Phase`), and a timer interrupt
  may take the CPU from them there.
* Kernel stacks and page directories are pages: `owner` says what each page is in use for. `kalloc`
  gives a page that is free or fails.

`trace` records what has happened: which pids were given out, who forked whom, the calls of `exit`
and what `wait` returned. Routines that only read the table are not steps.

`next` is the step function, one action of one CPU; `next_step` says once what a step can do.
-/

namespace Xv6.Ptable

open Framework Function Option

/-- Where a process continues that was switched out. It holds `ptable.lock` there. -/
inductive Resume where
  | forkret
  | yield
  | sleep
  | wait
deriving DecidableEq, Repr

/-- What a process is in the middle of outside the critical sections. -/
inductive Phase where
  /-- It runs user code, or a system call other than those below. -/
  | user
  /-- `fork`, with the slot of the child taken, before `kalloc` in `allocproc`. -/
  | forkStack (np : Slot)
  /-- `fork`, before `copyuvm`. -/
  | forkCopy (np : Slot)
  /-- `fork`, before the child becomes `RUNNABLE`. -/
  | forkEnd (np : Slot)
  /-- `exit`, before the descriptor `fd` is closed. -/
  | exiting (fd : ℕ)
deriving DecidableEq, Repr

/-- The slot that a `fork` in progress has taken. -/
def Phase.child : Phase → Option Slot
  | .forkStack np | .forkCopy np | .forkEnd np => some np
  | .user | .exiting _ => none

structure Thread where
  phase : Phase
  /-- Where it continues, from the moment it is switched out until it has released the lock. -/
  resume : Option Resume
deriving DecidableEq, Repr

/-- What a CPU executes. -/
inductive Cpu where
  /-- The scheduler, before it takes the lock. -/
  | idle
  /-- The loop of the scheduler, before slot `k`. -/
  | scan (k : ℕ)
  /-- The process `p`, which the loop of the scheduler has switched to. -/
  | process (p : Slot)
  /-- The scheduler, back from the process `p`. -/
  | back (p : Slot)
deriving DecidableEq, Repr

/-- `c->proc`: the scheduler sets it before it switches to the process and clears it when it is
back. -/
def Cpu.proc : Cpu → Option Slot
  | .idle | .scan _ => none
  | .process p | .back p => some p

/-- What a page is in use for. -/
inductive Use where
  | kstack (p : Slot)
  | pgdir (p : Slot)
deriving DecidableEq, Repr

/-- What has happened, by pids. -/
inductive Event where
  /-- `allocproc` gave out the pid. -/
  | created (pid : ℤ)
  /-- `fork` in `parent` has made `child`. -/
  | forked (parent child : ℤ)
  /-- The process called `exit(status)`. -/
  | exited (pid status : ℤ)
  /-- `wait` in `parent` returned `child` and stored `status`. -/
  | waited (parent child status : ℤ)
deriving DecidableEq, Repr

structure Machine (κ : Type) where
  proc : Table
  nextpid : ℤ
  /-- The CPU that holds `ptable.lock`. -/
  lock : Option κ
  cpu : κ → Cpu
  thread : Slot → Thread
  owner : Page → Option Use
  /-- The latest event first. -/
  trace : List Event

/-- One action of a CPU. -/
inductive Act where
  /-- `scheduler`: `acquire`. -/
  | acquire
  /-- `scheduler`: one round of the loop, or its end and `release`. -/
  | scan (now : RtcDate)
  /-- `scheduler`: `c->proc = 0`. -/
  | back
  /-- The process that was switched to goes on. -/
  | resume (now : RtcDate)
  | yield (now : RtcDate)
  /-- `sleep` with another lock than `ptable.lock`. -/
  | sleep (chan : Option Chan) (now : RtcDate)
  | wakeup (chan : Option Chan)
  | kill (pid : ℤ)
  | fork (now : RtcDate)
  | forkStack (page : Option Page)
  | forkCopy (page : Option Page)
  | forkEnd
  | exit (status : ℤ)
  | exitClose
  | exitEnd (now : RtcDate)
  | wait (now : RtcDate)
  /-- An `exec` that succeeds. -/
  | exec (pgdir : Page) (sz : ℕ) (name : Name)
  | growproc (n : ℤ) (enough : Bool)
  /-- A system call of the process changes one of its descriptors. -/
  | setFile (fd : Fin NOFILE) (f : Option ℕ)

namespace Machine

variable {κ : Type} [DecidableEq κ]

/-! ### The parts of a step -/

def setProc (m : Machine κ) (p : Slot) (x : Proc) : Machine κ :=
  { m with proc := update m.proc p x }

def setPhase (m : Machine κ) (p : Slot) (phase : Phase) : Machine κ :=
  { m with thread := update m.thread p { m.thread p with phase := phase } }

def setOwner (m : Machine κ) (g : Page) (use : Option Use) : Machine κ :=
  { m with owner := update m.owner g use }

def record (m : Machine κ) (e : Event) : Machine κ := { m with trace := e :: m.trace }

/-- The process on CPU `c`, if it executes one that is not about to release the lock. -/
def current (m : Machine κ) (c : κ) : Option Slot :=
  match m.cpu c with
  | .process p => if (m.thread p).resume = none then some p else none
  | _ => none

/-- The scheduler of `c` switches to `p`. -/
def switchTo (m : Machine κ) (c : κ) (p : Slot) (now : RtcDate) : Machine κ :=
  { m.setProc p { m.proc p with
      processLastContextSwitchedInDateTime := now
      state := .running } with
    cpu := update m.cpu c (.process p) }

/-- `sched`, in the process `p` on `c`, in a section that continues at `r`. -/
def sched (m : Machine κ) (c : κ) (p : Slot) (r : Option Resume) (now : RtcDate) : Machine κ :=
  { m.setProc p { m.proc p with processLastContextSwitchedOutDateTime := now } with
    lock := some c
    cpu := update m.cpu c (.back p)
    thread := update m.thread p { m.thread p with resume := r } }

/-- The process `p` leaves the section it was switched out in. -/
def release (m : Machine κ) (p : Slot) : Machine κ :=
  { m with
    lock := none
    thread := update m.thread p { m.thread p with resume := none } }

/-- The part of `wait` that frees the child `q` of `p`, whose pages are `g` and `d`. -/
def reap (m : Machine κ) (p q : Slot) (g d : Page) : Machine κ :=
  (((m.setProc q (m.proc q).reaped).setOwner g none).setOwner d none).record
    (.waited (m.proc p).pid (m.proc q).pid (m.proc q).exitstatus)

/-- One pass of `wait` in `p` over the table, which it leaves by `release` or by `sched`. -/
def waitPass (m : Machine κ) (c : κ) (p : Slot) (now : RtcDate) : Option (Machine κ) :=
  match m.proc.zombieChild p with
  | some q =>
    match (m.proc q).kstack, (m.proc q).pgdir with
    | some g, some d => some ((m.reap p q g d).release p)
    | _, _ => none
  | none =>
    if ¬m.proc.havekids p ∨ (m.proc p).killed then some (m.release p)
    else some ((m.setProc p
      { m.proc p with chan := some (.proc p), state := .sleeping }).sched c p (some .wait) now)

/-- `allocproc` in `fork` of `p`, up to `release`, with the slot `np`. -/
def alloc (m : Machine κ) (p np : Slot) (now : RtcDate) : Machine κ :=
  { ((m.setProc np ((m.proc np).alloc now m.nextpid)).setPhase p (.forkStack np)).record
      (.created m.nextpid) with
    nextpid := int (m.nextpid + 1) }

/-- The child gets a kernel stack, on which it will start in `forkret`. -/
def stack (m : Machine κ) (p np : Slot) (g : Page) : Machine κ :=
  { (m.setProc np { m.proc np with kstack := some g }).setOwner g (some (.kstack np)) with
    thread := update (update m.thread np ⟨.user, some .forkret⟩) p
      { m.thread p with phase := .forkCopy np } }

/-- The child gets a copy of the memory, and what else it inherits. -/
def copy (m : Machine κ) (p np : Slot) (d : Page) : Machine κ :=
  ((m.setProc np ((m.proc np).copy d p (m.proc p))).setOwner d (some (.pgdir np))).setPhase p
    (.forkEnd np)

/-! ### Steps -/

/-- One action of the CPU `c`. There is no result when the action is not possible, or panics. -/
def next (m : Machine κ) : κ × Act → Option (Machine κ)
  | (c, .acquire) =>
    if m.lock = none ∧ m.cpu c = .idle then
      some { m with lock := some c, cpu := update m.cpu c (.scan 0) }
    else none
  | (c, .scan now) =>
    match m.cpu c with
    | .scan k =>
      if h : k < NPROC then
        if (m.proc ⟨k, h⟩).state = .runnable then some (m.switchTo c ⟨k, h⟩ now)
        else some { m with cpu := update m.cpu c (.scan (k + 1)) }
      else
        some { m with lock := none, cpu := update m.cpu c .idle }
    | _ => none
  | (c, .back) =>
    match m.cpu c with
    | .back p => some { m with cpu := update m.cpu c (.scan (p + 1)) }
    | _ => none
  | (c, .resume now) =>
    match m.cpu c with
    | .process p =>
      if m.lock = some c then
        match (m.thread p).resume with
        | some .forkret => some (m.release p)
        | some .yield => some (m.release p)
        | some .sleep => some ((m.setProc p { m.proc p with chan := none }).release p)
        | some .wait => (m.setProc p { m.proc p with chan := none }).waitPass c p now
        | none => none
      else none
    | _ => none
  | (c, .yield now) => do
    let p ← m.current c
    if m.lock = none then
      some ((m.setProc p { m.proc p with state := .runnable }).sched c p (some .yield) now)
    else none
  | (c, .sleep chan now) => do
    let p ← m.current c
    match (m.thread p).phase with
    | .user | .exiting _ =>
      if m.lock = none then
        some ((m.setProc p { m.proc p with chan := chan, state := .sleeping }).sched c p
          (some .sleep) now)
      else none
    | _ => none
  | (_, .wakeup chan) =>
    if m.lock = none then some { m with proc := wakeup1 m.proc chan } else none
  | (c, .kill pid) => do
    let p ← m.current c
    if m.lock = none ∧ (m.thread p).phase = .user then some { m with proc := kill m.proc pid }
    else none
  | (c, .fork now) => do
    let p ← m.current c
    if m.lock = none ∧ (m.thread p).phase = .user then
      match m.proc.findUnused with
      | none => some m
      | some np => some (m.alloc p np now)
    else none
  | (c, .forkStack page) => do
    let p ← m.current c
    match (m.thread p).phase, page with
    | .forkStack np, none =>
      some ((m.setProc np { m.proc np with kstack := none, state := .unused }).setPhase p .user)
    | .forkStack np, some g => if m.owner g = none then some (m.stack p np g) else none
    | _, _ => none
  | (c, .forkCopy page) => do
    let p ← m.current c
    match (m.thread p).phase, page with
    | .forkCopy np, none =>
      match (m.proc np).kstack with
      | some g => some (((m.setProc np
          { m.proc np with pgdir := none, kstack := none, state := .unused }).setOwner
            g none).setPhase p .user)
      | none => none
    | .forkCopy np, some d => if m.owner d = none then some (m.copy p np d) else none
    | _, _ => none
  | (c, .forkEnd) => do
    let p ← m.current c
    match (m.thread p).phase with
    | .forkEnd np =>
      if m.lock = none then
        some (((m.setProc np { m.proc np with state := .runnable }).setPhase p .user).record
          (.forked (m.proc p).pid (m.proc np).pid))
      else none
    | _ => none
  | (c, .exit status) => do
    let p ← m.current c
    if (m.thread p).phase = .user ∧ p ≠ initproc then
      some (((m.setProc p { m.proc p with exitstatus := status }).setPhase p (.exiting 0)).record
        (.exited (m.proc p).pid status))
    else none
  | (c, .exitClose) => do
    let p ← m.current c
    match (m.thread p).phase with
    | .exiting fd =>
      if h : fd < NOFILE then
        some ((m.setProc p { m.proc p with
          ofile := update (m.proc p).ofile ⟨fd, h⟩ none }).setPhase p (.exiting (fd + 1)))
      else none
    | _ => none
  | (c, .exitEnd now) => do
    let p ← m.current c
    if m.lock = none ∧ (m.thread p).phase = .exiting NOFILE then
      some ({ m with proc := exitSection m.proc p }.sched c p none now)
    else none
  | (c, .wait now) => do
    let p ← m.current c
    if m.lock = none ∧ (m.thread p).phase = .user then m.waitPass c p now else none
  | (c, .exec d sz name) => do
    let p ← m.current c
    match (m.thread p).phase, (m.proc p).pgdir with
    | .user, some old =>
      if m.owner d = none then
        some (((m.setProc p { m.proc p with pgdir := some d, sz := sz, name := name }).setOwner old
          none).setOwner d (some (.pgdir p)))
      else none
    | _, _ => none
  | (c, .growproc n enough) => do
    let p ← m.current c
    if (m.thread p).phase = .user then
      match (m.proc p).growproc n enough with
      | none => some m
      | some x => some (m.setProc p x)
    else none
  | (c, .setFile fd f) => do
    let p ← m.current c
    if (m.thread p).phase = .user then
      some (m.setProc p { m.proc p with ofile := update (m.proc p).ofile fd f })
    else none

/-- The machine after `userinit`: the first process is ready to run, with the stack `g` and the
page directory `d`. -/
def boot (g d : Page) (now : RtcDate) : Machine κ where
  proc := update (fun _ => .zeroed) initproc
    { Proc.zeroed.alloc now 1 with
      kstack := some g
      pgdir := some d
      sz := PGSIZE
      name := ⟨"initcode".toList, by decide⟩
      state := .runnable }
  nextpid := 2
  lock := none
  cpu := fun _ => .idle
  thread := update (fun _ => ⟨.user, none⟩) initproc ⟨.user, some .forkret⟩
  owner := update (update (fun _ => none) g (some (.kstack initproc))) d
    (some (.pgdir initproc))
  trace := [.created 1]

/-! ### What a step can do -/

/-- The CPU `c` executes `p`, which is inside a section: it was switched out there and has been
switched to again, or it has just taken the lock. -/
def InSection (m : Machine κ) (c : κ) (p : Slot) : Prop :=
  m.cpu c = .process p ∧
    ((m.lock = some c ∧ (m.thread p).resume ≠ none) ∨
      (m.lock = none ∧ (m.thread p).resume = none))

/-- The CPU `c` executes `p` outside the sections. -/
def Executes (m : Machine κ) (c : κ) (p : Slot) : Prop :=
  m.cpu c = .process p ∧ (m.thread p).resume = none

/-- The steps, by what they do to the machine. -/
inductive Step (m : Machine κ) : Machine κ → Prop where
  | acquire {c : κ} (hlock : m.lock = none) (hcpu : m.cpu c = .idle) :
      Step m { m with lock := some c, cpu := update m.cpu c (.scan 0) }
  | skip {c : κ} {k : ℕ} (hcpu : m.cpu c = .scan k) :
      Step m { m with cpu := update m.cpu c (.scan (k + 1)) }
  | switchTo {c : κ} {p : Slot} (now : RtcDate) (hcpu : m.cpu c = .scan p)
      (hstate : (m.proc p).state = .runnable) : Step m (m.switchTo c p now)
  | leave {c : κ} {k : ℕ} (hcpu : m.cpu c = .scan k) :
      Step m { m with lock := none, cpu := update m.cpu c .idle }
  | back {c : κ} {p : Slot} (hcpu : m.cpu c = .back p) :
      Step m { m with cpu := update m.cpu c (.scan (p + 1)) }
  /-- A process leaves its section. -/
  | release {c : κ} {p : Slot} (chan : Option Chan) (hin : m.InSection c p) :
      Step m ((m.setProc p { m.proc p with chan := chan }).release p)
  /-- A process gives up the CPU in its section. -/
  | sched {c : κ} {p : Slot} (chan : Option Chan) (state : ProcState) (r : Resume) (now : RtcDate)
      (hin : m.InSection c p)
      (hkind : (r = .yield ∧ state = .runnable) ∨
        (r = .sleep ∧ state = .sleeping ∧
          ((m.thread p).phase = .user ∨ ∃ fd, (m.thread p).phase = .exiting fd)) ∨
        (r = .wait ∧ state = .sleeping ∧ chan = some (.proc p) ∧ m.proc.zombieChild p = none ∧
          ((m.thread p).phase = .user ∨ (m.thread p).resume = some .wait))) :
      Step m ((m.setProc p { m.proc p with chan := chan, state := state }).sched c p (some r) now)
  | reap {c : κ} {p q : Slot} {g d : Page} (chan : Option Chan) (hin : m.InSection c p)
      (hchild : m.proc.zombieChild p = some q) (hkstack : (m.proc q).kstack = some g)
      (hpgdir : (m.proc q).pgdir = some d) :
      Step m (((m.setProc p { m.proc p with chan := chan }).reap p q g d).release p)
  /-- `wakeup` and `kill`. -/
  | wake {t : Table} (hlock : m.lock = none)
      (h : ∀ p, Wakes { m.proc p with killed := (t p).killed } (t p)) : Step m { m with proc := t }
  | alloc {c : κ} {p np : Slot} (now : RtcDate) (hexec : m.Executes c p) (hlock : m.lock = none)
      (hphase : (m.thread p).phase = .user) (hnp : (m.proc np).state = .unused) :
      Step m (m.alloc p np now)
  | stackFails {c : κ} {p np : Slot} (hexec : m.Executes c p)
      (hphase : (m.thread p).phase = .forkStack np) :
      Step m ((m.setProc np { m.proc np with kstack := none, state := .unused }).setPhase p .user)
  | stack {c : κ} {p np : Slot} {g : Page} (hexec : m.Executes c p)
      (hphase : (m.thread p).phase = .forkStack np) (hfree : m.owner g = none) :
      Step m (m.stack p np g)
  | copyFails {c : κ} {p np : Slot} {g : Page} (hexec : m.Executes c p)
      (hphase : (m.thread p).phase = .forkCopy np) (hkstack : (m.proc np).kstack = some g) :
      Step m (((m.setProc np
        { m.proc np with pgdir := none, kstack := none, state := .unused }).setOwner
          g none).setPhase p .user)
  | copy {c : κ} {p np : Slot} {d : Page} (hexec : m.Executes c p)
      (hphase : (m.thread p).phase = .forkCopy np) (hfree : m.owner d = none) :
      Step m (m.copy p np d)
  | forkEnd {c : κ} {p np : Slot} (hexec : m.Executes c p) (hlock : m.lock = none)
      (hphase : (m.thread p).phase = .forkEnd np) :
      Step m (((m.setProc np { m.proc np with state := .runnable }).setPhase p .user).record
        (.forked (m.proc p).pid (m.proc np).pid))
  | exit {c : κ} {p : Slot} (status : ℤ) (hexec : m.Executes c p)
      (hphase : (m.thread p).phase = .user) (hinit : p ≠ initproc) :
      Step m (((m.setProc p { m.proc p with exitstatus := status }).setPhase p
        (.exiting 0)).record (.exited (m.proc p).pid status))
  | exitClose {c : κ} {p : Slot} {fd : Fin NOFILE} (hexec : m.Executes c p)
      (hphase : (m.thread p).phase = .exiting fd) :
      Step m ((m.setProc p { m.proc p with
        ofile := update (m.proc p).ofile fd none }).setPhase p (.exiting (fd + 1)))
  | exitEnd {c : κ} {p : Slot} (now : RtcDate) (hexec : m.Executes c p) (hlock : m.lock = none)
      (hphase : (m.thread p).phase = .exiting NOFILE) :
      Step m ({ m with proc := exitSection m.proc p }.sched c p none now)
  | exec {c : κ} {p : Slot} {old d : Page} (sz : ℕ) (name : Name) (hexec : m.Executes c p)
      (hphase : (m.thread p).phase = .user) (hpgdir : (m.proc p).pgdir = some old)
      (hfree : m.owner d = none) :
      Step m (((m.setProc p { m.proc p with pgdir := some d, sz := sz, name := name }).setOwner old
        none).setOwner d (some (.pgdir p)))
  /-- `growproc`, and the system calls that change a descriptor. -/
  | own {c : κ} {p : Slot} (sz : ℕ) (heapSize : ℤ) (ofile : Fin NOFILE → Option ℕ)
      (hexec : m.Executes c p) (hphase : (m.thread p).phase = .user) :
      Step m (m.setProc p { m.proc p with sz := sz, heapSize := heapSize, ofile := ofile })
  | stutter : Step m m

section Inversion

variable {m m' : Machine κ} {c : κ} {p : Slot}

omit [DecidableEq κ] in
theorem setProc_self (m : Machine κ) (p : Slot) : m.setProc p (m.proc p) = m := by
  unfold setProc
  rw [update_eq_self]

omit [DecidableEq κ] in
theorem current_eq_some (h : m.current c = some p) : m.Executes c p := by
  unfold current at h
  split at h
  · next p' hcpu =>
    split at h
    · next hresume =>
      cases h
      exact ⟨hcpu, hresume⟩
    · cases h
  · cases h

omit [DecidableEq κ] in
theorem Executes.inSection (h : m.Executes c p) (hlock : m.lock = none) : m.InSection c p :=
  ⟨h.1, .inr ⟨hlock, h.2⟩⟩

/-- What a pass of `wait` can do, with what the process sleeps on set to `chan` before it. -/
theorem waitPass_cases (chan : Option Chan) (now : RtcDate)
    (h : (m.setProc p { m.proc p with chan := chan }).waitPass c p now = some m') :
    (∃ q g d, m.proc.zombieChild p = some q ∧ (m.proc q).kstack = some g ∧
      (m.proc q).pgdir = some d ∧
      m' = ((m.setProc p { m.proc p with chan := chan }).reap p q g d).release p) ∨
    m' = (m.setProc p { m.proc p with chan := chan }).release p ∨
    (m.proc.zombieChild p = none ∧
      m' = (m.setProc p { m.proc p with chan := some (.proc p), state := .sleeping }).sched c p
        (some .wait) now) := by
  have hrecord : ∀ q, (m.setProc p { m.proc p with chan := chan }).proc q =
      { m.proc q with chan := ((m.setProc p { m.proc p with chan := chan }).proc q).chan } := by
    intro q
    by_cases hq : q = p
    · subst hq
      simp [setProc]
    · simp [setProc, hq]
  have hchild : (m.setProc p { m.proc p with chan := chan }).proc.zombieChild p =
      m.proc.zombieChild p :=
    zombieChild_congr fun q => by
      rw [hrecord q]
      exact ⟨rfl, rfl⟩
  unfold waitPass at h
  rw [hchild] at h
  split at h
  · next q hq =>
    split at h
    · next g d hkstack hpgdir =>
      cases h
      rw [hrecord q] at hkstack hpgdir
      exact .inl ⟨q, g, d, hq, hkstack, hpgdir, rfl⟩
    · cases h
  · next hnone =>
    split at h
    · cases h
      exact .inr (.inl rfl)
    · cases h
      refine .inr (.inr ⟨hnone, ?_⟩)
      simp [setProc]

/-- A pass of `wait` is the beginning of the call, or what it does when it wakes up. Other ways to
go on after a switch only release the lock. -/
theorem next_waitPass {a : Act} {now : RtcDate} (ha : a = .wait now ∨ a = .resume now)
    (h : m.next (c, a) = some m') :
    ∃ p chan, m.InSection c p ∧ (m' = (m.setProc p { m.proc p with chan := chan }).release p ∨
      ((m.thread p).phase = .user ∨ (m.thread p).resume = some .wait) ∧
        (m.setProc p { m.proc p with chan := chan }).waitPass c p now = some m') := by
  rcases ha with rfl | rfl
  · obtain ⟨p, hp, h⟩ := bind_eq_some_iff.mp h
    obtain ⟨hc, h⟩ := ite_none_right_eq_some.mp h
    refine ⟨p, (m.proc p).chan, (current_eq_some hp).inSection hc.1, .inr ⟨.inl hc.2, ?_⟩⟩
    rw [setProc_self]
    exact h
  · dsimp only [next] at h
    split at h
    · next p hcpu =>
      obtain ⟨hlock, h⟩ := ite_none_right_eq_some.mp h
      have hin (hresume : (m.thread p).resume ≠ none) : m.InSection c p :=
        ⟨hcpu, .inl ⟨hlock, hresume⟩⟩
      split at h
      -- after `forkret` and `yield` the channel stays what it was
      · next hresume =>
        cases h
        refine ⟨p, (m.proc p).chan, hin (by simp [hresume]), .inl ?_⟩
        rw [setProc_self]
      · next hresume =>
        cases h
        refine ⟨p, (m.proc p).chan, hin (by simp [hresume]), .inl ?_⟩
        rw [setProc_self]
      · next hresume =>
        cases h
        exact ⟨p, none, hin (by simp [hresume]), .inl rfl⟩
      · next hresume => exact ⟨p, none, hin (by simp [hresume]), .inr ⟨.inr hresume, h⟩⟩
      · cases h
    · cases h

theorem waitPass_step {a : Act} {now : RtcDate} (ha : a = .wait now ∨ a = .resume now)
    (h : m.next (c, a) = some m') : Step m m' := by
  obtain ⟨p, chan, hin, rfl | ⟨hphase, hpass⟩⟩ := next_waitPass ha h
  · exact .release chan hin
  rcases waitPass_cases chan now hpass with ⟨q, g, d, hq, hkstack, hpgdir, rfl⟩ | rfl | ⟨hnone, rfl⟩
  · exact .reap chan hin hq hkstack hpgdir
  · exact .release chan hin
  · exact .sched _ _ .wait now hin (.inr (.inr ⟨rfl, rfl, rfl, hnone, hphase⟩))

/-- **What a step can do.** -/
theorem next_step {a : κ × Act} (h : m.next a = some m') : Step m m' := by
  obtain ⟨c, a⟩ := a
  cases a with
  | acquire =>
    obtain ⟨hc, ⟨⟩⟩ := ite_none_right_eq_some.mp h
    exact .acquire hc.1 hc.2
  | scan now =>
    dsimp only [next] at h
    split at h
    · next k hcpu =>
      split at h
      · split at h
        · next hstate =>
          cases h
          exact .switchTo now hcpu hstate
        · cases h
          exact .skip hcpu
      · cases h
        exact .leave hcpu
    · cases h
  | back =>
    dsimp only [next] at h
    split at h
    · next p hcpu =>
      cases h
      exact .back hcpu
    · cases h
  | resume now => exact waitPass_step (.inr rfl) h
  | yield now =>
    obtain ⟨p, hp, h⟩ := bind_eq_some_iff.mp h
    obtain ⟨hlock, ⟨⟩⟩ := ite_none_right_eq_some.mp h
    exact .sched (m.proc p).chan .runnable .yield now ((current_eq_some hp).inSection hlock)
      (.inl ⟨rfl, rfl⟩)
  | sleep chan now =>
    obtain ⟨p, hp, h⟩ := bind_eq_some_iff.mp h
    have hsleep (hphase : (m.thread p).phase = .user ∨ ∃ fd, (m.thread p).phase = .exiting fd)
        (hlock : m.lock = none) := Step.sched chan .sleeping .sleep now
      ((current_eq_some hp).inSection hlock) (.inr (.inl ⟨rfl, rfl, hphase⟩))
    dsimp only at h
    split at h
    · next hphase =>
      obtain ⟨hlock, ⟨⟩⟩ := ite_none_right_eq_some.mp h
      exact hsleep (.inl hphase) hlock
    · next fd hphase =>
      obtain ⟨hlock, ⟨⟩⟩ := ite_none_right_eq_some.mp h
      exact hsleep (.inr ⟨fd, hphase⟩) hlock
    · cases h
  | wakeup chan =>
    obtain ⟨hlock, ⟨⟩⟩ := ite_none_right_eq_some.mp h
    refine .wake hlock fun p => ?_
    have hwakes := wakeup1_wakes m.proc chan p
    have hkilled : ({ m.proc p with killed := (wakeup1 m.proc chan p).killed } : Proc) =
        m.proc p := by rw [hwakes.record]
    rwa [hkilled]
  | kill pid =>
    obtain ⟨p, hp, h⟩ := bind_eq_some_iff.mp h
    obtain ⟨hc, ⟨⟩⟩ := ite_none_right_eq_some.mp h
    exact .wake hc.1 (kill_wakes m.proc pid)
  | fork now =>
    obtain ⟨p, hp, h⟩ := bind_eq_some_iff.mp h
    obtain ⟨hc, h⟩ := ite_none_right_eq_some.mp h
    split at h
    · cases h
      exact .stutter
    · next np hnp =>
      cases h
      exact .alloc now (current_eq_some hp) hc.1 hc.2 (findUnused_eq_some hnp)
  | forkStack page =>
    obtain ⟨p, hp, h⟩ := bind_eq_some_iff.mp h
    dsimp only at h
    split at h
    · next np hphase _ =>
      cases h
      exact .stackFails (current_eq_some hp) hphase
    · next np g hphase _ =>
      obtain ⟨hfree, ⟨⟩⟩ := ite_none_right_eq_some.mp h
      exact .stack (current_eq_some hp) hphase hfree
    · cases h
  | forkCopy page =>
    obtain ⟨p, hp, h⟩ := bind_eq_some_iff.mp h
    dsimp only at h
    split at h
    · next np hphase _ =>
      split at h
      · next g hkstack =>
        cases h
        exact .copyFails (current_eq_some hp) hphase hkstack
      · cases h
    · next np d hphase _ =>
      obtain ⟨hfree, ⟨⟩⟩ := ite_none_right_eq_some.mp h
      exact .copy (current_eq_some hp) hphase hfree
    · cases h
  | forkEnd =>
    obtain ⟨p, hp, h⟩ := bind_eq_some_iff.mp h
    dsimp only at h
    split at h
    · next np hphase =>
      obtain ⟨hlock, ⟨⟩⟩ := ite_none_right_eq_some.mp h
      exact .forkEnd (current_eq_some hp) hlock hphase
    · cases h
  | exit status =>
    obtain ⟨p, hp, h⟩ := bind_eq_some_iff.mp h
    obtain ⟨hc, ⟨⟩⟩ := ite_none_right_eq_some.mp h
    exact .exit status (current_eq_some hp) hc.1 hc.2
  | exitClose =>
    obtain ⟨p, hp, h⟩ := bind_eq_some_iff.mp h
    dsimp only at h
    split at h
    · next fd hphase =>
      obtain ⟨hfd, ⟨⟩⟩ := dite_none_right_eq_some.mp h
      have hphase' : (m.thread p).phase = .exiting (Fin.mk fd hfd : ℕ) := hphase
      exact .exitClose (current_eq_some hp) hphase'
    · cases h
  | exitEnd now =>
    obtain ⟨p, hp, h⟩ := bind_eq_some_iff.mp h
    obtain ⟨hc, ⟨⟩⟩ := ite_none_right_eq_some.mp h
    exact .exitEnd now (current_eq_some hp) hc.1 hc.2
  | wait now => exact waitPass_step (.inl rfl) h
  | exec d sz name =>
    obtain ⟨p, hp, h⟩ := bind_eq_some_iff.mp h
    dsimp only at h
    split at h
    · next old hphase hpgdir =>
      obtain ⟨hfree, ⟨⟩⟩ := ite_none_right_eq_some.mp h
      exact .exec sz name (current_eq_some hp) hphase hpgdir hfree
    · cases h
  | growproc n enough =>
    obtain ⟨p, hp, h⟩ := bind_eq_some_iff.mp h
    obtain ⟨hphase, h⟩ := ite_none_right_eq_some.mp h
    split at h
    · cases h
      exact .stutter
    · next x hx =>
      cases h
      rw [growproc_eq_some hx]
      exact .own _ _ _ (current_eq_some hp) hphase
  | setFile fd f =>
    obtain ⟨p, hp, h⟩ := bind_eq_some_iff.mp h
    obtain ⟨hphase, ⟨⟩⟩ := ite_none_right_eq_some.mp h
    exact .own _ _ _ (current_eq_some hp) hphase

end Inversion

end Machine

end Xv6.Ptable
