import Assignments.Xv6.Machine

/-!
# `sleep` and `wakeup` lose no wakeup

The protocol of `sleep(chan, lk)` and `wakeup(chan)`, at the grain of the single lock operations and
writes. Processes run on any number of CPUs, over `ptable.lock` and any other spinlocks; `none` as a
lock stands for `ptable.lock`. In `sleep` the two cases of `lk` take different paths: with another
lock than `ptable.lock`, that one is taken first and `lk` is given up, and on the way back the
locks are changed again. `sched` leaves `ptable.lock` to the scheduler of the CPU, which gives it to
the process it switches to.

A condition over data that `lk` guards goes with one channel. What users of the pair have to keep to
is `Disciplined`: they sleep on the channel with `lk` held and the condition false, and who makes
the condition true has `lk` and wakes the channel before giving `lk` up. All else is unconstrained:
what else the processes do, on other channels and with other locks, who is killed, and in which
order the CPUs take their steps.

* `Inv` — while the condition is true and a process is asleep on the channel, or on its way to
  sleep with its mind made up, the one who made it true still has `lk` and has not called `wakeup`;
* `no_lost_wakeup` — so nobody sleeps on the channel with the condition true and the locks free.
-/

namespace Xv6.Wakeup

open Framework Function Option
open Ptable (Slot Chan Table ProcState RtcDate Cpu NPROC)

/-! ### Locks, processes and CPUs -/

/-- Where `sleep` is between `acquire(&ptable.lock)` and `sched()`. -/
inductive Pos (ι : Type) where
  /-- Before `release(lk)`. -/
  | release (l : ι)
  /-- Before `p->chan = chan`. -/
  | setChan (l : Option ι)
  /-- Before `p->state = SLEEPING`. -/
  | setState (l : Option ι)
  /-- Before `sched()`. -/
  | sched (l : Option ι)
deriving DecidableEq, Repr

/-- Who has `ptable.lock`, and where in its code. -/
inductive TableLock (κ ι : Type) where
  | free
  | scheduler (c : κ)
  /-- Code on the CPU `c` other than that of `sleep`. -/
  | code (c : κ)
  /-- The process `p` on `c`, in `sleep(chan, _)`. -/
  | sleep (c : κ) (p : Slot) (chan : Chan) (pos : Pos ι)
  /-- The process `p`, which the scheduler of `c` has switched to. -/
  | resumed (c : κ) (p : Slot)
  /-- The process `p` on `c`, in `sleep(_, l)`, before `release(&ptable.lock)`. -/
  | unlock (c : κ) (p : Slot) (l : ι)
deriving DecidableEq, Repr

/-- Who has another lock. -/
inductive Lock (κ : Type) where
  | free
  | code (c : κ)
  /-- The process `p` on `c` has called `sleep(chan, _)` with this lock. -/
  | sleep (c : κ) (p : Slot) (chan : Chan)
deriving DecidableEq, Repr

/-- Where a process continues that was switched out. -/
inductive Resume (ι : Type) where
  /-- In `yield` or `forkret`: it releases `ptable.lock`, and may then still have to take a lock
  again for `sleep`. -/
  | release (relock : Option ι)
  /-- In `sleep(_, l)`. -/
  | sleep (l : Option ι)
deriving DecidableEq, Repr

inductive Thread (ι : Type) where
  | code
  /-- In `sleep`, up to `sched()`. -/
  | sleep
  /-- In `sleep(_, l)`, before `acquire(l)`. -/
  | relock (l : ι)
  | switched (r : Resume ι)
deriving DecidableEq, Repr

structure System (κ ι σ : Type) where
  proc : Table
  /-- What the condition is about. -/
  data : σ
  table : TableLock κ ι
  lock : ι → Lock κ
  cpu : κ → Cpu
  /-- The depth of `pushcli`, which is the number of spinlocks that the CPU has. -/
  ncli : κ → ℕ
  thread : Slot → Thread ι
  /-- The condition was made true since `lk` was taken last. -/
  made : Bool
  /-- The one who has `lk` has woken the channel since. -/
  woken : Bool

/-- A channel, the lock that goes with it and the condition that is waited for. -/
structure Guarded (ι σ : Type) where
  chan : Chan
  lk : Option ι
  cond : σ → Bool

/-- The actions of a CPU. -/
inductive Act (ι σ : Type) where
  | acquire (l : Option ι)
  | release (l : Option ι)
  | write (data : σ)
  | wakeup1 (chan : Chan)
  | kill (pid : ℤ)
  /-- Another routine changes the table. Only `sleep` puts a process to sleep or sets `chan`. -/
  | change (t : Table)
  /-- The call of `sleep(chan, l)`. -/
  | sleep (chan : Chan) (l : Option ι)
  /-- `sleep(_, l)`: `acquire(&ptable.lock)`. -/
  | enter (l : ι)
  /-- The next thing that the process does that has `ptable.lock` in `sleep` or was switched to. -/
  | advance (now : RtcDate)
  /-- `sleep(_, l)`: `acquire(l)`. -/
  | relock
  /-- `yield` and `exit`: the process gives up the CPU in a section of `ptable.lock`. -/
  | sched (state : ProcState) (now : RtcDate)
  /-- `scheduler`: `acquire(&ptable.lock)`. -/
  | schedule
  /-- `scheduler`: one round of the loop, or its end and `release(&ptable.lock)`. -/
  | scan (now : RtcDate)
  /-- `scheduler`: back from `swtch`. -/
  | back

namespace System

variable {κ ι σ : Type}

section Step

variable [DecidableEq κ] [DecidableEq ι]

/-- The CPU `c` has `l` and executes code other than that of `sleep`. -/
def Has (m : System κ ι σ) (l : Option ι) (c : κ) : Prop :=
  match l with
  | none => m.table = .code c
  | some l => m.lock l = .code c

instance (m : System κ ι σ) (l : Option ι) (c : κ) : Decidable (m.Has l c) := by
  unfold Has
  split <;> infer_instance

def Free (m : System κ ι σ) (l : Option ι) : Prop :=
  match l with
  | none => m.table = .free
  | some l => m.lock l = .free

instance (m : System κ ι σ) (l : Option ι) : Decidable (m.Free l) := by
  unfold Free
  split <;> infer_instance

/-- The CPU can execute code: it is between two rounds of its scheduler, or a process is on it that
is not inside `sleep` or `sched`. -/
def runsCode (m : System κ ι σ) (c : κ) : Bool :=
  match m.cpu c with
  | .idle => true
  | .process p =>
    match m.thread p with
    | .code | .relock _ => true
    | .sleep | .switched _ => false
  | .scan _ | .back _ => false

def setProc (m : System κ ι σ) (p : Slot) (x : Ptable.Proc) : System κ ι σ :=
  { m with proc := update m.proc p x }

def setThread (m : System κ ι σ) (p : Slot) (t : Thread ι) : System κ ι σ :=
  { m with thread := update m.thread p t }

def pushcli (m : System κ ι σ) (c : κ) : System κ ι σ :=
  { m with ncli := update m.ncli c (m.ncli c + 1) }

def popcli (m : System κ ι σ) (c : κ) : System κ ι σ :=
  { m with ncli := update m.ncli c (m.ncli c - 1) }

def setLock (m : System κ ι σ) (l : ι) (x : Lock κ) : System κ ι σ :=
  { m with lock := update m.lock l x }

/-- Code on `c` has the lock `l`, from now on. -/
def take (m : System κ ι σ) (G : Guarded ι σ) (l : Option ι) (c : κ) : System κ ι σ :=
  { m with
    table := if l = none then .code c else m.table
    lock := match l with
      | none => m.lock
      | some l => update m.lock l (.code c)
    made := if l = G.lk then false else m.made
    woken := if l = G.lk then false else m.woken }

/-- `swtch` to the scheduler of `c`, at the end of `sched`. -/
def swtch (m : System κ ι σ) (c : κ) (p : Slot) (r : Resume ι) (now : RtcDate) : System κ ι σ :=
  { (m.setProc p { m.proc p with processLastContextSwitchedOutDateTime := now }).setThread p
      (.switched r) with
    table := .scheduler c
    cpu := update m.cpu c (.back p) }

/-- One action of the CPU `c`. There is no result when the action is not possible, or panics. -/
def next (G : Guarded ι σ) (m : System κ ι σ) : κ × Act ι σ → Option (System κ ι σ)
  | (c, .acquire l) =>
    if m.runsCode c ∧ m.Free l then some ((m.take G l c).pushcli c) else none
  | (c, .release none) =>
    if m.table = .code c then some ({ m with table := .free }.popcli c) else none
  | (c, .release (some l)) =>
    if m.lock l = .code c then some ((m.setLock l .free).popcli c) else none
  | (c, .write d) =>
    if m.runsCode c then some { m with data := d, made := m.made || (G.cond d && !G.cond m.data) }
    else none
  | (c, .wakeup1 chan) =>
    if m.table = .code c then
      some { m with
        proc := Ptable.wakeup1 m.proc (some chan)
        woken := m.woken || (chan = G.chan && m.Has G.lk c) }
    else none
  | (c, .kill pid) =>
    if m.table = .code c then some { m with proc := Ptable.kill m.proc pid } else none
  | (_, .change t) =>
    if ∀ p, (t p).chan = (m.proc p).chan ∧
        ((t p).state = .sleeping → (m.proc p).state = .sleeping) then
      some { m with proc := t }
    else none
  | (c, .sleep chan l) =>
    match m.cpu c with
    | .process p =>
      if m.thread p = .code ∧ m.Has l c then
        match l with
        | none => some ({ m with table := .sleep c p chan (.setChan none) }.setThread p .sleep)
        | some l => some ((m.setLock l (.sleep c p chan)).setThread p .sleep)
      else none
    | _ => none
  | (c, .enter l) =>
    match m.lock l with
    | .sleep c' p chan =>
      if c' = c ∧ m.table = .free then
        some ({ m with table := .sleep c p chan (.release l) }.pushcli c)
      else none
    | _ => none
  | (c, .advance now) =>
    match m.table with
    | .sleep c' p chan pos =>
      if c' = c then
        match pos with
        | .release l =>
          some (({ m with table := .sleep c p chan (.setChan (some l)) }.setLock l .free).popcli c)
        | .setChan l =>
          some ({ m with table := .sleep c p chan (.setState l) }.setProc p
            { m.proc p with chan := some chan })
        | .setState l =>
          some ({ m with table := .sleep c p chan (.sched l) }.setProc p
            { m.proc p with state := .sleeping })
        | .sched l => if m.ncli c = 1 then some (m.swtch c p (.sleep l) now) else none
      else none
    | .resumed c' p =>
      if c' = c then
        match m.thread p with
        | .switched (.release none) =>
          some (({ m with table := .free }.setThread p .code).popcli c)
        | .switched (.release (some l)) =>
          some (({ m with table := .free }.setThread p (.relock l)).popcli c)
        | .switched (.sleep none) =>
          some (((m.setProc p { m.proc p with chan := none }).setThread p .code).take G none c)
        | .switched (.sleep (some l)) =>
          some ({ m with table := .unlock c p l }.setProc p { m.proc p with chan := none })
        | _ => none
      else none
    | .unlock c' p l =>
      if c' = c then some (({ m with table := .free }.setThread p (.relock l)).popcli c) else none
    | _ => none
  | (c, .relock) =>
    match m.cpu c with
    | .process p =>
      match m.thread p with
      | .relock l =>
        if m.lock l = .free then some (((m.take G (some l) c).setThread p .code).pushcli c)
        else none
      | _ => none
    | _ => none
  | (c, .sched state now) =>
    match m.cpu c with
    | .process p =>
      if m.table = .code c ∧ (state = .runnable ∨ state = .zombie) ∧ m.ncli c = 1 then
        match m.thread p with
        | .code =>
          some ((m.setProc p { m.proc p with state := state }).swtch c p (.release none) now)
        | .relock l =>
          some ((m.setProc p { m.proc p with state := state }).swtch c p (.release (some l)) now)
        | _ => none
      else none
    | _ => none
  | (c, .schedule) =>
    if m.cpu c = .idle ∧ m.table = .free then
      some ({ m with table := .scheduler c, cpu := update m.cpu c (.scan 0) }.pushcli c)
    else none
  | (c, .scan now) =>
    match m.cpu c with
    | .scan k =>
      if m.table = .scheduler c then
        if h : k < NPROC then
          if (m.proc ⟨k, h⟩).state = .runnable then
            some ({ m with
              table := .resumed c ⟨k, h⟩
              cpu := update m.cpu c (.process ⟨k, h⟩) }.setProc ⟨k, h⟩
                { m.proc ⟨k, h⟩ with
                  processLastContextSwitchedInDateTime := now
                  state := .running })
          else some { m with cpu := update m.cpu c (.scan (k + 1)) }
        else
          some ({ m with table := .free, cpu := update m.cpu c .idle }.popcli c)
      else none
    | _ => none
  | (c, .back) =>
    match m.cpu c with
    | .back p => some { m with cpu := update m.cpu c (.scan (p + 1)) }
    | _ => none

/-! ### The discipline and the invariant -/

/-- What the users of the channel keep to. Who makes the condition true has `lk`; who gives `lk` up,
by `release`, `sleep` or `sched`, has woken the channel if it has made the condition true; and a
process sleeps on the channel with `lk`, when it has found the condition false. -/
def Disciplined (G : Guarded ι σ) (m : System κ ι σ) : κ × Act ι σ → Prop
  | (c, .write d) => G.cond d = true → G.cond m.data = true ∨ m.Has G.lk c
  | (_, .release l) => l = G.lk → m.made = true → m.woken = true
  | (_, .sched _ _) => G.lk = none → m.made = true → m.woken = true
  | (_, .sleep chan l) =>
    (chan = G.chan → l = G.lk ∧ G.cond m.data = false) ∧
      (l = G.lk → m.made = true → m.woken = true)
  | _ => True

instance (G : Guarded ι σ) (m : System κ ι σ) : (a : κ × Act ι σ) → Decidable (m.Disciplined G a)
  | (_, .write _) | (_, .release _) | (_, .sched _ _) | (_, .sleep _ _) => by
    unfold Disciplined; infer_instance
  | (_, .acquire _) | (_, .wakeup1 _) | (_, .kill _) | (_, .change _) | (_, .enter _)
  | (_, .advance _) | (_, .relock) | (_, .schedule) | (_, .scan _) | (_, .back) =>
    .isTrue trivial

end Step

/-- The process `p` is asleep on the channel. -/
def SleepsOn (m : System κ ι σ) (chan : Chan) (p : Slot) : Prop :=
  (m.proc p).state = .sleeping ∧ (m.proc p).chan = some chan

/-- The one who made the condition true has still to call `wakeup`. -/
def Pending (m : System κ ι σ) (G : Guarded ι σ) : Prop :=
  (∃ c, m.Has G.lk c) ∧ m.made = true ∧ m.woken = false

structure Inv (m : System κ ι σ) (G : Guarded ι σ) : Prop where
  asleep : ∀ p, m.SleepsOn G.chan p → G.cond m.data = true → m.Pending G
  falling : ∀ c p pos, m.table = .sleep c p G.chan pos → G.cond m.data = true → m.Pending G
  roused : ∀ c, m.Has G.lk c → m.woken = true →
    (∀ p, ¬m.SleepsOn G.chan p) ∧ ∀ c' p pos, m.table ≠ .sleep c' p G.chan pos
  calling : ∀ l c p, m.lock l = .sleep c p G.chan → G.lk = some l ∧ G.cond m.data = false
  entered : ∀ c p chan l, m.table = .sleep c p chan (.release l) → m.lock l = .sleep c p chan
  marked : ∀ c p chan l, m.table = .sleep c p chan (.setState l) → (m.proc p).chan = some chan

variable {G : Guarded ι σ} {m m' : System κ ι σ} {c : κ}

/-- What most steps do: they put nobody to sleep on the channel and leave the rest alone, but for
`ptable.lock`. -/
structure Keeps (G : Guarded ι σ) (m m' : System κ ι σ) : Prop where
  data : m'.data = m.data
  lock : m'.lock = m.lock
  made : m'.made = m.made
  woken : m'.woken = m.woken
  asleep : ∀ p, m'.SleepsOn G.chan p → m.SleepsOn G.chan p

theorem Inv.frame (h : m.Inv G) (hkeeps : Keeps G m m') (htable : m'.table = m.table)
    (hchan : ∀ p, (m'.proc p).chan = (m.proc p).chan) : m'.Inv G := by
  obtain ⟨hdata, hlock, hmade, hwoken, hquiet⟩ := hkeeps
  have hhas : ∀ c, m'.Has G.lk c ↔ m.Has G.lk c := by
    intro c
    unfold Has
    rw [hlock, htable]
  have hpending : m'.Pending G ↔ m.Pending G := by
    unfold Pending
    rw [hmade, hwoken, exists_congr hhas]
  constructor
  · intro p hp hcond
    exact hpending.mpr (h.asleep p (hquiet p hp) (hdata ▸ hcond))
  · intro c p pos hpos hcond
    exact hpending.mpr (h.falling c p pos (htable ▸ hpos) (hdata ▸ hcond))
  · intro c hc hw
    obtain ⟨hnone, htab⟩ := h.roused c ((hhas c).mp hc) (hwoken ▸ hw)
    exact ⟨fun p hp => hnone p (hquiet p hp), htable ▸ htab⟩
  · rw [hlock, hdata]
    exact h.calling
  · rw [hlock, htable]
    exact h.entered
  · intro c p chan l hpos
    rw [hchan]
    exact h.marked c p chan l (htable ▸ hpos)

/-- The invariant does not read what a CPU or a process is doing. -/
theorem Inv.of_eq (h : m.Inv G) (hproc : m'.proc = m.proc) (hdata : m'.data = m.data)
    (htable : m'.table = m.table) (hlock : m'.lock = m.lock) (hmade : m'.made = m.made)
    (hwoken : m'.woken = m.woken) : m'.Inv G :=
  h.frame ⟨hdata, hlock, hmade, hwoken, fun p hp => by rwa [SleepsOn, ← hproc]⟩ htable
    fun p => by rw [hproc]

/-- `ptable.lock` goes to someone who does not touch the condition, nor goes to sleep. -/
theorem Inv.setTable (h : m.Inv G) (hkeeps : Keeps G m m')
    (hgive : G.lk = none → m.made = true → m.woken = true ∨ ∀ c, m.table ≠ .code c)
    (hcode : ∀ c, m'.table ≠ .code c) (hsleep : ∀ c p chan pos, m'.table ≠ .sleep c p chan pos) :
    m'.Inv G := by
  obtain ⟨hdata, hlock, hmade, hwoken, hquiet⟩ := hkeeps
  obtain ⟨hasleep, hfalling, hroused, hcalling, hentered, hmarked⟩ := h
  obtain ⟨chan, lk, cond⟩ := G
  cases lk <;> constructor <;> simp only [Pending, Has, hlock, hdata] at * <;> grind -linarith

theorem Inv.kill (h : m.Inv G) (pid : ℤ) : Inv { m with proc := Ptable.kill m.proc pid } G := by
  have hrecord := fun p => (Ptable.kill_wakes m.proc pid p).record
  refine h.frame ⟨rfl, rfl, rfl, rfl, fun p hp => ?_⟩ rfl fun p => ?_
  · have hchan : (Ptable.kill m.proc pid p).chan = (m.proc p).chan := by rw [hrecord]
    exact ⟨(Ptable.kill_wakes m.proc pid p).sleeping hp.1, hchan ▸ hp.2⟩
  · show (Ptable.kill m.proc pid p).chan = _
    rw [hrecord]

/-- Nobody has a lock, and nobody sleeps on the channel while the condition is true. -/
structure Start (m : System κ ι σ) (G : Guarded ι σ) : Prop where
  table : m.table = .free
  lock : ∀ l, m.lock l = .free
  asleep : ∀ p, m.SleepsOn G.chan p → G.cond m.data = false

theorem Start.inv (h : m.Start G) : m.Inv G := by
  obtain ⟨htable, hlock, hasleep⟩ := h
  constructor
  · intro p hp hcond
    rw [hasleep p hp] at hcond
    cases hcond
  · simp [htable]
  · intro c hc
    unfold Has at hc
    split at hc
    · rw [htable] at hc
      cases hc
    · rw [hlock] at hc
      cases hc
  · simp [hlock]
  · simp [htable]
  · simp [htable]

theorem Inv.not_asleep (h : m.Inv G) (hlk : m.Free G.lk) (p : Slot)
    (hp : m.SleepsOn G.chan p) : G.cond m.data = false := by
  by_contra hcond
  obtain ⟨⟨c, hc⟩, -⟩ := h.asleep p hp (by simpa using hcond)
  obtain ⟨chan, lk, cond⟩ := G
  cases lk <;> simp_all [Has, Free]

variable [DecidableEq ι]

theorem Inv.take {l : Option ι} (h : m.Inv G) (hfree : ∀ c, ¬m.Has l c)
    (htable : ∀ c p chan pos, l = none → m.table ≠ .sleep c p chan pos)
    (hlock : ∀ c p chan l', l = some l' → m.lock l' ≠ .sleep c p chan) : (m.take G l c).Inv G := by
  obtain ⟨hasleep, hfalling, hroused, hcalling, hentered, hmarked⟩ := h
  obtain ⟨chan, lk, cond⟩ := G
  cases l <;> cases lk <;> simp only [Has] at hfree <;>
  constructor <;>
    simp only [System.take, Pending, Has, SleepsOn, update_apply] at * <;>
    grind -linarith

/-- What the users of locks do that the invariant is about, and when they do it. -/
inductive Effect (G : Guarded ι σ) (m : System κ ι σ) : System κ ι σ → Prop where
  | write {c : κ} {d : σ} (hguard : G.cond d = true → G.cond m.data = true ∨ m.Has G.lk c) :
      Effect G m { m with data := d, made := m.made || (G.cond d && !G.cond m.data) }
  | release {c : κ} {l : ι} (hhas : m.lock l = .code c)
      (hgive : G.lk = some l → m.made = true → m.woken = true) : Effect G m (m.setLock l .free)
  | sleep {c : κ} {p : Slot} {chan : Chan}
      (hcall : chan = G.chan → G.lk = none ∧ G.cond m.data = false)
      (hgive : G.lk = none → m.made = true → m.woken = true) :
      Effect G m { m with table := .sleep c p chan (.setChan none) }
  | sleepLock {c : κ} {p : Slot} {chan : Chan} {l : ι} (hlock : m.lock l = .code c)
      (hcall : chan = G.chan → G.lk = some l ∧ G.cond m.data = false)
      (hgive : G.lk = some l → m.made = true → m.woken = true) :
      Effect G m (m.setLock l (.sleep c p chan))
  | enter {c : κ} {p : Slot} {chan : Chan} {l : ι} (hfree : m.table = .free)
      (hlock : m.lock l = .sleep c p chan) :
      Effect G m { m with table := .sleep c p chan (.release l) }

/-- What `sleep` does while it has `ptable.lock`. -/
inductive Falls (m : System κ ι σ) : System κ ι σ → Prop where
  | swap {c : κ} {p : Slot} {chan : Chan} {l : ι}
      (htable : m.table = .sleep c p chan (.release l)) :
      Falls m ({ m with table := .sleep c p chan (.setChan (some l)) }.setLock l .free)
  | setChan {c : κ} {p : Slot} {chan : Chan} {l : Option ι}
      (htable : m.table = .sleep c p chan (.setChan l)) :
      Falls m ({ m with table := .sleep c p chan (.setState l) }.setProc p
        { m.proc p with chan := some chan })
  | setState {c : κ} {p : Slot} {chan : Chan} {l : Option ι}
      (htable : m.table = .sleep c p chan (.setState l)) :
      Falls m ({ m with table := .sleep c p chan (.sched l) }.setProc p
        { m.proc p with state := .sleeping })

theorem Inv.effect (h : m.Inv G) (heffect : Effect G m m') : m'.Inv G := by
  obtain ⟨hasleep, hfalling, hroused, hcalling, hentered, hmarked⟩ := h
  obtain ⟨chan, lk, cond⟩ := G
  cases heffect <;> cases lk <;> constructor <;>
    simp only [setLock, Pending, Has, SleepsOn, update_apply] at * <;> grind -linarith

theorem Inv.falls (h : m.Inv G) (hfalls : Falls m m') : m'.Inv G := by
  obtain ⟨hasleep, hfalling, hroused, hcalling, hentered, hmarked⟩ := h
  obtain ⟨chan, lk, cond⟩ := G
  cases hfalls <;> cases lk <;> constructor <;>
    simp only [setLock, setProc, Pending, Has, SleepsOn, update_apply] at * <;> grind -linarith

variable [DecidableEq κ]

theorem Inv.wakeup1 {chan : Chan} (h : m.Inv G) (htable : m.table = .code c) :
    Inv { m with
      proc := Ptable.wakeup1 m.proc (some chan)
      woken := m.woken || (chan = G.chan && m.Has G.lk c) } G := by
  have hchan : ∀ p, (Ptable.wakeup1 m.proc (some chan) p).chan = (m.proc p).chan := by
    intro p
    rw [(Ptable.wakeup1_wakes m.proc (some chan) p).record]
  have hquiet : ∀ p, (Ptable.wakeup1 m.proc (some chan) p).state = .sleeping →
      (m.proc p).state = .sleeping ∧ (m.proc p).chan ≠ some chan := by
    intro p hp
    exact ⟨(Ptable.wakeup1_wakes m.proc (some chan) p).sleeping hp, Ptable.wakeup1_awake hp⟩
  obtain ⟨hasleep, hfalling, hroused, hcalling, hentered, hmarked⟩ := h
  obtain ⟨gchan, lk, cond⟩ := G
  cases lk <;> constructor <;> simp only [Pending, Has, SleepsOn, hchan] at * <;> grind -linarith

/-- What the one does who has `ptable.lock` in `sleep` or has been switched to. -/
theorem Inv.advance {now : RtcDate} (h : m.Inv G) (hnext : m.next G (c, .advance now) = some m') :
    m'.Inv G := by
  simp only [next] at hnext
  split at hnext
  · next c' p chan pos htable =>
    obtain ⟨rfl, hnext⟩ := ite_none_right_eq_some.mp hnext
    split at hnext
    · cases hnext
      exact (h.falls (.swap htable)).of_eq rfl rfl rfl rfl rfl rfl
    · cases hnext
      exact h.falls (.setChan htable)
    · cases hnext
      exact h.falls (.setState htable)
    · obtain ⟨-, ⟨⟩⟩ := ite_none_right_eq_some.mp hnext
      refine h.setTable ⟨rfl, rfl, rfl, rfl, fun q hq => ?_⟩ (fun _ _ => .inr ?_) nofun nofun
      · by_cases hqp : q = p
        · subst hqp
          simpa [SleepsOn, swtch, setThread, setProc] using hq
        · simpa [SleepsOn, swtch, setThread, setProc, hqp] using hq
      · simp [htable]
  · next c' p htable =>
    have hgive : G.lk = none → m.made = true → m.woken = true ∨ ∀ c, m.table ≠ .code c :=
      fun _ _ => .inr (by simp [htable])
    have hquiet : ∀ q, (m.setProc p { m.proc p with chan := none }).SleepsOn G.chan q →
        m.SleepsOn G.chan q := by
      intro q hq
      by_cases hqp : q = p
      · simp [SleepsOn, setProc, hqp] at hq
      · simpa [SleepsOn, setProc, hqp] using hq
    obtain ⟨rfl, hnext⟩ := ite_none_right_eq_some.mp hnext
    split at hnext <;> cases hnext
    · exact h.setTable ⟨rfl, rfl, rfl, rfl, fun q hq => hq⟩ hgive nofun nofun
    · exact h.setTable ⟨rfl, rfl, rfl, rfl, fun q hq => hq⟩ hgive nofun nofun
    · -- back in code that has `ptable.lock`: as if it had taken the lock just now
      have hcleared : ((m.setProc p { m.proc p with chan := none }).setThread p .code).Inv G := by
        refine h.setTable ⟨rfl, rfl, rfl, rfl, hquiet⟩ hgive ?_ ?_ <;>
          simp [setThread, setProc, htable]
      refine hcleared.take ?_ ?_ nofun <;> simp [Has, setThread, setProc, htable]
    · exact h.setTable ⟨rfl, rfl, rfl, rfl, hquiet⟩ hgive nofun nofun
  · next c' p l htable =>
    obtain ⟨-, ⟨⟩⟩ := ite_none_right_eq_some.mp hnext
    refine h.setTable ⟨rfl, rfl, rfl, rfl, fun q hq => hq⟩ (fun _ _ => .inr ?_) nofun nofun
    simp [htable]
  · cases hnext

/-- **One step.** The invariant is kept by every action that keeps to the discipline. -/
theorem Inv.next {a : κ × Act ι σ} (h : m.Inv G) (ha : m.Disciplined G a)
    (hnext : m.next G a = some m') : m'.Inv G := by
  obtain ⟨c, a⟩ := a
  cases a with
  | advance now => exact h.advance hnext
  | acquire l =>
    obtain ⟨⟨-, hfree⟩, ⟨⟩⟩ := ite_none_right_eq_some.mp hnext
    have htake : (m.take G l c).Inv G := by
      cases l with
      | none => exact h.take (by simp_all [Has, Free]) (by simp_all [Free]) nofun
      | some l => exact h.take (by simp_all [Has, Free]) nofun (by simp_all [Free])
    exact htake.of_eq rfl rfl rfl rfl rfl rfl
  | release l =>
    cases l with
    | none =>
      obtain ⟨-, ⟨⟩⟩ := ite_none_right_eq_some.mp hnext
      exact h.setTable ⟨rfl, rfl, rfl, rfl, fun q hq => hq⟩
        (fun hlk hmade => .inl (ha hlk.symm hmade)) nofun nofun
    | some l =>
      obtain ⟨hlock, ⟨⟩⟩ := ite_none_right_eq_some.mp hnext
      exact (h.effect (.release hlock fun hlk => ha hlk.symm)).of_eq rfl rfl rfl rfl rfl rfl
  | write d =>
    obtain ⟨-, ⟨⟩⟩ := ite_none_right_eq_some.mp hnext
    exact h.effect (.write ha)
  | wakeup1 chan =>
    obtain ⟨htable, ⟨⟩⟩ := ite_none_right_eq_some.mp hnext
    exact h.wakeup1 htable
  | kill pid =>
    obtain ⟨-, ⟨⟩⟩ := ite_none_right_eq_some.mp hnext
    exact h.kill pid
  | change t =>
    obtain ⟨hchange, ⟨⟩⟩ := ite_none_right_eq_some.mp hnext
    refine h.frame ⟨rfl, rfl, rfl, rfl, fun q hq => ?_⟩ rfl fun q => (hchange q).1
    exact ⟨(hchange q).2 hq.1, (hchange q).1 ▸ hq.2⟩
  | sleep chan l =>
    have hcall : chan = G.chan → G.lk = l ∧ G.cond m.data = false := fun hchan =>
      ⟨(ha.1 hchan).1.symm, (ha.1 hchan).2⟩
    simp only [System.next] at hnext
    split at hnext
    · obtain ⟨⟨-, hhas⟩, hnext⟩ := ite_none_right_eq_some.mp hnext
      cases l with
      | none =>
        cases hnext
        exact .of_eq (h.effect (.sleep hcall fun hlk => ha.2 hlk.symm)) rfl rfl rfl rfl rfl rfl
      | some l =>
        cases hnext
        exact .of_eq (h.effect (.sleepLock hhas hcall fun hlk => ha.2 hlk.symm))
          rfl rfl rfl rfl rfl rfl
    · cases hnext
  | enter l =>
    simp only [System.next] at hnext
    split at hnext
    · next c' p chan hlock =>
      obtain ⟨⟨rfl, hfree⟩, ⟨⟩⟩ := ite_none_right_eq_some.mp hnext
      exact (h.effect (.enter hfree hlock)).of_eq rfl rfl rfl rfl rfl rfl
    · cases hnext
  | relock =>
    simp only [System.next] at hnext
    split at hnext
    · split at hnext
      · next l hthread =>
        obtain ⟨hfree, ⟨⟩⟩ := ite_none_right_eq_some.mp hnext
        have htake : (m.take G (some l) c).Inv G :=
          h.take (by simp_all [Has]) nofun (by simp_all)
        exact htake.of_eq rfl rfl rfl rfl rfl rfl
      · cases hnext
    · cases hnext
  | sched state now =>
    simp only [System.next] at hnext
    split at hnext
    · next p hcpu =>
      obtain ⟨⟨-, hstate, -⟩, hnext⟩ := ite_none_right_eq_some.mp hnext
      have hquiet : ∀ r q, ((m.setProc p { m.proc p with state := state }).swtch c p r
          now).SleepsOn G.chan q → m.SleepsOn G.chan q := by
        intro r q hq
        by_cases hqp : q = p
        · rcases hstate with rfl | rfl <;>
            simp [SleepsOn, swtch, setThread, setProc, hqp] at hq
        · simpa [SleepsOn, swtch, setThread, setProc, hqp] using hq
      split at hnext <;> cases hnext
      · exact h.setTable ⟨rfl, rfl, rfl, rfl, hquiet _⟩ (fun hlk hmade => .inl (ha hlk hmade))
          nofun nofun
      · exact h.setTable ⟨rfl, rfl, rfl, rfl, hquiet _⟩ (fun hlk hmade => .inl (ha hlk hmade))
          nofun nofun
    · cases hnext
  | schedule =>
    obtain ⟨⟨-, hfree⟩, ⟨⟩⟩ := ite_none_right_eq_some.mp hnext
    refine h.setTable ⟨rfl, rfl, rfl, rfl, fun q hq => hq⟩ (fun _ _ => .inr ?_) nofun nofun
    simp [hfree]
  | scan now =>
    simp only [System.next] at hnext
    split at hnext
    · next k hcpu =>
      obtain ⟨htable, hnext⟩ := ite_none_right_eq_some.mp hnext
      have hgive : G.lk = none → m.made = true → m.woken = true ∨ ∀ c, m.table ≠ .code c :=
        fun _ _ => .inr (by simp [htable])
      split at hnext
      · next hk =>
        split at hnext <;> cases hnext
        · refine h.setTable ⟨rfl, rfl, rfl, rfl, fun q hq => ?_⟩ hgive nofun nofun
          by_cases hqp : q = ⟨k, hk⟩
          · simp [SleepsOn, setProc, hqp] at hq
          · simpa [SleepsOn, setProc, hqp] using hq
        · exact h.of_eq rfl rfl rfl rfl rfl rfl
      · cases hnext
        exact h.setTable ⟨rfl, rfl, rfl, rfl, fun q hq => hq⟩ hgive nofun nofun
    · cases hnext
  | back =>
    simp only [System.next] at hnext
    split at hnext <;> cases hnext
    exact h.of_eq rfl rfl rfl rfl rfl rfl

theorem Inv.run {as : List (κ × Act ι σ)} (h : m.Inv G)
    (has : Along (System.next G) (fun m a => m.Disciplined G a) m as)
    (hrun : Framework.run (System.next G) m as = some m') : m'.Inv G := by
  have hpreserved : ∀ (s : System κ ι σ) a s', s.Inv G → s.Disciplined G a →
      s.next G a = some s' → s'.Inv G := fun _ _ _ hinv ha hnext => hinv.next ha hnext
  exact run_preserves hpreserved h has hrun

/-! ### What a step leaves alone -/

/-- Only `write` changes the data. -/
theorem next_data {a : Act ι σ} (hnext : m.next G (c, a) = some m') (ha : ∀ d, a ≠ .write d) :
    m'.data = m.data := by
  cases a with
  | write d => exact absurd rfl (ha d)
  | release l =>
    cases l <;> simp only [System.next] at hnext <;> split at hnext <;> cases hnext <;> rfl
  | _ =>
    simp only [System.next] at hnext
    repeat' split at hnext
    all_goals
      first
      | (cases hnext; done)
      | (cases hnext; rfl)

/-- The notes about the one who has `lk` are started when `lk` is taken. -/
theorem next_flags {l : ι} {a : Act ι σ} (hlk : G.lk = some l) (hnext : m.next G (c, a) = some m')
    (hwrite : ∀ d, a ≠ .write d) (hacquire : a ≠ .acquire (some l))
    (hrelock : a = .relock → ∀ p, m.cpu c = .process p → m.thread p ≠ .relock l) :
    m'.made = m.made ∧ (m.woken = true → m'.woken = true) := by
  cases a with
  | write d => exact absurd rfl (hwrite d)
  | release l =>
    cases l <;> simp only [System.next] at hnext <;> split at hnext <;> cases hnext <;>
      exact ⟨rfl, id⟩
  | acquire l' =>
    obtain ⟨-, ⟨⟩⟩ := ite_none_right_eq_some.mp hnext
    have hne : l' ≠ G.lk := by
      rintro rfl
      rw [hlk] at hacquire
      exact hacquire rfl
    simp [System.take, pushcli, hne]
  | relock =>
    simp only [System.next] at hnext
    split at hnext
    · next p hcpu =>
      split at hnext
      · next l' hthread =>
        obtain ⟨-, ⟨⟩⟩ := ite_none_right_eq_some.mp hnext
        have hne : some l' ≠ G.lk := by
          rw [hlk]
          rintro heq
          cases heq
          exact hrelock rfl p hcpu hthread
        simp [System.take, pushcli, setThread, hne]
      · cases hnext
    · cases hnext
  | _ =>
    simp only [System.next] at hnext
    repeat' split at hnext
    all_goals
      first
      | (cases hnext; done)
      | (cases hnext; exact ⟨rfl, id⟩)
      | (cases hnext; exact ⟨rfl, fun hw => by simp [hw]⟩)
      | (cases hnext; simp [System.take, setThread, setProc, hlk])

theorem acquire_made (hnext : m.next G (c, .acquire G.lk) = some m') : m'.made = false := by
  obtain ⟨-, ⟨⟩⟩ := ite_none_right_eq_some.mp hnext
  simp [System.take, pushcli]

theorem relock_made {l : ι} {p : Slot} (hlk : G.lk = some l) (hcpu : m.cpu c = .process p)
    (hthread : m.thread p = .relock l) (hnext : m.next G (c, .relock) = some m') :
    m'.made = false := by
  simp only [System.next, hcpu, hthread] at hnext
  obtain ⟨-, ⟨⟩⟩ := ite_none_right_eq_some.mp hnext
  simp [System.take, pushcli, setThread, hlk]

/-! ### No lost wakeup -/

/-- **No lost wakeup.** Let `lk` be `ptable.lock` or another spinlock, and let every step of a run
keep to the discipline: processes sleep on the channel with `lk` when they have found the condition
false, and who makes it true has `lk` and wakes the channel before giving `lk` up. Whatever else
happens, whenever `lk` and `ptable.lock` are both free, no process sleeps on the channel while the
condition is true. -/
theorem no_lost_wakeup (G : Guarded ι σ) (m m' : System κ ι σ) (as : List (κ × Act ι σ))
    (hstart : m.Start G) (has : Along (System.next G) (fun m a => m.Disciplined G a) m as)
    (hrun : Framework.run (System.next G) m as = some m') (hlk : m'.Free G.lk)
    (_htable : m'.Free none) (p : Slot) (hp : m'.SleepsOn G.chan p) : G.cond m'.data = false :=
  (hstart.inv.run has hrun).not_asleep hlk p hp

/-- A flag that a lock guards. -/
def flag : Guarded Unit Bool where
  chan := .other 0
  lk := some ()
  cond := id

/-- One process is ready to run, on one CPU. -/
def ready : System Unit Unit Bool where
  proc := update (fun _ => .zeroed) 0 { Ptable.Proc.zeroed with state := .runnable }
  data := false
  table := .free
  lock := fun _ => .free
  cpu := fun _ => .idle
  ncli := fun _ => 0
  thread := fun _ => .switched (.release none)
  made := false
  woken := false

/-- It goes to sleep on the channel, and the scheduler finds nothing else to run. -/
def fallAsleep : List (Act Unit Bool) :=
  List.flatten [[.sleep (.other 0) (some ()), .enter ()],
    List.replicate 4 (.advance .zero), [.back],
    List.replicate 64 (.scan .zero)]

/-- It sleeps, an interrupt handler sets the flag, it takes the flag and sleeps again. -/
def sleepTwice : List (Unit × Act Unit Bool) :=
  (List.flatten [
    [.schedule, .scan .zero, .advance .zero, .acquire (some ())],
    fallAsleep,
    [.acquire (some ()), .write true, .acquire none, .wakeup1 (.other 0), .release none,
      .release (some ())],
    [.schedule, .scan .zero, .advance .zero, .advance .zero, .relock, .write false],
    fallAsleep]).map fun a => ((), a)

theorem no_lost_wakeup_twice :
    ∃ m, Framework.run (System.next flag) ready sleepTwice = some m ∧
      m.SleepsOn flag.chan 0 ∧ flag.cond m.data = false := by
  have hend : (Framework.run (System.next flag) ready sleepTwice).map
      (fun m => (((m.proc 0).state, (m.proc 0).chan), m.table, m.lock ())) =
        some ((.sleeping, some (.other 0)), .free, .free) := by
    decide +kernel
  obtain ⟨m, hm, hend⟩ := map_eq_some_iff.mp hend
  simp only [Prod.mk.injEq] at hend
  refine ⟨m, hm, hend.1, ?_⟩
  refine no_lost_wakeup flag ready m sleepTwice ⟨rfl, fun _ => rfl, fun _ _ => rfl⟩ ?_ hm hend.2.2
    hend.2.1 0 hend.1
  decide +kernel

end System

end Xv6.Wakeup
