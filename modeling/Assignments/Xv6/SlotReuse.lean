import Assignments.Xv6.Scheduling

/-!
# What a new process finds in its slot

A slot of the table is used again and again, and `allocproc`, `fork`, `exit` and `wait` each set a
part of the record. A `fork` in two states that agree on everything but the free slots gives two
children; whether these agree depends on what is left in the free slot. The open files are closed
by `exit` whenever a slot becomes free (`Closed`), and the pid, the parent and the size are set by
`fork`. Nobody resets `killed` when a slot is taken, and a `kill` of pid 0, or of the pid of a
process that could not be made, marks a free slot. `heapSize` and the time of the last switch keep
their values from the process before.

* `forkSlot_eq` — the record that a `fork` leaves in the slot;
* `slot_reuse` — the two children agree, and are not killed, just if the slot was not marked and
  agreed on the two fields that nobody sets.
-/

namespace Xv6.Ptable.Machine

open Framework Function

variable {κ : Type} [DecidableEq κ] {m m' : Machine κ} {p np cur : Slot}

/-- A state of the machine that some run leads to. -/
def Reachable (m : Machine κ) : Prop :=
  ∃ g d now as, g ≠ d ∧ run next (boot g d now) as = some m

/-- A `fork` of the process `cur` that succeeds, in the slot `np`. -/
def Forks (m : Machine κ) (cur np : Slot) (m' : Machine κ) : Prop :=
  ∃ c now g d, m.current c = some cur ∧ m.proc.findUnused = some np ∧
    run next m [(c, .fork now), (c, .forkStack (some g)), (c, .forkCopy (some d)),
      (c, .forkEnd)] = some m'

/-! ### The files of a free slot -/

/-- Where the descriptors of a process are closed. -/
structure Closed (m : Machine κ) : Prop where
  unused : ∀ p, (m.proc p).state = .unused → (m.proc p).ofile = fun _ => none
  child : ∀ p q, (m.thread p).phase = .forkStack q ∨ (m.thread p).phase = .forkCopy q →
    (m.proc q).ofile = fun _ => none
  exiting : ∀ p k (fd : Fin NOFILE), (m.thread p).phase = .exiting k → (fd : ℕ) < k →
    (m.proc p).ofile fd = none
  zombie : ∀ p, (m.proc p).state = .zombie → (m.proc p).ofile = fun _ => none

theorem Closed.step (h : m.Sane) (hclosed : m.Closed) (hstep : Step m m') : m'.Closed := by
  obtain ⟨hunused, hchild, hexiting, hzombie⟩ := hclosed
  have hembryo := h.forks.child
  have hexecuting : ∀ {c p}, m.cpu c = .process p → (m.proc p).state = .running := h.cpus.executing
  cases hstep with
  | acquire | skip | leave | back | stutter => exact ⟨hunused, hchild, hexiting, hzombie⟩
  | switchTo | release | sched | alloc | exit | exec | own =>
    constructor <;> simp only [Machine.switchTo, Machine.release, Machine.sched, Machine.alloc,
      Proc.alloc, setProc, setPhase, setOwner, record, update_apply] <;>
      grind -linarith [Phase.child, InSection, Executes]
  | reap chan hin hfound hkstack hpgdir =>
    have hrunning := hexecuting hin.1
    have hz := (zombieChild_eq_some hfound).2
    constructor <;> simp only [Machine.release, Machine.reap, setProc, setOwner, record,
      Proc.reaped, update_apply] <;> grind -linarith
  | @wake t hlock ht =>
    have hofile : ∀ q, (t q).ofile = (m.proc q).ofile := by
      intro q
      rw [(ht q).record]
    have hstate : ∀ q, (t q).state = .unused ∨ (t q).state = .zombie →
        (t q).state = (m.proc q).state := by
      intro q hq
      rcases (ht q).state with heq | ⟨-, hwoken⟩
      · exact heq
      · rw [hwoken] at hq
        rcases hq with hq | hq <;> cases hq
    constructor <;> simp only [hofile] <;> grind -linarith
  | @stackFails c p np hexec hphase | @stack c p np _ hexec hphase
      | @copyFails c p np _ hexec hphase
  | @copy c p np _ hexec hphase | @forkEnd c p np hexec _ hphase =>
    have hrunning := hexecuting hexec.1
    have hnp := hembryo p np (by rw [hphase]; rfl)
    have hstart := h.forks.stacked p np
    have hunique := h.forks.unique p
    constructor <;> simp only [Machine.stack, Machine.copy, Proc.copy, setProc, setPhase, setOwner,
      record, update_apply] <;> grind -linarith [Phase.child]
  | @exitClose c p fd hexec hphase =>
    have hrunning := hexecuting hexec.1
    have hclose : ∀ fd' : Fin NOFILE, (fd' : ℕ) < fd + 1 →
        update (m.proc p).ofile fd none fd' = none := by
      intro fd' hlt
      by_cases hfd : fd' = fd
      · rw [hfd, update_self]
      · rw [update_of_ne hfd]
        exact hexiting p fd fd' hphase (by omega)
    refine ⟨?_, ?_, fun q k fd' hq hlt => ?_, ?_⟩
    · simp only [setProc, setPhase, update_apply]
      grind -linarith
    · simp only [setProc, setPhase, update_apply]
      grind -linarith [Phase.child]
    · by_cases hqp : q = p
      · subst hqp
        obtain rfl : (fd : ℕ) + 1 = k := by simpa [setProc, setPhase] using hq
        simpa [setProc, setPhase] using hclose fd' hlt
      · simp only [setProc, setPhase, update_of_ne hqp] at hq ⊢
        exact hexiting q k fd' hq hlt
    · simp only [setProc, setPhase, update_apply]
      grind -linarith
  | @exitEnd c p now hexec hlock hphase =>
    have hofile : ∀ q, (exitSection m.proc p q).ofile = (m.proc q).ofile := by
      intro q
      rw [exitSection_eq]
    have hself : (m.proc p).ofile = fun _ => none :=
      funext fun fd => hexiting p NOFILE fd hphase fd.isLt
    have hothers : ∀ q, _ := fun q => @exitSection_state m.proc p q
    have hz := exitSection_state_self m.proc p
    constructor <;> simp only [Machine.sched, setProc, update_apply] <;> grind -linarith

theorem reachable_sane (h : m.Reachable) : m.Sane := by
  obtain ⟨g, d, now, as, hgd, hrun⟩ := h
  exact run_sane hgd hrun

theorem reachable_closed (h : m.Reachable) : m.Closed := by
  obtain ⟨g, d, now, as, hgd, hrun⟩ := h
  have hboot : (boot g d now : Machine κ).Closed := by
    have hofile : ∀ p, ((boot g d now : Machine κ).proc p).ofile = fun _ => none := by
      intro p
      by_cases hp : p = initproc
      · simp [boot, hp, Proc.alloc, Proc.zeroed]
      · simp [boot, hp, Proc.zeroed]
    exact ⟨fun p _ => hofile p, fun _ q _ => hofile q, fun p _ fd _ _ => congrFun (hofile p) fd,
      fun p _ => hofile p⟩
  have hpreserved : ∀ (s : Machine κ) (a : κ × Act) (s' : Machine κ),
      (s.Sane ∧ s.Closed) → True → s.next a = some s' → s'.Sane ∧ s'.Closed := by
    rintro s a s' ⟨hsane, hclosed⟩ - hnext
    have hstep := next_step hnext
    exact ⟨hstep.sane hsane, hclosed.step hsane hstep⟩
  exact (run_preserves hpreserved ⟨boot_sane hgd now, hboot⟩ (along_true _ as) hrun).2

/-! ### The record of the child -/

theorem Forks.running (hsane : m.Sane) (h : m.Forks cur np m') : (m.proc cur).state = .running := by
  obtain ⟨c, -, -, -, hcur, -, -⟩ := h
  exact hsane.cpus.executing (current_eq_some hcur).1

theorem Forks.free (h : m.Forks cur np m') : (m.proc np).state = .unused := by
  obtain ⟨-, -, -, -, -, hfind, -⟩ := h
  exact findUnused_eq_some hfind

/-- What a `fork` of `cur` leaves in the slot `x`, given the record of `cur`. -/
def forkSlot (x : Proc) (now : RtcDate) (pid : ℤ) (g d : Page) (cur : Slot) (parent : Proc) :
    Proc :=
  { ({ x.alloc now pid with kstack := some g }).copy d cur parent with state := .runnable }

omit [DecidableEq κ] in
theorem Executes.current {c : κ} (h : m.Executes c p) : m.current c = some p := by
  simp [Machine.current, h.1, h.2]

theorem next_fork {c : κ} {now : RtcDate} (hexec : m.Executes c cur)
    (hfind : m.proc.findUnused = some np) (h : m.next (c, .fork now) = some m') :
    m.alloc cur np now = m' := by
  simp only [next, hexec.current, hfind, bind, Option.bind] at h
  exact Option.some.inj (Option.ite_none_right_eq_some.mp h).2

theorem next_forkStack {c : κ} {g : Page} (hexec : m.Executes c cur)
    (hphase : (m.thread cur).phase = .forkStack np)
    (h : m.next (c, .forkStack (some g)) = some m') : m.stack cur np g = m' := by
  simp only [next, hexec.current, hphase, bind, Option.bind] at h
  exact Option.some.inj (Option.ite_none_right_eq_some.mp h).2

theorem next_forkCopy {c : κ} {d : Page} (hexec : m.Executes c cur)
    (hphase : (m.thread cur).phase = .forkCopy np)
    (h : m.next (c, .forkCopy (some d)) = some m') : m.copy cur np d = m' := by
  simp only [next, hexec.current, hphase, bind, Option.bind] at h
  exact Option.some.inj (Option.ite_none_right_eq_some.mp h).2

theorem next_forkEnd {c : κ} (hexec : m.Executes c cur)
    (hphase : (m.thread cur).phase = .forkEnd np) (h : m.next (c, .forkEnd) = some m') :
    m'.proc = update m.proc np { m.proc np with state := .runnable } := by
  simp only [next, hexec.current, hphase, bind, Option.bind] at h
  obtain ⟨-, ⟨⟩⟩ := Option.ite_none_right_eq_some.mp h
  rfl

/-- The four steps of a `fork`, one after another; the process stays on its CPU. -/
theorem forkSlot_eq (hne : np ≠ cur) (h : m.Forks cur np m') :
    ∃ now g d, m'.proc np = forkSlot (m.proc np) now m.nextpid g d cur (m.proc cur) := by
  obtain ⟨c, now, g, d, hcur, hfind, hrun⟩ := h
  have hexec : m.Executes c cur := current_eq_some hcur
  simp only [run_cons, run_nil, Option.bind_eq_some_iff, Option.some.injEq] at hrun
  obtain ⟨m₁, h₁, m₂, h₂, m₃, h₃, m₄, h₄, rfl⟩ := hrun
  obtain rfl := next_fork hexec hfind h₁
  have hexec₁ : (m.alloc cur np now).Executes c cur := by
    simpa [Executes, Machine.alloc, setProc, setPhase, record] using hexec
  have hphase₁ : ((m.alloc cur np now).thread cur).phase = .forkStack np := by
    simp [Machine.alloc, setProc, setPhase, record]
  obtain rfl := next_forkStack hexec₁ hphase₁ h₂
  have hexec₂ : ((m.alloc cur np now).stack cur np g).Executes c cur := by
    simpa [Executes, Machine.stack, setProc, setOwner] using hexec₁
  have hphase₂ : (((m.alloc cur np now).stack cur np g).thread cur).phase = .forkCopy np := by
    simp [Machine.stack, setProc, setOwner]
  obtain rfl := next_forkCopy hexec₂ hphase₂ h₃
  have hexec₃ : (((m.alloc cur np now).stack cur np g).copy cur np d).Executes c cur := by
    simpa [Executes, Machine.copy, setProc, setOwner, setPhase] using hexec₂
  have hphase₃ :
      ((((m.alloc cur np now).stack cur np g).copy cur np d).thread cur).phase = .forkEnd np := by
    simp [Machine.copy, setProc, setOwner, setPhase]
  refine ⟨now, g, d, ?_⟩
  rw [next_forkEnd hexec₃ hphase₃ h₄]
  simp [forkSlot, Machine.copy, Machine.stack, Machine.alloc, setProc, setOwner, setPhase, record,
    hne.symm]

/-! ### Two runs -/

/-- Two records of a child are the same as far as the child can tell. -/
structure SameChild (x y : Proc) : Prop where
  pid : x.pid = y.pid
  killed : x.killed = y.killed
  parent : x.parent = y.parent
  ofile : x.ofile = y.ofile
  sz : x.sz = y.sz
  heapSize : x.heapSize = y.heapSize
  switchedIn : x.processLastContextSwitchedInDateTime = y.processLastContextSwitchedInDateTime

/-- The fields that a `fork` takes over from the free slot. -/
theorem sameChild_forkSlot {x y cur₁ : Proc} {now now' : RtcDate} {pid : ℤ} {g g' d d' : Page}
    (hofile : x.ofile = y.ofile) :
    SameChild (forkSlot x now pid g d cur cur₁) (forkSlot y now' pid g' d' cur cur₁) ↔
      x.killed = y.killed ∧ x.heapSize = y.heapSize ∧
        x.processLastContextSwitchedInDateTime = y.processLastContextSwitchedInDateTime := by
  constructor
  · exact fun h => ⟨h.killed, h.heapSize, h.switchedIn⟩
  · rintro ⟨hkilled, hheap, htime⟩
    refine ⟨rfl, hkilled, rfl, ?_, rfl, hheap, htime⟩
    simp only [forkSlot, Proc.copy, Proc.alloc, hofile]

/-- **A child and the slot it is put in.** In two reachable machines whose tables agree on all
slots in use and on the next pid, let the same process fork into the same slot. The two children
agree, and are not killed, just if neither table had the free slot marked as killed and both had
the same heap size and time of the last switch in it. -/
theorem slot_reuse {m₁ m₂ m₁' m₂' : Machine κ} (hreach₁ : m₁.Reachable) (hreach₂ : m₂.Reachable)
    (hagree : ∀ p, (m₁.proc p).state ≠ .unused ∨ (m₂.proc p).state ≠ .unused →
      m₁.proc p = m₂.proc p)
    (hpid : m₁.nextpid = m₂.nextpid) (hfork₁ : m₁.Forks cur np m₁')
    (hfork₂ : m₂.Forks cur np m₂') :
    (SameChild (m₁'.proc np) (m₂'.proc np) ∧
        (m₁'.proc np).killed = false ∧ (m₂'.proc np).killed = false) ↔
      (m₁.proc np).killed = false ∧ (m₂.proc np).killed = false ∧
        (m₁.proc np).heapSize = (m₂.proc np).heapSize ∧
        (m₁.proc np).processLastContextSwitchedInDateTime =
          (m₂.proc np).processLastContextSwitchedInDateTime := by
  have hrunning := hfork₁.running (reachable_sane hreach₁)
  have hne : np ≠ cur := by
    rintro rfl
    rw [hfork₁.free] at hrunning
    cases hrunning
  have hparent : m₁.proc cur = m₂.proc cur := hagree cur (.inl (by rw [hrunning]; nofun))
  obtain ⟨now₁, g₁, d₁, hchild₁⟩ := forkSlot_eq hne hfork₁
  obtain ⟨now₂, g₂, d₂, hchild₂⟩ := forkSlot_eq hne hfork₂
  have hofile : (m₁.proc np).ofile = (m₂.proc np).ofile := by
    rw [(reachable_closed hreach₁).unused np hfork₁.free,
      (reachable_closed hreach₂).unused np hfork₂.free]
  rw [hchild₁, hchild₂, hpid, hparent, sameChild_forkSlot hofile]
  change (_ ∧ (m₁.proc np).killed = false ∧ (m₂.proc np).killed = false) ↔ _
  constructor
  · rintro ⟨⟨-, hheap, htime⟩, hkilled₁, hkilled₂⟩
    exact ⟨hkilled₁, hkilled₂, hheap, htime⟩
  · rintro ⟨hkilled₁, hkilled₂, hheap, htime⟩
    exact ⟨⟨hkilled₁.trans hkilled₂.symm, hheap, htime⟩, hkilled₁, hkilled₂⟩

/-- The first process runs, on one CPU, and then does what `acts` says. -/
def startActs (acts : List (Unit × Act)) : List (Unit × Act) :=
  [((), .acquire), ((), .scan .zero), ((), .resume .zero)] ++ acts

def started (acts : List (Unit × Act)) : Machine Unit :=
  (run next (boot 0 1 .zero) (startActs acts)).getD (boot 0 1 .zero)

/-- The first process has then forked. -/
def forked (acts : List (Unit × Act)) : Machine Unit :=
  (run next (started acts) [((), .fork .zero), ((), .forkStack (some 2)),
    ((), .forkCopy (some 3)), ((), .forkEnd)]).getD (boot 0 1 .zero)

theorem started_reachable (acts : List (Unit × Act))
    (h : (run next (boot 0 1 .zero) (startActs acts)).isSome = true) :
    (started acts).Reachable := by
  obtain ⟨m, hm⟩ := Option.isSome_iff_exists.mp h
  exact ⟨0, 1, .zero, startActs acts, by decide, by rw [started, hm, Option.getD_some]⟩

/-- A `fork` at the time `now`, with no page left for the stack of the child. -/
def failedFork (now : RtcDate) : List (Unit × Act) := [((), .fork now), ((), .forkStack none)]

/-- The slot that a `fork` has failed on, at one time or another. -/
theorem slot_reuse_failedFork :
    (started (failedFork .zero)).proc 1 ≠ (started (failedFork ⟨9, 30, 9, 1, 3, 2024⟩)).proc 1 ∧
    SameChild ((forked (failedFork .zero)).proc 1)
      ((forked (failedFork ⟨9, 30, 9, 1, 3, 2024⟩)).proc 1) :=
  ⟨by decide +kernel, ((slot_reuse (started_reachable (failedFork .zero) rfl)
    (started_reachable (failedFork ⟨9, 30, 9, 1, 3, 2024⟩) rfl) (by decide +kernel) rfl
    ⟨(), .zero, 2, 3, rfl, by decide +kernel, rfl⟩
    ⟨(), .zero, 2, 3, rfl, by decide +kernel, rfl⟩).mpr
      ⟨by decide +kernel, by decide +kernel, rfl, rfl⟩).1⟩

def kill0 : List (Unit × Act) := [((), .kill 0)]

/-- A `kill(0)` marks a free slot, and the child that is put there starts killed. -/
theorem slot_reuse_killed :
    ((started kill0).Reachable ∧ (started []).Reachable) ∧
    (∀ p, ((started kill0).proc p).state ≠ .unused ∨ ((started []).proc p).state ≠ .unused →
      (started kill0).proc p = (started []).proc p) ∧
    (started kill0).nextpid = (started []).nextpid ∧
    (started kill0).Forks initproc 1 (forked kill0) ∧
    (started []).Forks initproc 1 (forked []) ∧
    ((forked kill0).proc 1).killed = true ∧ ((forked []).proc 1).killed = false :=
  ⟨⟨started_reachable kill0 rfl, started_reachable [] rfl⟩, by decide +kernel, rfl,
    ⟨(), .zero, 2, 3, rfl, by decide +kernel, rfl⟩, ⟨(), .zero, 2, 3, rfl, by decide +kernel, rfl⟩,
    by decide +kernel, by decide +kernel⟩

end Xv6.Ptable.Machine
