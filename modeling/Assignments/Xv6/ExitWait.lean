import Assignments.Xv6.Family
import Assignments.Xv6.Scheduling

/-!
# Exit statuses and the children that `wait` returns

The machine refines the family: seen without CPUs, locks and memory, each of its steps is a step of
`Family`, or none (`Step.family`). So the history of every run of the machine is explained event by
event: a child that `wait` returns was forked by the caller or passed on to the first process, the
status is the one it passed to `exit`, and no other call returns it.

That no parent sleeps through the exit of a child is about the machine: `Waiting` says that a
process that sleeps in `wait` has no zombie among its children, and `exit` keeps that by waking the
parent, and the first process when it hands it a zombie.

* `Step.family` — the simulation;
* `Waiting.step` — no lost wakeup;
* `exit_wait` — what `wait` returns, and who may be asleep in it.
-/

namespace Xv6.Ptable.Machine

open Framework Function

variable {κ : Type} {m m' : Machine κ}

/-! ### The family of a machine -/

/-- The life of the process in slot `q`. -/
def life (m : Machine κ) (q : Slot) : Life :=
  match (m.proc q).state with
  | .unused => .free
  | .embryo => .embryo
  | .zombie => .zombie
  | .sleeping | .runnable | .running =>
    match (m.thread q).phase with
    | .exiting _ => .leaving
    | _ => .active

/-- The child that the `fork` of `q` has given a parent. -/
def making (m : Machine κ) (q : Slot) : Option Slot :=
  match (m.thread q).phase with
  | .forkEnd np => some np
  | _ => none

def family (m : Machine κ) : Family where
  member := fun q => ⟨m.life q, (m.proc q).pid, (m.proc q).parent,
    (m.proc q).exitstatus, m.making q⟩
  trace := m.trace

/-- The machine is in the family that a step leads to if the members and the history agree. -/
theorem family_step {F F' : Family} (hstep : F.Step F') (htrace : m.trace = F'.trace)
    (h : ∀ q, F'.member q = ⟨m.life q, (m.proc q).pid, (m.proc q).parent, (m.proc q).exitstatus,
      m.making q⟩) : F.Step m.family := by
  have hfamily : m.family = F' := Family.ext (funext fun q => (h q).symm) htrace
  rw [hfamily]
  exact hstep

variable [DecidableEq κ]

/-- Each step of the machine is a step of the family, or none. -/
theorem Step.family (h : m.Sane) (hnext : m.nextpid = int (creations m.trace + 1))
    (hkin : m.family.Kin) (hstep : Step m m') (hcount : creations m'.trace < 2 ^ 31) :
    m.family.Step m'.family := by
  have hchild := h.forks.child
  have hexecuting : ∀ {c p}, m.cpu c = .process p → (m.proc p).state = .running := h.cpus.executing
  cases hstep with
  | acquire | skip | leave | back | stutter => exact .stutter
  | switchTo | release | sched | stack | exitClose | exec | own =>
    -- the family does not see which state a process that lives is in
    refine family_step .stutter rfl ?_
    simp only [Machine.family, life, making, Machine.switchTo, Machine.release, Machine.sched,
      Machine.stack, setProc, setPhase, setOwner, update_apply]
    grind -linarith [Phase.child, InSection, Executes]
  | @reap c p q g d chan hin hfound hkstack hpgdir =>
    have hrunning := hexecuting hin.1
    obtain ⟨hparent, hzombie⟩ := zombieChild_eq_some hfound
    have hqp : q ≠ p := by
      rintro rfl
      rw [hrunning] at hzombie
      cases hzombie
    refine family_step (.reap p q hparent (by simp [Machine.family, life, hzombie])) ?_ ?_
    · simp [Machine.release, Machine.reap, setProc, setOwner, record, Family.record, Family.set,
        Machine.family, hqp]
    · simp only [Machine.family, life, making, Machine.release, Machine.reap, setProc, setOwner,
        record, Proc.reaped, update_apply, Family.set, Family.record]
      grind -linarith
  | @wake t hlock ht =>
    refine family_step .stutter rfl fun q => ?_
    have hstate := (ht q).state
    have hlife : m.life q = life { m with proc := t } q := by
      unfold life
      dsimp only at hstate ⊢
      grind -linarith
    show Member.mk _ _ _ _ _ = ⟨_, (t q).pid, (t q).parent, (t q).exitstatus, _⟩
    rw [← hlife, (ht q).record]
    rfl
  | @alloc c p np now hexec hlock hphase hnp =>
    have hrunning := hexecuting hexec.1
    have hcreations : creations (m.alloc p np now).trace = creations m.trace + 1 :=
      creations_created m.nextpid m.trace
    have hpid : m.nextpid = creations m.trace + 1 := by
      rw [hnext, int_eq_self (by omega) (by omega)]
    refine family_step (.create np (by simp [Machine.family, life, hnp])) ?_ ?_
    · simp [Machine.alloc, record, setProc, setPhase, Family.record, Family.set,
        Machine.family, hpid]
    · simp only [Machine.family, life, making, Machine.alloc, setProc, setPhase, record, Proc.alloc,
        update_apply, Family.set, Family.record]
      grind -linarith [Phase.child]
  | @stackFails c p np hexec hphase | @copyFails c p np _ hexec hphase =>
    have hrunning := hexecuting hexec.1
    have hnp := hchild p np (by rw [hphase]; rfl)
    have hparent := h.forks.parent (p := p) (q := np) (by rw [hphase]; rfl)
    refine family_step (.abandon np (by simp [Machine.family, life, hnp.1]) ?_) rfl ?_
    · simp only [Machine.family, making]
      grind -linarith
    · simp only [Machine.family, life, making, setProc, setPhase, setOwner, update_apply,
        Family.set]
      grind -linarith
  | @copy c p np d hexec hphase hfree =>
    have hrunning := hexecuting hexec.1
    have hnp := hchild p np (by rw [hphase]; rfl)
    have hparent := h.forks.parent (p := p) (q := np) (by rw [hphase]; rfl)
    refine family_step (.adopt p np (by simp [Machine.family, life, hrunning, hphase])
      (by simp [Machine.family, making, hphase]) (by simp [Machine.family, life, hnp.1]) ?_) rfl ?_
    · simp only [Machine.family, making]
      grind -linarith
    · simp only [Machine.family, life, making, Machine.copy, Proc.copy, setProc, setPhase, setOwner,
        update_apply, Family.set]
      grind -linarith
  | @forkEnd c p np hexec hlock hphase =>
    have hrunning := hexecuting hexec.1
    have hnp := hchild p np (by rw [hphase]; rfl)
    have hstart := h.forks.stacked p np (.inr hphase)
    refine family_step (.born p np (by simp [Machine.family, making, hphase])) rfl ?_
    simp only [Machine.family, life, making, record, setProc, setPhase, update_apply,
      Family.set, Family.record]
    grind -linarith
  | @exit c p status hexec hphase hinit =>
    have hrunning := hexecuting hexec.1
    refine family_step (.exit p status (by simp [Machine.family, life, hrunning, hphase])
      (by simp [Machine.family, making, hphase]) hinit) rfl ?_
    simp only [Machine.family, life, making, record, setProc, setPhase, update_apply,
      Family.set, Family.record]
    grind -linarith
  | @exitEnd c p now hexec hlock hphase =>
    have hrunning := hexecuting hexec.1
    have hself : (m.proc p).parent ≠ some p := fun hp => (hkin.parent p p hp).1 rfl
    refine family_step (.die p (by simp [Machine.family, life, hrunning, hphase])) rfl fun q => ?_
    have hrecord := exitSection_eq m.proc p q
    have hzombie := exitSection_state_self m.proc p
    have hothers := @exitSection_state m.proc p q
    simp only [Machine.family, life, making, Machine.sched, setProc, update_apply,
      Family.set, Family.orphan]
    by_cases hq : q = p
    · subst hq
      rw [hrecord]
      grind -linarith
    · rw [hrecord]
      grind -linarith

/-! ### Nobody sleeps through an exit -/

/-- The process sleeps in `wait`. -/
def WaitsAsleep (m : Machine κ) (p : Slot) : Prop :=
  (m.proc p).state = .sleeping ∧ (m.thread p).resume = some .wait

structure Waiting (m : Machine κ) : Prop where
  chan : ∀ p, m.WaitsAsleep p → (m.proc p).chan = some (.proc p)
  noZombie : ∀ p q, m.WaitsAsleep p → (m.proc q).parent = some p → (m.proc q).state ≠ .zombie

omit [DecidableEq κ] in
/-- Nobody falls asleep, moves to another parent or becomes a zombie. -/
theorem Waiting.frame (h : m.Waiting)
    (hasleep : ∀ p, m'.WaitsAsleep p → m.WaitsAsleep p ∧ (m'.proc p).chan = (m.proc p).chan)
    (hparent : ∀ q p, (m'.proc q).parent = some p → m.WaitsAsleep p → (m.proc q).parent = some p)
    (hzombie : ∀ q, (m'.proc q).state = .zombie → (m.proc q).state = .zombie) : m'.Waiting where
  chan := by
    intro p hp
    obtain ⟨hp', hchan⟩ := hasleep p hp
    rw [hchan]
    exact h.chan p hp'
  noZombie := by
    intro p q hp hq hz
    have hp' := (hasleep p hp).1
    exact h.noZombie p q hp' (hparent q p hq hp') (hzombie q hz)

/-- The parent of the process that exits is woken, and so is the first process if it gets a zombie;
of the others, no child becomes a zombie. -/
theorem Waiting.exitEnd {c : κ} {p : Slot} (hkin : m.family.Kin) (hwait : m.Waiting)
    (now : RtcDate) : Waiting ({ m with proc := exitSection m.proc p }.sched c p none now) := by
  have hproc : ∀ q ≠ p, ({ m with proc := exitSection m.proc p }.sched c p none now).proc q =
      exitSection m.proc p q := fun q hq => update_of_ne hq ..
  have hself : (({ m with proc := exitSection m.proc p }.sched c p none now).proc p).state =
      .zombie := by
    simp [Machine.sched, setProc, exitSection_state_self]
  -- who sleeps in `wait` afterwards did so before
  have hasleep : ∀ q, ({ m with proc := exitSection m.proc p }.sched c p none now).WaitsAsleep q →
      q ≠ p ∧ m.WaitsAsleep q ∧ (exitSection m.proc p q).state = .sleeping := by
    rintro q ⟨hstate, hresume⟩
    have hq : q ≠ p := by
      rintro rfl
      rw [hself] at hstate
      cases hstate
    rw [hproc q hq] at hstate
    have hthread : ({ m with proc := exitSection m.proc p }.sched c p none now).thread q =
        m.thread q := update_of_ne hq ..
    rw [hthread] at hresume
    rcases exitSection_state hq with heq | ⟨hsleep, -⟩
    · exact ⟨hq, ⟨heq.symm.trans hstate, hresume⟩, hstate⟩
    · exact ⟨hq, ⟨hsleep, hresume⟩, hstate⟩
  constructor
  · intro q hq
    obtain ⟨hqp, hq', -⟩ := hasleep q hq
    rw [hproc q hqp, exitSection_eq]
    exact hwait.chan q hq'
  · intro q r hq hparent hzombie
    obtain ⟨hqp, hq', hsleep⟩ := hasleep q hq
    by_cases hr : r = p
    · -- the new zombie
      subst hr
      have hparent' : (m.proc r).parent = some q := by
        have hne : (m.proc r).parent ≠ some r := fun hp => (hkin.parent r r hp).1 rfl
        simp only [Machine.sched, setProc, update_self] at hparent
        rw [exitSection_eq] at hparent
        simpa [hne] using hparent
      exact exitSection_awake_parent hparent' hsleep (hwait.chan q hq')
    · rw [hproc r hr] at hparent hzombie
      have hzombie' : (m.proc r).state = .zombie := by
        rcases exitSection_state hr with heq | ⟨-, hwoken⟩
        · exact heq.symm.trans hzombie
        · rw [hwoken] at hzombie
          cases hzombie
      rw [exitSection_eq] at hparent
      by_cases hchild : (m.proc r).parent = some p
      · -- a zombie that is passed on
        obtain rfl : initproc = q := by simpa [hchild] using hparent
        exact exitSection_awake_init hchild hzombie' hsleep (hwait.chan _ hq')
      · exact hwait.noZombie q r hq' (by simpa [hchild] using hparent) hzombie'

theorem Waiting.step (h : m.Sane) (hkin : m.family.Kin) (hwait : m.Waiting) (hstep : Step m m') :
    m'.Waiting := by
  have hexecuting : ∀ {c p}, m.cpu c = .process p → (m.proc p).state = .running := h.cpus.executing
  have hchild := h.forks.child
  cases hstep with
  | acquire | skip | leave | back | stutter => exact ⟨hwait.chan, hwait.noZombie⟩
  | switchTo | release | reap | alloc | stackFails | stack | copyFails | copy | forkEnd | exit
  | exitClose | exec | own =>
    refine hwait.frame ?_ ?_ ?_ <;>
      simp only [WaitsAsleep, Machine.switchTo, Machine.release, Machine.reap, Machine.alloc,
        Machine.stack, Machine.copy, Proc.reaped, Proc.alloc, Proc.copy, setProc, setPhase,
        setOwner, record, update_apply]
    · grind -linarith [Phase.child, InSection, Executes]
    · grind -linarith [Phase.child, InSection, Executes]
    · grind -linarith
  | @sched c p chan state r now hin hkind =>
    have hrunning := hexecuting hin.1
    -- it goes to sleep in `wait` only after a pass that found no zombie
    have hpass : r = .wait → chan = some (.proc p) ∧
        ∀ q, (m.proc q).parent = some p → (m.proc q).state ≠ .zombie := by
      rintro rfl
      rcases hkind with ⟨hr, -⟩ | ⟨hr, -⟩ | ⟨-, -, hchan, hnone, -⟩
      · cases hr
      · cases hr
      · exact ⟨hchan, fun q => zombieChild_eq_none hnone⟩
    obtain ⟨hchan, hzombie⟩ := hwait
    constructor <;> simp only [WaitsAsleep, Machine.sched, setProc, update_apply] at * <;>
      grind -linarith
  | @wake t hlock ht =>
    have hsleep : ∀ p, (t p).state = .sleeping → (m.proc p).state = .sleeping := fun p =>
      (ht p).sleeping
    refine hwait.frame (fun p hp => ⟨⟨hsleep p hp.1, hp.2⟩, ?_⟩) (fun q p hq _ => ?_) fun q hq => ?_
    · show (t p).chan = _
      rw [(ht p).record]
    · show (m.proc q).parent = some p
      rw [← hq]
      show _ = (t q).parent
      rw [(ht q).record]
    · rcases (ht q).state with heq | ⟨-, hwoken⟩
      · exact heq.symm.trans hq
      · rw [hwoken] at hq
        cases hq
  | @exitEnd c p now hexec hlock hphase => exact hwait.exitEnd hkin now

/-! ### Runs -/

/-- The counter of pids and the history go together. -/
theorem Step.pids (hstep : Step m m') :
    (m'.nextpid = m.nextpid ∧ creations m'.trace = creations m.trace) ∨
      (m'.nextpid = int (m.nextpid + 1) ∧ creations m'.trace = creations m.trace + 1) := by
  cases hstep with
  | alloc => exact .inr ⟨rfl, creations_created ..⟩
  | forkEnd => exact .inl ⟨rfl, List.countP_cons_of_neg nofun⟩
  | exit => exact .inl ⟨rfl, List.countP_cons_of_neg nofun⟩
  | reap => exact .inl ⟨rfl, List.countP_cons_of_neg nofun⟩
  | _ => exact .inl ⟨rfl, rfl⟩

/-- What holds in a run that has given out few enough pids. -/
structure Told (m : Machine κ) : Prop where
  pids : m.nextpid = int (creations m.trace + 1)
  family : m.family.Ok
  waiting : m.Waiting

theorem Told.step (h : m.Sane) (htold : m.Told) (hstep : Step m m')
    (hcount : creations m'.trace < 2 ^ 31) : m'.Told where
  pids := by
    rcases hstep.pids with ⟨hnext, hcreations⟩ | ⟨hnext, hcreations⟩
    · rw [hnext, hcreations]
      exact htold.pids
    · rw [hnext, hcreations, htold.pids, int_int_add]
      push_cast
      rfl
  family := (hstep.family h htold.pids htold.family.kin hcount).ok htold.family
  waiting := htold.waiting.step h htold.family.kin hstep

omit [DecidableEq κ] in
theorem boot_told (g d : Page) (now : RtcDate) : (boot g d now : Machine κ).Told := by
  have hmember : ∀ q, (boot g d now : Machine κ).family.member q =
      if q = initproc then ⟨.active, 1, none, 0, none⟩ else ⟨.free, 0, none, 0, none⟩ := by
    intro q
    by_cases hq : q = initproc <;>
      simp [boot, family, life, making, hq, Proc.alloc, Proc.zeroed]
  have htrace : (boot g d now : Machine κ).family.trace = [.created 1] := rfl
  have hcreations : creations [.created 1] = 1 := rfl
  refine ⟨?_, ⟨?_, ?_⟩, ?_⟩
  · show (2 : ℤ) = int ((1 : ℕ) + 1)
    rw [int_eq_self (by omega) (by omega)]
    rfl
  · constructor <;> simp only [hmember, htrace] <;> grind -linarith
  · constructor <;> simp only [hmember, htrace, Deliveries] <;> grind -linarith
  · have hasleep : ∀ p, ¬(boot g d now : Machine κ).WaitsAsleep p := by
      rintro p ⟨hstate, -⟩
      by_cases hp : p = initproc
      · simp [boot, hp] at hstate
      · simp [boot, hp, Proc.zeroed] at hstate
    exact ⟨fun p hp => absurd hp (hasleep p), fun p q hp => absurd hp (hasleep p)⟩

theorem run_told {g d : Page} (hgd : g ≠ d) {now : RtcDate} {as : List (κ × Act)}
    (hrun : run next (boot g d now) as = some m)
    (hcount : creations m.trace < 2 ^ 31) : m.Told := by
  have hpreserved : ∀ (s : Machine κ) (a : κ × Act) (s' : Machine κ),
      (s.Sane ∧ (creations s.trace < 2 ^ 31 → s.Told)) → True → s.next a = some s' →
        s'.Sane ∧ (creations s'.trace < 2 ^ 31 → s'.Told) := by
    rintro s a s' ⟨hsane, htold⟩ - hnext
    have hstep := next_step hnext
    refine ⟨hstep.sane hsane, fun hcount => .step hsane (htold ?_) hstep hcount⟩
    rcases hstep.pids with ⟨-, hcreations⟩ | ⟨-, hcreations⟩ <;> omega
  have hinv := run_preserves hpreserved ⟨boot_sane hgd now, fun _ => boot_told g d now⟩
    (along_true _ as) hrun
  exact hinv.2 hcount

/-- **Exit statuses and reaping.** In every run that gives out fewer than 2^31 pids: each child that
a `wait` returned to `P` had been forked by `P`, or by a process that has exited, and then `P` is
the first process; it had called `exit` once, with the status stored; and no other `wait` returned
it. With `ptable.lock` free, no process sleeps in `wait` while a child of it is a zombie. -/
theorem exit_wait (g d : Page) (hgd : g ≠ d) (now : RtcDate) (as : List (κ × Act)) (m : Machine κ)
    (hrun : run next (boot g d now) as = some m) (hcount : creations m.trace < 2 ^ 31) :
    (∀ (later earlier : List Event) (P c s : ℤ),
        m.trace = later ++ Event.waited P c s :: earlier →
      (Event.forked P c ∈ earlier ∨
        P = 1 ∧ ∃ Q x, Event.forked Q c ∈ earlier ∧ Event.exited Q x ∈ earlier) ∧
      Event.exited c s ∈ earlier ∧ (∀ x, Event.exited c x ∈ m.trace → x = s) ∧
      ∀ P' s', Event.waited P' c s' ∉ later ∧ Event.waited P' c s' ∉ earlier) ∧
    (m.lock = none → ∀ p q, m.WaitsAsleep p → (m.proc q).parent = some p →
      (m.proc q).state ≠ .zombie) := by
  have htold := run_told hgd hrun hcount
  refine ⟨fun later earlier P c s hsplit => ?_, fun _ => htold.waiting.noZombie⟩
  have hdeliveries : Deliveries m.trace := htold.family.told.deliveries
  have hdelivery := hdeliveries.delivery hsplit
  have hmem : Event.exited c s ∈ m.trace := by
    rw [hsplit]
    exact List.mem_append_right _ (List.mem_cons_of_mem _ hdelivery.status)
  exact ⟨hdelivery.child, hdelivery.status,
    fun x hx => htold.family.told.exit_inj c x s hx hmem,
    fun P' s' => ⟨hdeliveries.unique hsplit, hdelivery.fresh P' s'⟩⟩

/-- What one CPU does when the first process forks a child, waits for it and gets the status 7. -/
def reapActs : List Act :=
  List.flatten [
    [.acquire, .scan .zero, .resume .zero, .fork .zero, .forkStack (some 2), .forkCopy (some 3)],
    [.forkEnd, .wait .zero, .back, .scan .zero, .resume .zero, .exit 7],
    List.replicate NOFILE .exitClose,
    [.exitEnd .zero, .back],
    List.replicate 63 (.scan .zero),
    [.acquire, .scan .zero, .resume .zero]]

def reapRun : List (Unit × Act) := reapActs.map fun a => ((), a)

theorem exit_wait_reaped :
    ∃ m, run next (boot 0 1 .zero) reapRun = some m ∧
      ∃ earlier, m.trace = Event.waited 1 2 7 :: earlier ∧ Event.exited 2 7 ∈ earlier := by
  have htrace : (run next (boot 0 1 .zero) reapRun).map trace =
      some [.waited 1 2 7, .exited 2 7, .forked 1 2, .created 2, .created 1] := by
    decide +kernel
  obtain ⟨m, hm, htrace⟩ := Option.map_eq_some_iff.mp htrace
  refine ⟨m, hm, _, htrace, ?_⟩
  exact ((exit_wait 0 1 (by decide) .zero reapRun m hm (by rw [htrace]; decide)).1 [] _ 1 2 7
    htrace).2.1

end Xv6.Ptable.Machine
