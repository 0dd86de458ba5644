import Assignments.Xv6.Machine

/-!
# One process, one CPU

What holds along every run of the machine about CPUs, processes and their resources. The state of a
process changes before its CPU has left it, and the lock is taken on one side of `swtch` and given
back on the other, so the invariant is not only about states with the lock free: it says which CPU
holds the lock in terms of what each CPU executes.

* `OnCpus` — who holds the lock, and that a process is `RUNNING` just while one CPU executes it;
* `Forking` — the slots that a `fork` in progress has taken;
* `Resources` — the kernel stacks and page directories that processes have;
* `Step.sane`, `run_sane` — a step keeps the three, and so does a run;
* `one_cpu` — with the lock free, a process is on at most one CPU, is `RUNNING` just if it is on
  one, and owns its stack and its page directory, which `wait` frees only when no CPU runs it.
-/

namespace Xv6.Ptable

open Framework Function

/-- The states of a process with a kernel stack and a page directory. -/
def ProcState.Alive : ProcState → Prop
  | .runnable | .running | .sleeping | .zombie => True
  | .unused | .embryo => False

namespace Machine

variable {κ : Type}

/-! ### CPUs and the lock -/

/-- The CPU `c` holds `ptable.lock`. -/
def Holding (m : Machine κ) (c : κ) : Prop :=
  match m.cpu c with
  | .idle => False
  | .scan _ => True
  | .process p => (m.thread p).resume ≠ none
  | .back _ => True

structure OnCpus (m : Machine κ) : Prop where
  holder : ∀ c, m.lock = some c ↔ m.Holding c
  single : ∀ c c' p, (m.cpu c).proc = some p → (m.cpu c').proc = some p → c = c'
  running : ∀ p, (m.proc p).state = .running ↔ ∃ c, m.cpu c = .process p
  /-- A process that is not running is inside a section. -/
  ready : ∀ p, (m.proc p).state = .runnable ∨ (m.proc p).state = .sleeping →
    (m.thread p).resume ≠ none

variable {m m' : Machine κ} {c : κ} {p : Slot}

theorem holding_congr (hcpu : m'.cpu c = m.cpu c)
    (hresume : ∀ p, m.cpu c = .process p → (m'.thread p).resume = (m.thread p).resume) :
    m'.Holding c ↔ m.Holding c := by
  unfold Holding
  rw [hcpu]
  cases hc : m.cpu c with
  | idle => rfl
  | scan k => rfl
  | process p =>
    dsimp only
    rw [hresume p hc]
  | back p => rfl

theorem InSection.lock_cases (hin : m.InSection c p) : m.lock = none ∨ m.lock = some c :=
  hin.2.symm.imp And.left And.left

namespace OnCpus

theorem executing (h : m.OnCpus) (hcpu : m.cpu c = .process p) : (m.proc p).state = .running :=
  (h.running p).mpr ⟨c, hcpu⟩

/-- The scheduler holds the lock in its loop, and when it is back from a process. -/
theorem locked (h : m.OnCpus) {k : ℕ} (hcpu : m.cpu c = .scan k ∨ m.cpu c = .back p) :
    m.lock = some c := by
  rw [h.holder, Holding]
  rcases hcpu with hcpu | hcpu <;> simp [hcpu]

/-- A process that a CPU has is executed by it, or the CPU is back from it. -/
theorem proc_cases (h : m.OnCpus) (hp : (m.cpu c).proc = some p) :
    m.cpu c = .process p ∨ m.cpu c = .back p ∧ m.lock = some c := by
  cases hcpu : m.cpu c with
  | idle | scan k => simp [hcpu, Cpu.proc] at hp
  | process q =>
    rw [hcpu] at hp
    exact .inl (congrArg _ (Option.some.inj hp))
  | back q =>
    rw [hcpu] at hp
    exact .inr ⟨congrArg _ (Option.some.inj hp), h.locked (k := 0) (.inr hcpu)⟩

theorem elsewhere (h : m.OnCpus) {c' : κ} (hp : (m.cpu c).proc = some p) (hc : c' ≠ c) :
    (m.cpu c').proc ≠ some p := fun hp' => hc (h.single c' c p hp' hp)

/-- **One CPU acts.** What a step of the CPU `c` has to leave in order on the others, when `c` has
the lock before or after it. -/
theorem act (h : m.OnCpus) (hcpu : ∀ c' ≠ c, m'.cpu c' = m.cpu c')
    (hlock : m.lock = none ∨ m.lock = some c) (hlock' : m'.lock = none ∨ m'.lock = some c)
    (hholds : m'.lock = some c ↔ m'.Holding c)
    (hother : ∀ c' ≠ c, ∀ p, m.cpu c' = .process p →
      (m'.thread p).resume = (m.thread p).resume ∧ (m'.proc p).state = .running)
    (hproc : ∀ p, (m'.cpu c).proc = some p → ∀ c' ≠ c, (m.cpu c').proc ≠ some p)
    (hrunning : ∀ p, (∀ c' ≠ c, m.cpu c' ≠ .process p) →
      ((m'.proc p).state = .running ↔ m'.cpu c = .process p))
    (hready : ∀ p, (m'.proc p).state = .runnable ∨ (m'.proc p).state = .sleeping →
      (m'.thread p).resume ≠ none) : m'.OnCpus where
  holder := by
    intro c'
    by_cases hc : c' = c
    · rw [hc]
      exact hholds
    · -- another CPU holds the lock neither before nor after
      have hne : ∀ {l : Option κ}, l = none ∨ l = some c → l ≠ some c' := by
        rintro l (rfl | rfl)
        · exact nofun
        · exact fun heq => hc (Option.some.inj heq).symm
      rw [holding_congr (hcpu c' hc) fun p hp => (hother c' hc p hp).1, ← h.holder]
      exact iff_of_false (hne hlock') (hne hlock)
  single := by
    intro c₁ c₂ p h₁ h₂
    by_cases hc₁ : c₁ = c
    · by_cases hc₂ : c₂ = c
      · rw [hc₁, hc₂]
      · rw [hc₁] at h₁
        rw [hcpu c₂ hc₂] at h₂
        exact absurd h₂ (hproc p h₁ c₂ hc₂)
    · rw [hcpu c₁ hc₁] at h₁
      by_cases hc₂ : c₂ = c
      · rw [hc₂] at h₂
        exact absurd h₁ (hproc p h₂ c₁ hc₁)
      · rw [hcpu c₂ hc₂] at h₂
        exact h.single c₁ c₂ p h₁ h₂
  running := by
    intro p
    by_cases hex : ∃ c', c' ≠ c ∧ m.cpu c' = .process p
    · obtain ⟨c', hc', hp⟩ := hex
      exact iff_of_true (hother c' hc' p hp).2 ⟨c', (hcpu c' hc').trans hp⟩
    · have hnone : ∀ c' ≠ c, m.cpu c' ≠ .process p := fun c' hc' hp => hex ⟨c', hc', hp⟩
      rw [hrunning p hnone]
      refine ⟨fun hp => ⟨c, hp⟩, fun ⟨c', hp⟩ => ?_⟩
      by_cases hc : c' = c
      · rw [← hc]
        exact hp
      · rw [hcpu c' hc] at hp
        exact absurd hp (hnone c' hc)
  ready := hready

/-- **No CPU changes.** A step that leaves the lock alone and starts or stops no process. -/
theorem frame (h : m.OnCpus) (hcpu : m'.cpu = m.cpu) (hlock : m'.lock = m.lock)
    (hresume : ∀ p, (m.proc p).state = .running → (m'.thread p).resume = (m.thread p).resume)
    (hrunning : ∀ p, (m'.proc p).state = .running ↔ (m.proc p).state = .running)
    (hready : ∀ p, (m'.proc p).state = .runnable ∨ (m'.proc p).state = .sleeping →
      (m'.thread p).resume ≠ none) : m'.OnCpus where
  holder := by
    intro c
    rw [hlock, holding_congr (congrFun hcpu c) fun p hp => hresume p (h.executing hp)]
    exact h.holder c
  single := by
    rw [hcpu]
    exact h.single
  running := by
    intro p
    rw [hrunning, hcpu]
    exact h.running p
  ready := hready

variable [DecidableEq κ]

/-- The steps of a scheduler that switch to nobody. -/
theorem scheduler (h : m.OnCpus) {l : Option κ} {x : Cpu} (hlock : m.lock = none ∨ m.lock = some c)
    (hx : l = none ∧ x = .idle ∨ l = some c ∧ ∃ k, x = .scan k) (hc : ∀ p, m.cpu c ≠ .process p) :
    OnCpus { m with lock := l, cpu := update m.cpu c x } := by
  have hself : update m.cpu c x c = x := update_self ..
  refine h.act (c := c) (fun c' hc' => update_of_ne hc' ..) hlock (hx.imp And.left And.left)
    ?_ (fun c' _ p hp => ⟨rfl, h.executing hp⟩) ?_ ?_ h.ready
  · unfold Holding
    rcases hx with ⟨rfl, rfl⟩ | ⟨rfl, k, rfl⟩
    · simp
    · simp
  · intro p hp
    rcases hx with ⟨-, rfl⟩ | ⟨-, k, rfl⟩
    · simp [Cpu.proc] at hp
    · simp [Cpu.proc] at hp
  · intro p hnone
    refine iff_of_false (fun hrun => ?_) ?_
    · obtain ⟨c', hp⟩ := (h.running p).mp hrun
      by_cases hc' : c' = c
      · exact hc p (hc' ▸ hp)
      · exact hnone c' hc' hp
    · rcases hx with ⟨-, rfl⟩ | ⟨-, k, rfl⟩
      · simp
      · simp

/-- The scheduler of `c` switches to `p`. -/
theorem switchTo (h : m.OnCpus) {now : RtcDate} {k : ℕ} (hcpu : m.cpu c = .scan k)
    (hstate : (m.proc p).state = .runnable) : (m.switchTo c p now).OnCpus := by
  have hlock := h.locked (p := p) (.inl hcpu)
  -- nobody is on the way back from `p`, for that needs the lock
  have hfree : ∀ c' ≠ c, (m.cpu c').proc ≠ some p := by
    intro c' hc' hp
    rcases h.proc_cases hp with hp | ⟨-, hlock'⟩
    · have hrun := h.executing hp
      rw [hstate] at hrun
      cases hrun
    · exact hc' (Option.some.inj (hlock'.symm.trans hlock))
  refine h.act (c := c) (fun c' hc' => update_of_ne hc' ..) (.inr hlock) (.inr hlock)
    ?_ ?_ ?_ ?_ ?_
  · refine iff_of_true hlock ?_
    simpa [Holding, Machine.switchTo, setProc] using h.ready p (.inl hstate)
  · intro c' hc' q hq
    refine ⟨rfl, ?_⟩
    have hne : q ≠ p := by
      rintro rfl
      exact hfree c' hc' (by rw [hq]; rfl)
    simpa [Machine.switchTo, setProc, hne] using h.executing hq
  · intro q hq
    obtain rfl : p = q := by simpa [Machine.switchTo, Cpu.proc] using hq
    exact hfree
  · intro q hnone
    by_cases hq : q = p
    · subst hq
      simp [Machine.switchTo, setProc]
    · have hnot : (m.proc q).state ≠ .running := by
        intro hrun
        obtain ⟨c', hp⟩ := (h.running q).mp hrun
        by_cases hc' : c' = c
        · rw [hc', hcpu] at hp
          cases hp
        · exact hnone c' hc' hp
      simpa [Machine.switchTo, setProc, hq, Ne.symm hq] using hnot
  · intro q hq
    by_cases hqp : q = p
    · subst hqp
      simp [Machine.switchTo, setProc] at hq
    · refine h.ready q ?_
      simpa [Machine.switchTo, setProc, hqp] using hq

/-- A process gives up the CPU; others may be woken. -/
theorem switchOut (h : m.OnCpus) (hin : m.InSection c p)
    (hcpu : m'.cpu = update m.cpu c (.back p)) (hlock : m'.lock = some c)
    (hresume : ∀ q ≠ p, (m'.thread q).resume = (m.thread q).resume)
    (hself : (m'.proc p).state = .zombie ∨
      ((m'.proc p).state = .runnable ∨ (m'.proc p).state = .sleeping) ∧
        (m'.thread p).resume ≠ none)
    (hothers : ∀ q ≠ p, (m'.proc q).state = (m.proc q).state ∨
      (m.proc q).state = .sleeping ∧ (m'.proc q).state = .runnable) : m'.OnCpus := by
  have hproc : (m.cpu c).proc = some p := by rw [hin.1]; rfl
  have hne : ∀ c' ≠ c, ∀ q, m.cpu c' = .process q → q ≠ p := by
    rintro c' hc' q hq rfl
    exact h.elsewhere hproc hc' (by rw [hq]; rfl)
  have hrun : ∀ q ≠ p, ((m'.proc q).state = .running ↔ (m.proc q).state = .running) := by
    intro q hq
    rcases hothers q hq with heq | ⟨hsleep, hwoken⟩
    · rw [heq]
    · rw [hsleep, hwoken]
      exact iff_of_false nofun nofun
  refine h.act (c := c) (fun c' hc' => ?_) (hin.lock_cases) (.inr hlock) ?_ ?_ ?_ ?_ ?_
  · rw [hcpu, update_of_ne hc']
  · refine iff_of_true hlock ?_
    simp [Holding, hcpu]
  · intro c' hc' q hq
    have hqp := hne c' hc' q hq
    exact ⟨hresume q hqp, (hrun q hqp).mpr (h.executing hq)⟩
  · intro q hq c' hc'
    obtain rfl : p = q := by simpa [hcpu, Cpu.proc] using hq
    exact h.elsewhere hproc hc'
  · intro q hnone
    refine iff_of_false (fun hq => ?_) (by simp [hcpu])
    by_cases hqp : q = p
    · subst hqp
      rcases hself with hz | ⟨hr | hs, -⟩ <;> simp_all
    · obtain ⟨c', hc'⟩ := (h.running q).mp ((hrun q hqp).mp hq)
      by_cases hcc : c' = c
      · rw [hcc, hin.1] at hc'
        cases hc'
        exact hqp rfl
      · exact hnone c' hcc hc'
  · intro q hq
    by_cases hqp : q = p
    · subst hqp
      rcases hself with hz | ⟨-, hres⟩
      · rw [hz] at hq
        rcases hq with hq | hq <;> cases hq
      · exact hres
    · rw [hresume q hqp]
      refine h.ready q ?_
      rcases hothers q hqp with heq | ⟨hsleep, -⟩
      · rwa [heq] at hq
      · exact .inr hsleep

/-- A process leaves its section; slots of processes that do not run may become free. -/
theorem leaveSection (h : m.OnCpus) (hin : m.InSection c p) (hcpu : m'.cpu = m.cpu)
    (hlock : m'.lock = none) (hself : (m'.thread p).resume = none)
    (hresume : ∀ q ≠ p, (m'.thread q).resume = (m.thread q).resume)
    (hstate : ∀ q, (m'.proc q).state = (m.proc q).state ∨
      (m.proc q).state ≠ .running ∧ (m'.proc q).state = .unused) : m'.OnCpus := by
  have hproc : (m.cpu c).proc = some p := by rw [hin.1]; rfl
  have hrun : ∀ q, ((m'.proc q).state = .running ↔ (m.proc q).state = .running) := by
    intro q
    rcases hstate q with heq | ⟨hnot, hunused⟩
    · rw [heq]
    · rw [hunused]
      exact iff_of_false nofun hnot
  refine h.act (c := c) (fun c' _ => congrFun hcpu c') (hin.lock_cases) (.inl hlock) ?_ ?_ ?_ ?_ ?_
  · rw [hlock]
    refine iff_of_false nofun ?_
    simp [Holding, hcpu, hin.1, hself]
  · intro c' hc' q hq
    have hqp : q ≠ p := by
      rintro rfl
      exact h.elsewhere hproc hc' (by rw [hq]; rfl)
    exact ⟨hresume q hqp, (hrun q).mpr (h.executing hq)⟩
  · intro q hq c' hc'
    rw [hcpu] at hq
    exact h.elsewhere hq hc'
  · intro q hnone
    rw [hrun, h.running, hcpu]
    refine ⟨fun ⟨c', hc'⟩ => ?_, fun hc' => ⟨c, hc'⟩⟩
    by_cases hcc : c' = c
    · exact hcc ▸ hc'
    · exact absurd hc' (hnone c' hcc)
  · intro q hq
    have hq' : (m.proc q).state = .runnable ∨ (m.proc q).state = .sleeping := by
      rcases hstate q with heq | ⟨-, hunused⟩
      · rwa [heq] at hq
      · rw [hunused] at hq
        rcases hq with hq | hq <;> cases hq
    have hqp : q ≠ p := by
      rintro rfl
      have hrunning := h.executing hin.1
      rw [hrunning] at hq'
      rcases hq' with hq' | hq' <;> cases hq'
    rw [hresume q hqp]
    exact h.ready q hq'

end OnCpus

/-! ### Forks in progress -/

structure Forking (m : Machine κ) : Prop where
  child : ∀ p q, (m.thread p).phase.child = some q →
    (m.proc q).state = .embryo ∧ ((m.proc p).state = .running ∨ (m.proc p).state = .runnable)
  unique : ∀ p p' q, (m.thread p).phase.child = some q → (m.thread p').phase.child = some q → p = p'
  /-- With its stack, the child has a place to start. -/
  stacked : ∀ p q, (m.thread p).phase = .forkCopy q ∨ (m.thread p).phase = .forkEnd q →
    m.thread q = ⟨.user, some .forkret⟩
  waiting : ∀ p, (m.thread p).resume = some .wait → (m.thread p).phase = .user

/-- Nobody else is making the same child. -/
theorem Forking.parent (h : m.Forking) {q : Slot} (hp : (m.thread p).phase.child = some q)
    (p' : Slot) : ((m.thread p').phase = .forkCopy q → p' = p) ∧
      ((m.thread p').phase = .forkEnd q → p' = p) :=
  ⟨fun hp' => h.unique p' p q (by rw [hp']; rfl) hp,
    fun hp' => h.unique p' p q (by rw [hp']; rfl) hp⟩

/-! ### Kernel stacks and page directories -/

def OwnsStack (m : Machine κ) (p : Slot) : Prop :=
  ∃ g, (m.proc p).kstack = some g ∧ m.owner g = some (.kstack p)

def OwnsPgdir (m : Machine κ) (p : Slot) : Prop :=
  ∃ d, (m.proc p).pgdir = some d ∧ m.owner d = some (.pgdir p)

structure Resources (m : Machine κ) : Prop where
  kstack : ∀ p, (m.proc p).state.Alive → m.OwnsStack p
  pgdir : ∀ p, (m.proc p).state.Alive → m.OwnsPgdir p
  /-- A `fork` in progress has them, too, as far as it has come. -/
  childStack : ∀ p q, (m.thread p).phase = .forkCopy q ∨ (m.thread p).phase = .forkEnd q →
    m.OwnsStack q
  childPgdir : ∀ p q, (m.thread p).phase = .forkEnd q → m.OwnsPgdir q

structure Sane (m : Machine κ) : Prop where
  cpus : m.OnCpus
  forks : m.Forking
  resources : m.Resources

section Steps

variable [DecidableEq κ]

theorem OnCpus.step (h : m.Sane) (hstep : Step m m') : m'.OnCpus := by
  have hcpus := h.cpus
  cases hstep with
  | @acquire c hlock hcpu =>
    exact hcpus.scheduler (.inl hlock) (.inr ⟨rfl, 0, rfl⟩) (by simp [hcpu])
  | @skip c k hcpu =>
    have hlock := hcpus.locked (p := initproc) (.inl hcpu)
    exact hcpus.scheduler (.inr hlock) (.inr ⟨hlock, k + 1, rfl⟩) (by simp [hcpu])
  | switchTo now hcpu hstate => exact hcpus.switchTo hcpu hstate
  | @leave c k hcpu =>
    have hlock := hcpus.locked (p := initproc) (.inl hcpu)
    exact hcpus.scheduler (.inr hlock) (.inl ⟨rfl, rfl⟩) (by simp [hcpu])
  | @back c p hcpu =>
    have hlock := hcpus.locked (k := 0) (.inr hcpu)
    exact hcpus.scheduler (.inr hlock) (.inr ⟨hlock, p + 1, rfl⟩) (by simp [hcpu])
  | @release c p chan hin =>
    refine hcpus.leaveSection hin rfl rfl (by simp [Machine.release]) ?_ ?_
    · intro q hq
      simp [Machine.release, hq, setProc]
    · intro q
      left
      simp only [Machine.release, setProc, update_apply]
      split
      · next hq => rw [hq]
      · rfl
  | @sched c p chan state r now hin hkind =>
    refine hcpus.switchOut hin rfl rfl ?_ ?_ ?_
    · intro q hq
      simp [Machine.sched, hq, setProc]
    · right
      rcases hkind with ⟨-, hs⟩ | ⟨-, hs, -⟩ | ⟨-, hs, -⟩ <;> simp [Machine.sched, setProc, hs]
    · intro q hq
      simp [Machine.sched, hq, setProc]
  | @reap c p q g d chan hin hchild hkstack hpgdir =>
    have hzombie := (zombieChild_eq_some hchild).2
    refine hcpus.leaveSection hin rfl rfl (by simp [Machine.release]) ?_ ?_
    · intro q' hq'
      simp [Machine.release, hq', reap, setProc, setOwner, record]
    · intro q'
      by_cases hq : q' = q
      · right
        subst hq
        simp [Machine.release, reap, setProc, setOwner, record, Proc.reaped, hzombie]
      · left
        simp only [Machine.release, reap, setProc, setOwner, record, update_of_ne hq,
          update_apply]
        split
        · next hqp => rw [hqp]
        · rfl
  | wake hlock ht =>
    refine hcpus.frame rfl rfl (fun _ _ => rfl) (fun p => ?_) fun p hp => ?_
    · rcases (ht p).state with heq | ⟨hsleep, hwoken⟩
      · exact heq ▸ Iff.rfl
      · have hasleep : (m.proc p).state = .sleeping := hsleep
        exact iff_of_false (by simp [hwoken]) (by simp [hasleep])
    · refine hcpus.ready p ?_
      rcases (ht p).state with heq | ⟨hsleep, -⟩
      · exact heq ▸ hp
      · exact .inr hsleep
  | alloc | stackFails | stack | copyFails | copy | forkEnd | exit | exitClose | exec | own =>
    -- the slot of a child is not running, and a child that becomes ready has a place to start
    have hchild := h.forks.child
    have hstart := h.forks.stacked
    refine hcpus.frame rfl rfl ?_ ?_ ?_ <;>
      simp only [Machine.alloc, Machine.stack, Machine.copy, Proc.alloc, Proc.copy, setProc,
        setPhase, setOwner, record, update_apply]
    · grind -linarith [Phase.child, Executes, hcpus.executing]
    · grind -linarith [Phase.child, Executes, hcpus.executing]
    · grind -linarith [Phase.child, Executes, hcpus.ready]
  | @exitEnd c p now hexec hlock hphase =>
    refine hcpus.switchOut (hexec.inSection hlock) rfl rfl ?_ ?_ ?_
    · intro q hq
      simp [Machine.sched, hq, setProc]
    · left
      simp [Machine.sched, setProc, exitSection_state_self]
    · intro q hq
      simp only [Machine.sched, setProc, update_of_ne hq]
      exact exitSection_state hq
  | stutter => exact hcpus

/-- A slot whose state changes is not the child of a fork in progress, or the step is part of that
fork; a process that stops running is in the middle of none. -/
theorem Forking.step (h : m.Sane) (hstep : Step m m') : m'.Forking := by
  obtain ⟨hchild, hunique, hstacked, hwaiting⟩ := h.forks
  have hrun : ∀ {c p}, m.cpu c = .process p → (m.proc p).state = .running := h.cpus.executing
  cases hstep with
  | acquire | skip | leave | back | stutter => exact ⟨hchild, hunique, hstacked, hwaiting⟩
  | switchTo now hcpu hstate =>
    refine ⟨?_, hunique, hstacked, hwaiting⟩
    simp only [Machine.switchTo, setProc, update_apply]
    grind -linarith
  | release chan hin | sched chan _ _ _ hin =>
    have hrunning := hrun hin.1
    constructor <;> simp only [Machine.release, Machine.sched, setProc, update_apply] <;>
      grind -linarith [Phase.child]
  | reap chan hin hfound hkstack hpgdir =>
    have hrunning := hrun hin.1
    have hzombie := (zombieChild_eq_some hfound).2
    constructor <;> simp only [Machine.release, reap, setProc, setOwner, record, Proc.reaped,
      update_apply] <;> grind -linarith [Phase.child]
  | wake hlock ht =>
    refine ⟨fun p q hq => ?_, hunique, hstacked, hwaiting⟩
    have hp := (ht p).state
    have hq := (ht q).state
    grind -linarith
  | alloc _ hexec | stackFails hexec | stack hexec | copyFails hexec | copy hexec | forkEnd hexec
  | exit _ hexec | exitClose hexec | exec _ _ hexec | own _ _ _ hexec =>
    have hrunning := hrun hexec.1
    have houtside := hexec.2
    constructor <;> simp only [Machine.alloc, Machine.stack, Machine.copy, Proc.alloc, Proc.copy,
      setProc, setPhase, setOwner, record, update_apply] <;> grind -linarith [Phase.child]
  | @exitEnd c p now hexec hlock hphase =>
    have hrunning := hrun hexec.1
    have hothers := fun q (hq : q ≠ p) => exitSection_state (t := m.proc) hq
    constructor <;> simp only [Machine.sched, setProc, update_apply] <;>
      grind -linarith [Phase.child]

end Steps

/-! ### Pages -/

section Pages

theorem OwnsStack.congr (h : m.OwnsStack p) (hkstack : (m'.proc p).kstack = (m.proc p).kstack)
    (howner : ∀ g, m.owner g = some (.kstack p) → m'.owner g = some (.kstack p)) :
    m'.OwnsStack p := by
  obtain ⟨g, hg, hown⟩ := h
  exact ⟨g, hkstack.trans hg, howner g hown⟩

theorem OwnsPgdir.congr (h : m.OwnsPgdir p) (hpgdir : (m'.proc p).pgdir = (m.proc p).pgdir)
    (howner : ∀ d, m.owner d = some (.pgdir p) → m'.owner d = some (.pgdir p)) :
    m'.OwnsPgdir p := by
  obtain ⟨d, hd, hown⟩ := h
  exact ⟨d, hpgdir.trans hd, howner d hown⟩

/-- **No page changes hands.** A step that changes no page, and after which nobody needs pages that
did not before. -/
theorem Resources.frame (h : m.Resources)
    (hrecord : ∀ p, (m'.proc p).kstack = (m.proc p).kstack ∧ (m'.proc p).pgdir = (m.proc p).pgdir)
    (howner : m'.owner = m.owner)
    (halive : ∀ p, (m'.proc p).state.Alive →
      (m.proc p).state.Alive ∨ ∃ q, (m.thread q).phase = .forkEnd p)
    (hphase : ∀ p q, ((m'.thread p).phase = .forkCopy q → (m.thread p).phase = .forkCopy q) ∧
      ((m'.thread p).phase = .forkEnd q → (m.thread p).phase = .forkEnd q)) : m'.Resources := by
  have hstack : ∀ p, m.OwnsStack p → m'.OwnsStack p := fun p hp =>
    hp.congr (hrecord p).1 fun g hg => by rw [howner, hg]
  have hpgdir : ∀ p, m.OwnsPgdir p → m'.OwnsPgdir p := fun p hp =>
    hp.congr (hrecord p).2 fun g hg => by rw [howner, hg]
  refine ⟨fun p hp => hstack p ?_, fun p hp => hpgdir p ?_, fun p q hq => hstack q ?_,
    fun p q hq => hpgdir q (h.childPgdir p q ((hphase p q).2 hq))⟩
  · rcases halive p hp with hp | ⟨q, hq⟩
    · exact h.kstack p hp
    · exact h.childStack q p (.inr hq)
  · rcases halive p hp with hp | ⟨q, hq⟩
    · exact h.pgdir p hp
    · exact h.childPgdir q p hq
  · exact h.childStack p q (hq.imp (hphase p q).1 (hphase p q).2)

/-- **The pages of one slot.** A step that changes only pages of the slot `np`, and leaves it with
those it needs. -/
theorem Resources.move (h : m.Resources) (np : Slot)
    (hrecord : ∀ p ≠ np, (m'.proc p).kstack = (m.proc p).kstack ∧
      (m'.proc p).pgdir = (m.proc p).pgdir)
    (howner : ∀ g use, m.owner g = some use → use ≠ .kstack np → use ≠ .pgdir np →
      m'.owner g = some use)
    (halive : ∀ p ≠ np, (m'.proc p).state.Alive → (m.proc p).state.Alive)
    (hphase : ∀ p, ∀ q ≠ np, ((m'.thread p).phase = .forkCopy q →
      (m.thread p).phase = .forkCopy q) ∧
      ((m'.thread p).phase = .forkEnd q → (m.thread p).phase = .forkEnd q))
    (hself : (m'.proc np).state.Alive → m'.OwnsStack np ∧ m'.OwnsPgdir np)
    (hchild : ∀ p, ((m'.thread p).phase = .forkCopy np → m'.OwnsStack np) ∧
      ((m'.thread p).phase = .forkEnd np → m'.OwnsStack np ∧ m'.OwnsPgdir np)) : m'.Resources := by
  have hstack : ∀ p ≠ np, m.OwnsStack p → m'.OwnsStack p := fun p hne hp =>
    hp.congr (hrecord p hne).1 fun g hg => howner g _ hg (by simpa using hne) nofun
  have hpgdir : ∀ p ≠ np, m.OwnsPgdir p → m'.OwnsPgdir p := fun p hne hp =>
    hp.congr (hrecord p hne).2 fun g hg => howner g _ hg nofun (by simpa using hne)
  refine ⟨fun p hp => ?_, fun p hp => ?_, fun p q hq => ?_, fun p q hq => ?_⟩
  · by_cases hne : p = np
    · exact hne ▸ (hself (hne ▸ hp)).1
    · exact hstack p hne (h.kstack p (halive p hne hp))
  · by_cases hne : p = np
    · exact hne ▸ (hself (hne ▸ hp)).2
    · exact hpgdir p hne (h.pgdir p (halive p hne hp))
  · by_cases hne : q = np
    · subst hne
      exact hq.elim (hchild p).1 fun hq => ((hchild p).2 hq).1
    · exact hstack q hne (h.childStack p q (hq.imp (hphase p q hne).1 (hphase p q hne).2))
  · by_cases hne : q = np
    · subst hne
      exact ((hchild p).2 hq).2
    · exact hpgdir q hne (h.childPgdir p q ((hphase p q hne).2 hq))

variable [DecidableEq κ]

theorem Resources.step (h : m.Sane) (hstep : Step m m') : m'.Resources := by
  have hres := h.resources
  cases hstep with
  | acquire | skip | leave | back | stutter =>
    exact ⟨hres.kstack, hres.pgdir, hres.childStack, hres.childPgdir⟩
  | switchTo | release | sched | alloc | forkEnd | exit | exitClose | own =>
    -- nobody gets to need pages but a child that has them
    refine hres.frame ?_ rfl ?_ ?_ <;>
      simp only [Machine.switchTo, Machine.release, Machine.sched, Machine.alloc, Proc.alloc,
        setProc, setPhase, record, update_apply]
    · grind -linarith
    · grind -linarith [ProcState.Alive, InSection, h.cpus.executing]
    · grind -linarith
  | @wake t hlock ht =>
    refine hres.frame (fun p => ?_) rfl (fun p hp => .inl ?_) fun p q => ⟨id, id⟩
    · show (t p).kstack = _ ∧ (t p).pgdir = _
      rw [(ht p).record]
      exact ⟨rfl, rfl⟩
    · rcases (ht p).state with heq | ⟨hsleep, -⟩
      · exact heq ▸ hp
      · exact (hsleep : (m.proc p).state = _) ▸ trivial
  | @exitEnd c p now hexec hlock hphase =>
    refine hres.frame ?_ rfl ?_ ?_ <;>
      simp only [Machine.sched, setProc, update_apply]
    · intro q
      split
      · next hq =>
        rw [exitSection_eq, hq]
        exact ⟨rfl, rfl⟩
      · rw [exitSection_eq]
        exact ⟨rfl, rfl⟩
    · intro q hq
      left
      by_cases hqp : q = p
      · rw [hqp, h.cpus.executing hexec.1]
        trivial
      · rw [if_neg hqp] at hq
        rcases exitSection_state hqp with heq | ⟨hsleep, -⟩
        · exact heq ▸ hq
        · exact hsleep ▸ trivial
    · grind -linarith
  | @stackFails c p np hexec hphase | @stack c p np _ hexec hphase
      | @copyFails c p np _ hexec hphase
  | @copy c p np _ hexec hphase =>
    have hnp := (h.forks.child p np (by rw [hphase]; rfl)).1
    have hparent := h.forks.parent (p := p) (q := np) (by rw [hphase]; rfl)
    have hstack := hres.childStack p np
    refine hres.move np ?_ ?_ ?_ ?_ ?_ ?_ <;>
      simp only [OwnsStack, OwnsPgdir, Machine.stack, Machine.copy, setProc, setPhase, setOwner,
        Proc.copy, update_apply] at hstack ⊢
    · grind -linarith
    · grind -linarith
    · grind -linarith
    · grind -linarith
    · grind -linarith [ProcState.Alive]
    · grind -linarith
  | @exec c p old d sz name hexec hphase hpgdir hfree =>
    have hrunning := h.cpus.executing hexec.1
    obtain ⟨g, hg, hown⟩ := hres.kstack p (by rw [hrunning]; trivial)
    obtain ⟨d', hd', hown'⟩ := hres.pgdir p (by rw [hrunning]; trivial)
    have hchild := h.forks.child
    refine hres.move p ?_ ?_ ?_ ?_ ?_ ?_ <;>
      simp only [OwnsStack, OwnsPgdir, setProc, setOwner, update_apply]
    · grind -linarith
    · grind -linarith
    · grind -linarith
    · grind -linarith
    · grind -linarith
    · grind -linarith [Phase.child]
  | @reap c p q g d chan hin hfound hkstack hpgdir =>
    have hzombie := (zombieChild_eq_some hfound).2
    obtain ⟨g', hg', hown⟩ := hres.kstack q (by rw [hzombie]; trivial)
    obtain ⟨d', hd', hown'⟩ := hres.pgdir q (by rw [hzombie]; trivial)
    have hchild := h.forks.child
    refine hres.move q ?_ ?_ ?_ ?_ ?_ ?_ <;>
      simp only [setProc, setOwner, Machine.release, Machine.reap, record, Proc.reaped,
        update_apply]
    · grind -linarith
    · grind -linarith
    · grind -linarith
    · grind -linarith
    · grind -linarith [ProcState.Alive]
    · grind -linarith [Phase.child]

end Pages

/-! ### Runs -/

section Runs

variable [DecidableEq κ]

theorem Step.sane (h : m.Sane) (hstep : Step m m') : m'.Sane :=
  ⟨.step h hstep, .step h hstep, .step h hstep⟩

omit [DecidableEq κ] in
theorem boot_phase (g d : Page) (now : RtcDate) (p : Slot) :
    ((boot g d now : Machine κ).thread p).phase = .user := by
  by_cases hp : p = initproc
  · simp [boot, hp]
  · simp [boot, hp]

omit [DecidableEq κ] in
theorem boot_sane {g d : Page} (hgd : g ≠ d) (now : RtcDate) : (boot g d now : Machine κ).Sane where
  cpus :=
    { holder := fun c => iff_of_false nofun id
      single := nofun
      running := by
        intro p
        refine iff_of_false ?_ nofun
        by_cases hp : p = initproc
        · simp [boot, hp]
        · simp [boot, hp, Proc.zeroed]
      ready := by
        intro p hp
        by_cases hinit : p = initproc
        · simp [boot, hinit]
        · simp [boot, hinit, Proc.zeroed] at hp }
  forks := by
    refine ⟨?_, ?_, ?_, fun p _ => boot_phase g d now p⟩ <;> simp [boot_phase, Phase.child]
  resources := by
    have halive : ∀ p, ((boot g d now : Machine κ).proc p).state.Alive → p = initproc := by
      intro p hp
      by_contra hinit
      simp [boot, hinit, Proc.zeroed, ProcState.Alive] at hp
    refine ⟨fun p hp => ?_, fun p hp => ?_, ?_, ?_⟩
    · rw [halive p hp]
      exact ⟨g, by simp [boot], by simp [boot, hgd]⟩
    · rw [halive p hp]
      exact ⟨d, by simp [boot], by simp [boot]⟩
    · simp [boot_phase]
    · simp [boot_phase]

theorem run_sane {g d : Page} (hgd : g ≠ d) {now : RtcDate} {as : List (κ × Act)}
    (hrun : run next (boot g d now) as = some m) : m.Sane :=
  run_preserves (fun _ _ _ h _ hnext => Step.sane h (next_step hnext)) (boot_sane hgd now)
    (along_true _ as) hrun

omit [DecidableEq κ] in
/-- With the lock free, a process that a CPU has is executed by it. -/
theorem OnCpus.proc_eq_some (h : m.OnCpus) (hlock : m.lock = none) :
    (m.cpu c).proc = some p ↔ m.cpu c = .process p := by
  refine ⟨fun hp => (h.proc_cases hp).resolve_right fun hback => ?_, fun hp => by rw [hp]; rfl⟩
  rw [hlock] at hback
  cases hback.2

/-- A process whose pages `wait` frees is a zombie, and no CPU is on its way back from it. -/
theorem Sane.freed (h : m.Sane) {now : RtcDate} {a : Act} (ha : a = .wait now ∨ a = .resume now)
    (hnext : m.next (c, a) = some m') {g : Page} {q : Slot}
    (hown : m.owner g = some (.kstack q) ∨ m.owner g = some (.pgdir q))
    (hfreed : m'.owner g = none) : (m.proc q).state = .zombie ∧ ∀ c', (m.cpu c').proc ≠ some q := by
  have hchanged : m'.owner ≠ m.owner := by
    intro heq
    rw [heq] at hfreed
    rcases hown with hown | hown <;> rw [hfreed] at hown <;> cases hown
  obtain ⟨p, chan, hin, rfl | ⟨-, hpass⟩⟩ := next_waitPass ha hnext
  · exact absurd rfl hchanged
  rcases waitPass_cases chan now hpass with ⟨z, s, t, hz, hs, ht, rfl⟩ | rfl | ⟨-, rfl⟩
  · have hzombie := (zombieChild_eq_some hz).2
    -- the page is the stack or the page directory of the zombie, so that is whose page it is
    obtain rfl : q = z := by
      obtain ⟨s', hs', howns⟩ := h.resources.kstack z (by rw [hzombie]; trivial)
      obtain ⟨t', ht', hownt⟩ := h.resources.pgdir z (by rw [hzombie]; trivial)
      obtain rfl := Option.some.inj (hs.symm.trans hs')
      obtain rfl := Option.some.inj (ht.symm.trans ht')
      have hpage : g = s ∨ g = t := by
        by_contra hne
        rw [not_or] at hne
        simp only [Machine.release, reap, setOwner, setProc, record,
          update_of_ne hne.1, update_of_ne hne.2] at hfreed
        rcases hown with hown | hown <;> rw [hfreed] at hown <;> cases hown
      rcases hpage with rfl | rfl
      · rw [howns] at hown
        simpa [eq_comm] using hown
      · rw [hownt] at hown
        simpa [eq_comm] using hown
    refine ⟨hzombie, fun c' hc' => ?_⟩
    rcases h.cpus.proc_cases hc' with hcpu | ⟨hcpu, hheld⟩
    · rw [h.cpus.executing hcpu] at hzombie
      cases hzombie
    · -- on its way back it would hold the lock, which is free or held by the CPU that waits
      rcases hin.lock_cases with hlock | hlock
      · rw [hlock] at hheld
        cases hheld
      · obtain rfl := Option.some.inj (hlock.symm.trans hheld)
        rw [hin.1] at hcpu
        cases hcpu
  · exact absurd rfl hchanged
  · exact absurd rfl hchanged

/-- **One process, one CPU.** In every reachable state with `ptable.lock` free a process is the
`c->proc` of at most one CPU, it is `RUNNING` just if it is that of exactly one, and while it is
`RUNNABLE`, `RUNNING`, `SLEEPING` or a `ZOMBIE` it owns its kernel stack and its page directory. A
page that `wait` frees belongs to a zombie that no CPU is running. -/
theorem one_cpu (g d : Page) (hgd : g ≠ d) (now : RtcDate) (as : List (κ × Act)) (m : Machine κ)
    (hrun : run next (boot g d now) as = some m) :
    (m.lock = none →
      (∀ c c' p, (m.cpu c).proc = some p → (m.cpu c').proc = some p → c = c') ∧
      (∀ p, (m.proc p).state = .running ↔ ∃! c, (m.cpu c).proc = some p) ∧
      (∀ p, (m.proc p).state.Alive → m.OwnsStack p ∧ m.OwnsPgdir p)) ∧
    (∀ c a now m', a = .wait now ∨ a = .resume now → m.next (c, a) = some m' →
      ∀ g p, m.owner g = some (.kstack p) ∨ m.owner g = some (.pgdir p) → m'.owner g = none →
        (m.proc p).state = .zombie ∧ ∀ c', (m.cpu c').proc ≠ some p) := by
  have h := run_sane hgd hrun
  refine ⟨fun hlock => ⟨h.cpus.single, fun p => ?_, fun p hp => ?_⟩, ?_⟩
  · rw [h.cpus.running]
    constructor
    · rintro ⟨c, hc⟩
      have hproc := (h.cpus.proc_eq_some hlock).mpr hc
      exact ⟨c, hproc, fun c' hc' => h.cpus.single c' c p hc' hproc⟩
    · rintro ⟨c, hc, -⟩
      exact ⟨c, (h.cpus.proc_eq_some hlock).mp hc⟩
  · exact ⟨h.resources.kstack p hp, h.resources.pgdir p hp⟩
  · intro c a now m' ha hnext g p hown hfreed
    exact h.freed ha hnext hown hfreed

/-- On two CPUs: the first process forks, and the other CPU switches to the child. -/
def forkAndRun : List (Fin 2 × Act) :=
  [(0, .acquire), (0, .scan .zero), (0, .resume .zero), (0, .fork .zero), (0, .forkStack (some 2)),
    (0, .forkCopy (some 3)), (0, .forkEnd), (1, .acquire), (1, .scan .zero), (1, .scan .zero),
    (1, .resume .zero)]

theorem one_cpu_fork : ∃ m : Machine (Fin 2), run next (boot 0 1 .zero) forkAndRun = some m ∧
    ∀ p : Slot, p < 2 → ∃! c, (m.cpu c).proc = some p := by
  have hok : (run next (boot 0 1 .zero) forkAndRun).any (fun m =>
      m.lock = none ∧ ∀ p : Slot, p < 2 → (m.proc p).state = .running) = true := by decide +kernel
  obtain ⟨m, hrun, hm⟩ := (Option.any_eq_true ..).mp hok
  obtain ⟨hlock, hrunning⟩ := of_decide_eq_true hm
  exact ⟨m, hrun, fun p hp =>
    (((one_cpu 0 1 (by decide) .zero forkAndRun m hrun).1 hlock).2.1 p).mp (hrunning p hp)⟩

end Runs

end Machine

end Xv6.Ptable
