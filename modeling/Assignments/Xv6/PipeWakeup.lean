import Assignments.Xv6.Pipe

/-!
# Readers of a pipe and the data they wait for

Does a reader ever sleep on `&p->nread` while there is something to read, or the last writer is
gone? The pipe's routines use `sleep` and `wakeup` with `p->lock`, so what is to be shown is that
they keep to the discipline of `sleep` and `wakeup`. They do, at every place but one: a `pipewrite`
that finds the pipe full, and its process killed or the read end closed, gives up the lock without
a `wakeup`. If it has stored the first byte of an empty pipe since it took the lock, readers sleep
on.

* `Code.Settled` — what a place in the code owes to the readers;
* `move_disciplined`, `move_settled` — one move;
* `no_reader_asleep` — in every run in which no such `pipewrite` gives up that way, no reader sleeps
  while there is something to read.
-/

namespace Xv6.Pipes

open Framework
open Ptable (Slot Chan)
open Wakeup (System Guarded)

variable {κ ι : Type}

/-- What is owed at a place in the code: someone who has made the pipe readable (`made`) wakes the
readers (`woken`) before it gives up the lock. -/
def Code.Settled (N : Names ι) (made woken : Bool) : Code → Prop
  | .write _ _ _ => True
  | .read _ | .copy _ _ | .close _ => made = false
  | .wakeup .acquire chan _ | .wakeup .wake chan _ => chan = N.nread ∨ made = false
  | .wakeup .release _ _ | .after _ => made = true → woken = true

variable {N : Names ι} {made woken : Bool} {code : Code}

theorem settled_of_not_made (code : Code) : code.Settled N false woken := by
  cases code with
  | wakeup stage chan k => cases stage <;> simp [Code.Settled]
  | _ => simp [Code.Settled]

theorem Code.Settled.mono {woken' : Bool} (h : code.Settled N made woken)
    (hwoken : woken = true → woken' = true) : code.Settled N made woken' := by
  cases code with
  | wakeup stage chan k =>
    cases stage with
    | acquire => exact h
    | wake => exact h
    | release => exact fun hmade => hwoken (h hmade)
  | after k => exact fun hmade => hwoken (h hmade)
  | _ => exact h

namespace State

variable [DecidableEq κ] [DecidableEq ι]

/-- The one who has `p->lock` is in `pipewrite` and is about to return -1: the pipe is full, and the
read end is closed or the process killed. -/
def fails (m : State κ ι) (c : κ) : Bool :=
  match m.sys.cpu c, m.pos with
  | .process p, some (.write _ n i) =>
    i < n ∧ m.sys.data.Full ∧ (m.sys.data.readopen = false ∨ (m.sys.proc p).killed)
  | _, _ => false

/-- A `pipewrite` that is about to return -1 has not stored the first byte of an empty pipe since it
took `p->lock`. -/
def FailsEarly (m : State κ ι) : κ × Label ι → Prop
  | (c, .step) => m.fails c → m.sys.made = true → m.sys.woken = true
  | _ => True

instance (m : State κ ι) : (a : κ × Label ι) → Decidable (m.FailsEarly a)
  | (c, .step) =>
    inferInstanceAs (Decidable (m.fails c → m.sys.made = true → m.sys.woken = true))
  | (_, .call _) | (_, .relock) | (_, .env _) => .isTrue trivial

variable {m m' : State κ ι} {c : κ} {p : Slot}

/-! ### One move -/

omit [DecidableEq κ] [DecidableEq ι] in
/-- What is done with `p->lock` keeps to the discipline. -/
theorem move_disciplined (hcpu : m.sys.cpu c = .process p) (hpos : m.pos = some code)
    (hlock : m.sys.lock N.lock = .code c) (hearly : m.FailsEarly (c, Label.step))
    (hsettled : code.Settled N m.sys.made m.sys.woken) {a : Wakeup.Act ι Pipe}
    (ha : (move N (m.sys.proc p).killed m.sys.data code).act = some a) :
    m.sys.Disciplined N.guarded (c, a) := by
  have hhas : m.sys.Has N.guarded.lk c := hlock
  cases code with
  | write addr n i =>
    simp only [move] at ha
    split at ha
    · next hi =>
      split at ha
      · next hfull =>
        split at ha
        · next hfails =>
          cases ha
          intro _
          refine hearly ?_
          simp only [fails, hcpu, hpos, decide_eq_true_eq]
          exact ⟨hi, hfull, hfails⟩
        · cases ha
      · cases ha
        exact fun _ => .inr hhas
    · cases ha
  | read n =>
    have hmade : m.sys.made = false := hsettled
    simp only [move] at ha
    split at ha
    · next hwait =>
      split at ha
      · cases ha
        intro _
        simp [hmade]
      · cases ha
        refine ⟨fun _ => ⟨rfl, ?_⟩, fun _ => by simp [hmade]⟩
        simp [Names.guarded, hwait.1, hwait.2]
    · cases ha
  | copy n i =>
    simp only [move] at ha
    split at ha
    · cases ha
      exact fun _ => .inr hhas
    · cases ha
  | close writable => cases writable <;> cases ha <;> exact fun _ => .inr hhas
  | wakeup stage chan k =>
    cases stage with
    | acquire => cases ha; trivial
    | wake => cases ha; trivial
    | release =>
      cases ha
      intro heq
      cases heq
  | after k =>
    have howed : m.sys.made = true → m.sys.woken = true := hsettled
    cases k with
    | sleep addr n i =>
      cases ha
      exact ⟨fun heq => absurd heq.symm N.ne, fun _ => howed⟩
    | leave r =>
      cases ha
      exact fun _ => howed

theorem write_made {s s' : System κ ι Pipe} {d : Pipe} (h : act N s c (some (.write d)) = some s') :
    s'.made = (s.made || (N.guarded.cond d && !N.guarded.cond s.data)) := by
  simp only [act, System.next] at h
  split at h <;> cases h
  rfl

theorem wakeup1_woken {s s' : System κ ι Pipe} {chan : Chan}
    (h : act N s c (some (.wakeup1 chan)) = some s') :
    s'.woken = (s.woken || (chan = N.nread && s.Has N.guarded.lk c)) := by
  simp only [act, System.next] at h
  split at h <;> cases h
  rfl

/-- And what is owed is paid, or still owed. -/
theorem move_settled (hlock : m.sys.lock N.lock = .code c)
    (hsettled : code.Settled N m.sys.made m.sys.woken) {s : System κ ι Pipe}
    (hact : act N m.sys c (move N (m.sys.proc p).killed m.sys.data code).act = some s)
    {code' : Code} (hpos' : (move N (m.sys.proc p).killed m.sys.data code).pos = some code') :
    code'.Settled N s.made s.woken := by
  cases code with
  | write addr n i =>
    simp only [move] at hact hpos'
    split at hpos'
    · split at hpos'
      · split at hpos'
        · cases hpos'
        · cases hpos'
          exact .inl rfl
      · cases hpos'
        trivial
    · cases hpos'
      exact .inl rfl
  | read n =>
    simp only [move] at hact hpos'
    split at hpos'
    · split at hpos' <;> cases hpos'
    · next hready =>
      cases hpos'
      rw [if_neg hready] at hact
      cases hact
      exact hsettled
  | copy n i =>
    have hmade : m.sys.made = false := hsettled
    simp only [move] at hact hpos'
    split at hpos'
    · next hmore =>
      cases hpos'
      rw [if_pos hmore] at hact
      have hwrite := write_made hact
      show s.made = false
      rw [hwrite, hmade]
      simp [Names.guarded, hmore.2]
    · next hend =>
      cases hpos'
      rw [if_neg hend] at hact
      cases hact
      exact .inr hmade
  | close writable =>
    have hmade : m.sys.made = false := hsettled
    cases writable with
    | true =>
      cases hpos'
      exact .inl rfl
    | false =>
      cases hpos'
      have hwrite := write_made hact
      refine .inr ?_
      have hcond : N.guarded.cond { m.sys.data with readopen := false } =
          N.guarded.cond m.sys.data := rfl
      rw [hwrite, hmade, hcond]
      simp
  | wakeup stage chan k =>
    cases stage with
    | acquire =>
      cases hpos'
      have hsys : m.sys.next N.guarded (c, .acquire none) = some s := hact
      obtain ⟨hmade, -⟩ := System.next_flags rfl hsys (by simp) (by simp) (by simp)
      rw [Code.Settled, hmade]
      exact hsettled
    | wake =>
      cases hpos'
      have hsys : m.sys.next N.guarded (c, .wakeup1 chan) = some s := hact
      obtain ⟨hmade, -⟩ := System.next_flags rfl hsys (by simp) (by simp) (by simp)
      intro hs
      rcases hsettled with hchan | hnot
      · have hwoken := wakeup1_woken hact
        rw [hwoken]
        simp [Names.guarded, hchan, System.Has, hlock]
      · rw [hmade, hnot] at hs
        cases hs
    | release =>
      cases hpos'
      have hsys : m.sys.next N.guarded (c, .release none) = some s := hact
      obtain ⟨hmade, hwoken⟩ := System.next_flags rfl hsys (by simp) (by simp) (by simp)
      rw [Code.Settled, hmade]
      exact fun hs => hwoken (hsettled hs)
  | after k => cases k <;> cases hpos'

omit [DecidableEq κ] [DecidableEq ι] in
/-- What goes on around the pipe keeps to the discipline. -/
theorem allowed_disciplined {s : System κ ι Pipe} {a : Wakeup.Act ι Pipe}
    (h : Allowed N s c a) : s.Disciplined N.guarded (c, a) := by
  cases a with
  | release l => exact fun heq => absurd heq h.2
  | write d => exact absurd h.2 id
  | sleep chan l => exact ⟨fun heq => absurd heq h.2.1, fun heq => absurd heq h.2.2.2⟩
  | sched state now => exact nofun
  | _ => trivial

/-! ### Whole runs -/

/-- The readers are waited on as they should be, and what is owed to them is known. -/
structure Attended (N : Names ι) (m : State κ ι) : Prop where
  inv : m.sys.Inv N.guarded
  settled : ∀ code, m.pos = some code → code.Settled N m.sys.made m.sys.woken

/-- **One step.** -/
theorem Attended.next {a : κ × Label ι} (h : m.Attended N) (ha : m.FailsEarly a)
    (hnext : m.next N a = some m') : m'.Attended N := by
  obtain ⟨c, a⟩ := a
  cases a with
  | call f =>
    simp only [State.next] at hnext
    split at hnext
    · split at hnext
      · obtain ⟨sys, hsys, rfl⟩ := Option.map_eq_some_iff.mp hnext
        refine ⟨h.inv.next (a := (c, .acquire (some N.lock))) trivial hsys, ?_⟩
        rintro code -
        rw [System.acquire_made hsys]
        exact settled_of_not_made code
      · cases hnext
    · cases hnext
  | step =>
    simp only [State.next] at hnext
    split at hnext
    · next p code hcpu hpos =>
      split at hnext
      · next hguard =>
        obtain ⟨sys, hsys, rfl⟩ := Option.map_eq_some_iff.mp hnext
        have hsettled := h.settled code hpos
        refine ⟨?_, fun code' hcode' => move_settled hguard.2 hsettled hsys hcode'⟩
        unfold act at hsys
        split at hsys
        · cases hsys
          exact h.inv
        · next a hact =>
          exact h.inv.next (move_disciplined hcpu hpos hguard.2 ha hsettled hact) hsys
      · cases hnext
    · cases hnext
  | relock =>
    simp only [State.next] at hnext
    split at hnext
    · next p hcpu =>
      split at hnext
      · next hguard =>
        obtain ⟨sys, hsys, rfl⟩ := Option.map_eq_some_iff.mp hnext
        refine ⟨h.inv.next (a := (c, .relock)) trivial hsys, ?_⟩
        rintro code -
        rw [System.relock_made rfl hcpu hguard.2 hsys]
        exact settled_of_not_made code
      · cases hnext
    · cases hnext
  | env a =>
    simp only [State.next] at hnext
    split at hnext
    · next hallowed =>
      obtain ⟨sys, hsys, rfl⟩ := Option.map_eq_some_iff.mp hnext
      obtain ⟨hmade, hwoken⟩ := System.next_flags rfl hsys
        (fun d hd => by rw [hd] at hallowed; exact hallowed.2)
        (fun hacquire => by rw [hacquire] at hallowed; exact hallowed.2 rfl)
        (fun hrelock => by rw [hrelock] at hallowed; exact hallowed.2)
      refine ⟨h.inv.next (allowed_disciplined hallowed) hsys, fun code hcode => ?_⟩
      rw [hmade]
      exact (h.settled code hcode).mono hwoken
    · cases hnext

omit [DecidableEq κ] [DecidableEq ι] in
theorem New.attended (h : m.New N) : m.Attended N := by
  refine ⟨System.Start.inv ⟨h.table, h.lock, fun p hp => absurd hp (h.asleep p)⟩, ?_⟩
  rw [h.pos]
  nofun

/-- **No reader sleeps on a pipe that has data.** In every run in which no `pipewrite` returns -1
after it has stored the first byte of an empty pipe since it took `p->lock`: whenever `p->lock` and
`ptable.lock` are free, a process that sleeps on `&p->nread` does so while the pipe is empty and a
writer has it open. -/
theorem no_reader_asleep (N : Names ι) (m₀ m : State κ ι) (as : List (κ × Label ι))
    (hnew : m₀.New N) (has : Along (State.next N) FailsEarly m₀ as)
    (hrun : run (State.next N) m₀ as = some m) (hlock : m.sys.lock N.lock = .free)
    (_htable : m.sys.table = .free) (p : Slot) (hp : m.sys.SleepsOn N.nread p) :
    m.sys.data.nread = m.sys.data.nwrite ∧ m.sys.data.writeopen = true := by
  have hpreserved : ∀ (s : State κ ι) a s', s.Attended N → s.FailsEarly a →
      s.next N a = some s' → s'.Attended N := fun _ _ _ hs ha hnext => hs.next ha hnext
  have hinv := (run_preserves hpreserved hnew.attended has hrun).inv
  have hcond := hinv.not_asleep hlock p hp
  have hdata : m.sys.data.Empty ∧ m.sys.data.writeopen = true := by
    simpa [Names.guarded] using hcond
  exact hdata

/-! ### A reader that sleeps on -/

/-- A reader and a writer on two CPUs, and a third process that is ready to run. -/
def threeProcesses : State Bool Unit where
  sys :=
    { proc := Function.update (Function.update (Function.update (fun _ => .zeroed) 0
          { Ptable.Proc.zeroed with state := .running, pid := 10 }) 1
          { Ptable.Proc.zeroed with state := .running, pid := 11 }) 2
          { Ptable.Proc.zeroed with state := .runnable, pid := 12 }
      data := ⟨fun _ => 0, 0, 0, true, true⟩
      table := .free
      lock := fun _ => .free
      cpu := fun c => if c then .process 0 else .process 1
      ncli := fun _ => 0
      thread := fun p => if p = 2 then .switched (.release none) else .code
      made := false
      woken := false }
  pos := none
  parked := fun _ => none
  freed := false
  stored := []
  returned := []

/-- The reader finds the pipe empty and goes to sleep; its CPU runs the third process. -/
def readerSleeps : List (Bool × Label Unit) :=
  (List.flatten [[.call (.piperead 1), .step, .env (.enter ())],
    List.replicate 4 (.env (.advance .zero)), [.env .back], List.replicate 2 (.env (.scan .zero)),
    [.env (.advance .zero)]]).map fun a => (true, a)

/-- The writer starts to write 513 bytes. -/
def writerFills : List (Bool × Label Unit) :=
  (.call (.pipewrite (fun _ => 1) 513) :: List.replicate 512 .step).map fun a => (false, a)

/-- The third process kills the writer, which still has `p->lock`. -/
def writerKilled : List (Bool × Label Unit) :=
  [(true, .env (.acquire none)), (true, .env (.kill 11)), (true, .env (.release none)),
    (false, .step)]

def names : Names Unit := ⟨(), .other 0, .other 1, by decide⟩

theorem threeProcesses_new : threeProcesses.New names := by
  have hstate : ∀ p, (threeProcesses.sys.proc p).state ≠ .sleeping := by decide +kernel
  exact ⟨rfl, rfl, rfl, rfl, rfl, fun _ => rfl, fun p hp => hstate p hp.1, rfl,
    fun _ => rfl, rfl, rfl⟩

theorem no_reader_asleep_empty :
    ∃ m, run (State.next names) threeProcesses readerSleeps = some m ∧
      m.sys.SleepsOn names.nread 0 ∧ m.sys.data.nread = m.sys.data.nwrite := by
  have hend : (run (State.next names) threeProcesses readerSleeps).map (fun m =>
      ((m.sys.lock (), m.sys.table), ((m.sys.proc 0).state, (m.sys.proc 0).chan))) =
      some ((.free, .free), (.sleeping, some (.other 0))) := by
    decide +kernel
  obtain ⟨m, hm, hend⟩ := Option.map_eq_some_iff.mp hend
  simp only [Prod.mk.injEq] at hend
  have hearly : Along (State.next names) FailsEarly threeProcesses readerSleeps := by
    decide +kernel
  exact ⟨m, hm, hend.2, (no_reader_asleep names threeProcesses m readerSleeps threeProcesses_new
    hearly hm hend.1.1 hend.1.2 0 hend.2).1⟩

/-- The writer returns -1 from the full pipe without waking the reader. -/
theorem reader_sleeps_on :
    threeProcesses.New names ∧
    ∃ m, run (State.next names) threeProcesses
        (List.flatten [readerSleeps, writerFills, writerKilled]) = some m ∧
      m.sys.lock () = .free ∧ m.sys.table = .free ∧ m.sys.SleepsOn names.nread 0 ∧
      m.sys.data.nread ≠ m.sys.data.nwrite := by
  have hend : (run (State.next names) threeProcesses
      (List.flatten [readerSleeps, writerFills, writerKilled])).map (fun m =>
        ((m.sys.lock (), m.sys.table), ((m.sys.proc 0).state, (m.sys.proc 0).chan),
          m.sys.data.nread, m.sys.data.nwrite)) =
      some ((.free, .free), (.sleeping, some (.other 0)), 0, 512) := by
    decide +kernel
  obtain ⟨m, hm, hend⟩ := Option.map_eq_some_iff.mp hend
  simp only [Prod.mk.injEq] at hend
  refine ⟨threeProcesses_new, m, hm, hend.1.1, hend.1.2, hend.2.1, ?_⟩
  rw [hend.2.2.1, hend.2.2.2]
  decide

end State

end Xv6.Pipes
