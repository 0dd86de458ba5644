import Assignments.Framework.Ring
import Assignments.Xv6.SleepWakeup

/-!
# Pipes

`pipewrite`, `piperead` and `pipeclose` on one pipe, over the machine of `sleep` and `wakeup`: any
processes, on any CPUs, call them in any order, and all else that the kernel does goes on around
them (`Label.env`). Only the one who has `p->lock` touches the pipe, so the machine keeps the place
in the code for it alone (`State.pos`) and, for each process that sleeps in a call, the place where
it goes on (`State.parked`).

`move` is the code: what the one who has the lock does next, given the place and the pipe. The
counters `nread` and `nwrite` are `uint`s that wrap around; 2^32 is a multiple of `PIPESIZE`, so the
ring does not notice.

Two lists are kept for the statements: the bytes that writers have stored and those that readers
have taken, each in the order in which it was done.

* `Pipe.Queue`, `Fifo` — the pipe is the queue of the bytes stored and not yet taken;
* `pipe_fifo` — it is so in every run, and `piperead` returns 0 at the end of the file only.
-/

namespace Xv6.Pipes

open Framework Function
open Ptable (Slot Chan)
open Wakeup (System Guarded)

abbrev PIPESIZE : ℕ := 512

abbrev Byte : Type := Fin 256

structure Pipe where
  data : Fin PIPESIZE → Byte
  nread : BitVec 32
  nwrite : BitVec 32
  readopen : Bool
  writeopen : Bool

namespace Pipe

def Empty (d : Pipe) : Prop := d.nread = d.nwrite

instance (d : Pipe) : Decidable d.Empty := inferInstanceAs (Decidable (_ = _))

def Full (d : Pipe) : Prop := d.nwrite = d.nread + BitVec.ofNat 32 PIPESIZE

instance (d : Pipe) : Decidable d.Full := inferInstanceAs (Decidable (_ = _))

/-- `p->data[p->nwrite++ % PIPESIZE] = b`. -/
def store (d : Pipe) (b : Byte) : Pipe :=
  { d with
    data := update d.data (Fin.ofNat PIPESIZE d.nwrite.toNat) b
    nwrite := d.nwrite + 1 }

/-- `p->data[p->nread % PIPESIZE]`. -/
def front (d : Pipe) : Byte := d.data (Fin.ofNat PIPESIZE d.nread.toNat)

/-- `p->nread++`. -/
def drop (d : Pipe) : Pipe := { d with nread := d.nread + 1 }

end Pipe

/-- The pipe's lock and the two addresses that are slept on. -/
structure Names (ι : Type) where
  lock : ι
  /-- `&p->nread`. -/
  nread : Chan
  /-- `&p->nwrite`. -/
  nwrite : Chan
  ne : nread ≠ nwrite

/-! ### The code -/

/-- What a call returns. -/
inductive Result where
  | wrote (n : ℤ)
  /-- `piperead` of `n` bytes returns `i`. -/
  | read (n : ℤ) (i : ℕ)
  | closed
deriving DecidableEq, Repr

/-- What follows a `wakeup`. -/
inductive After where
  /-- `sleep(&p->nwrite, &p->lock)` in `pipewrite`. -/
  | sleep (addr : ℕ → Byte) (n : ℤ) (i : ℕ)
  /-- `release(&p->lock)`. -/
  | leave (r : Result)

/-- The parts of `wakeup`. -/
inductive Stage where
  | acquire
  | wake
  | release
deriving DecidableEq, Repr

/-- Where the one is that has `p->lock`. -/
inductive Code where
  /-- `pipewrite`, before byte `i`. -/
  | write (addr : ℕ → Byte) (n : ℤ) (i : ℕ)
  /-- `piperead`, before the test for an empty pipe. -/
  | read (n : ℤ)
  /-- `piperead`, in the loop that copies, before byte `i`. -/
  | copy (n : ℤ) (i : ℕ)
  /-- `pipeclose`, after `acquire`. -/
  | close (writable : Bool)
  | wakeup (stage : Stage) (chan : Chan) (after : After)
  | after (k : After)

inductive Call where
  | pipewrite (addr : ℕ → Byte) (n : ℤ)
  | piperead (n : ℤ)
  | pipeclose (writable : Bool)

def Call.entry : Call → Code
  | .pipewrite addr n => .write addr n 0
  | .piperead n => .read n
  | .pipeclose writable => .close writable

/-- What the one who has `p->lock` does next. -/
structure Move (ι : Type) where
  /-- What it does to the locks, the process table and the pipe, if anything. -/
  act : Option (Wakeup.Act ι Pipe)
  /-- Where it is afterwards, unless it has given up `p->lock`. -/
  pos : Option Code := none
  /-- Where it goes on after it has slept. -/
  parked : Option Code := none
  stored : List Byte := []
  returned : List Byte := []
  /-- The pipe is freed. -/
  frees : Bool := false

variable {κ ι : Type}

/-- The code of `pipewrite`, `piperead`, `pipeclose` and `wakeup`, in a process that may have been
`killed`. -/
def move (N : Names ι) (killed : Bool) (d : Pipe) : Code → Move ι
  | .write addr n i =>
    if i < n then
      if d.Full then
        if d.readopen = false ∨ killed then { act := some (.release (some N.lock)) }
        else { act := none, pos := some (.wakeup .acquire N.nread (.sleep addr n i)) }
      else
        { act := some (.write (d.store (addr i)))
          pos := some (.write addr n (i + 1))
          stored := [addr i] }
    else { act := none, pos := some (.wakeup .acquire N.nread (.leave (.wrote n))) }
  | .read n =>
    if d.Empty ∧ d.writeopen then
      if killed then { act := some (.release (some N.lock)) }
      else { act := some (.sleep N.nread (some N.lock)), parked := some (.read n) }
    else { act := none, pos := some (.copy n 0) }
  | .copy n i =>
    if i < n ∧ ¬d.Empty then
      { act := some (.write d.drop), pos := some (.copy n (i + 1)), returned := [d.front] }
    else { act := none, pos := some (.wakeup .acquire N.nwrite (.leave (.read n i))) }
  | .close true =>
    { act := some (.write { d with writeopen := false })
      pos := some (.wakeup .acquire N.nread (.leave .closed)) }
  | .close false =>
    { act := some (.write { d with readopen := false })
      pos := some (.wakeup .acquire N.nwrite (.leave .closed)) }
  | .wakeup .acquire chan k => { act := some (.acquire none), pos := some (.wakeup .wake chan k) }
  | .wakeup .wake chan k => { act := some (.wakeup1 chan), pos := some (.wakeup .release chan k) }
  | .wakeup .release _ k => { act := some (.release none), pos := some (.after k) }
  | .after (.sleep addr n i) =>
    { act := some (.sleep N.nwrite (some N.lock)), parked := some (.write addr n i) }
  | .after (.leave r) =>
    { act := some (.release (some N.lock))
      frees := r = .closed ∧ d.readopen = false ∧ d.writeopen = false }

/-! ### The machine -/

structure State (κ ι : Type) where
  sys : System κ ι Pipe
  /-- Where the one is that has `p->lock`. -/
  pos : Option Code
  /-- Where the processes go on that sleep in `pipewrite` or `piperead`. -/
  parked : Slot → Option Code
  freed : Bool
  /-- What writers have stored, in this order. -/
  stored : List Byte
  /-- What readers have taken, in this order. -/
  returned : List Byte

inductive Label (ι : Type) where
  /-- A process calls a routine and takes `p->lock`. -/
  | call (f : Call)
  /-- The one who has `p->lock` goes on. -/
  | step
  /-- A process has slept in a call and takes `p->lock` again. -/
  | relock
  /-- Something else happens. -/
  | env (a : Wakeup.Act ι Pipe)

/-- What readers wait for. -/
def Names.guarded (N : Names ι) : Guarded ι Pipe where
  chan := N.nread
  lk := some N.lock
  cond d := !decide d.Empty || !d.writeopen

variable [DecidableEq κ] [DecidableEq ι]

/-- What may go on around the pipe: anything that does not need `p->lock` to be had by this CPU,
take it or give it up, or sleep on the pipe. -/
def Allowed (N : Names ι) (s : System κ ι Pipe) (c : κ) (a : Wakeup.Act ι Pipe) : Prop :=
  s.lock N.lock ≠ .code c ∧
    match a with
    | .acquire l | .release l => l ≠ some N.lock
    | .write _ => False
    | .sleep chan l => chan ≠ N.nread ∧ chan ≠ N.nwrite ∧ l ≠ some N.lock
    | .relock => ∀ p, s.cpu c = .process p → s.thread p ≠ .relock N.lock
    | _ => True

instance (N : Names ι) (s : System κ ι Pipe) (c : κ) (a : Wakeup.Act ι Pipe) :
    Decidable (Allowed N s c a) := by
  unfold Allowed
  cases a <;> infer_instance

namespace State

/-- The system after an action, if there is one. -/
def act (N : Names ι) (s : System κ ι Pipe) (c : κ) : Option (Wakeup.Act ι Pipe) →
    Option (System κ ι Pipe)
  | none => some s
  | some a => s.next N.guarded (c, a)

/-- The process `p` on the CPU `c` makes the move `mv`. -/
def make (N : Names ι) (m : State κ ι) (c : κ) (p : Slot) (mv : Move ι) : Option (State κ ι) :=
  (act N m.sys c mv.act).map fun sys =>
    { sys
      pos := mv.pos
      parked := if mv.parked.isSome then update m.parked p mv.parked else m.parked
      freed := m.freed || mv.frees
      stored := m.stored ++ mv.stored
      returned := m.returned ++ mv.returned }

def next (N : Names ι) (m : State κ ι) : κ × Label ι → Option (State κ ι)
  | (c, .call f) =>
    match m.sys.cpu c with
    | .process p =>
      if ¬m.freed ∧ m.sys.thread p = .code ∧ m.parked p = none then
        (m.sys.next N.guarded (c, .acquire (some N.lock))).map fun sys =>
          { m with sys, pos := some f.entry }
      else none
    | _ => none
  | (c, .step) =>
    match m.sys.cpu c, m.pos with
    | .process p, some code =>
      if ¬m.freed ∧ m.sys.lock N.lock = .code c then
        m.make N c p (move N (m.sys.proc p).killed m.sys.data code)
      else none
    | _, _ => none
  | (c, .relock) =>
    match m.sys.cpu c with
    | .process p =>
      if ¬m.freed ∧ m.sys.thread p = .relock N.lock then
        (m.sys.next N.guarded (c, .relock)).map fun sys =>
          { m with sys, pos := m.parked p, parked := update m.parked p none }
      else none
    | _ => none
  | (c, .env a) =>
    if Allowed N m.sys c a then
      (m.sys.next N.guarded (c, a)).map fun sys => { m with sys }
    else none

/-- A new pipe: `pipealloc` has set the counters, and nobody uses it yet. -/
structure New (N : Names ι) (m : State κ ι) : Prop where
  nread : m.sys.data.nread = 0
  nwrite : m.sys.data.nwrite = 0
  readopen : m.sys.data.readopen = true
  writeopen : m.sys.data.writeopen = true
  table : m.sys.table = .free
  lock : ∀ l, m.sys.lock l = .free
  asleep : ∀ p, ¬m.sys.SleepsOn N.nread p
  pos : m.pos = none
  parked : ∀ p, m.parked p = none
  stored : m.stored = []
  returned : m.returned = []

end State

/-! ### The pipe as a queue -/

/-- The pipe holds the bytes `q`. -/
structure Pipe.Queue (d : Pipe) (q : List Byte) : Prop where
  ring : Ring.Holds d.data d.nread.toNat q
  count : d.nwrite.toNat = (d.nread.toNat + q.length) % 2 ^ 32

namespace Pipe.Queue

variable {d : Pipe} {q : List Byte}

theorem empty_iff (h : d.Queue q) : d.Empty ↔ q = [] := by
  have hlength : q.length ≤ 512 := h.ring.length
  have hcount := h.count
  rw [← List.length_eq_zero_iff, Pipe.Empty, BitVec.toNat_eq]
  omega

theorem full_iff (h : d.Queue q) : d.Full ↔ q.length = PIPESIZE := by
  have hlength : q.length ≤ 512 := h.ring.length
  have hcount := h.count
  have hsize : PIPESIZE = 512 := rfl
  rw [Pipe.Full, BitVec.toNat_eq, BitVec.toNat_add, BitVec.toNat_ofNat]
  omega

/-- The number of bytes is what the counters differ by, modulo 2^32. -/
theorem length_eq (h : d.Queue q) : q.length = (d.nwrite - d.nread).toNat := by
  have hlength : q.length ≤ 512 := h.ring.length
  have hcount := h.count
  rw [BitVec.toNat_sub]
  omega

theorem store (h : d.Queue q) (hroom : ¬d.Full) (b : Byte) : (d.store b).Queue (q ++ [b]) := by
  have hlt : q.length < PIPESIZE := lt_of_le_of_ne h.ring.length
    fun heq => hroom (h.full_iff.mpr heq)
  have hcell : Fin.ofNat PIPESIZE d.nwrite.toNat =
    Fin.ofNat PIPESIZE (d.nread.toNat + q.length) := by
    -- 2^32 is a multiple of the size of the ring
    rw [Ring.ofNat_eq_ofNat, h.count]
    exact (Nat.mod_modEq _ _).of_dvd (by decide)
  constructor
  · show Ring.Holds (update d.data (Fin.ofNat PIPESIZE d.nwrite.toNat) b) _ _
    rw [hcell]
    exact h.ring.push hlt b
  · have hcount := h.count
    show (d.nwrite + 1).toNat = (d.nread.toNat + (q ++ [b]).length) % 2 ^ 32
    have hone : (1 : BitVec 32).toNat = 1 := rfl
    rw [BitVec.toNat_add, List.length_append, List.length_singleton]
    omega

theorem drop (h : d.Queue q) (hne : ¬d.Empty) : ∃ q', q = d.front :: q' ∧ d.drop.Queue q' := by
  cases q with
  | nil => exact absurd (h.empty_iff.mpr rfl) hne
  | cons b q =>
    obtain ⟨hfront, hrest⟩ := h.ring.pop
    refine ⟨q, by rw [← hfront]; rfl, ?_, ?_⟩
    · refine hrest.congr ?_
      show (d.nread + 1).toNat ≡ _ [MOD PIPESIZE]
      rw [BitVec.toNat_add]
      exact (Nat.mod_modEq _ _).of_dvd (by decide)
    · have hcount := h.count
      rw [List.length_cons] at hcount
      show d.nwrite.toNat = ((d.nread + 1).toNat + q.length) % 2 ^ 32
      have hone : (1 : BitVec 32).toNat = 1 := rfl
      rw [BitVec.toNat_add]
      omega

end Pipe.Queue

/-! ### One step -/

/-- The pipe after a move. -/
def Move.data (mv : Move ι) (d : Pipe) : Pipe :=
  match mv.act with
  | some (.write d') => d'
  | _ => d

/-- A reader that is about to return 0 was asked for no byte, or is at the end of the file. -/
def After.KnowsEnd (d : Pipe) : After → Prop
  | .leave (.read n i) => i = 0 → n ≤ 0 ∨ d.Empty ∧ d.writeopen = false
  | _ => True

/-- What a reader knows about the end of the file at a place in the code. -/
def Code.KnowsEnd (d : Pipe) : Code → Prop
  | .copy _ i => i = 0 → ¬d.Empty ∨ d.writeopen = false
  | .wakeup _ _ k | .after k => k.KnowsEnd d
  | _ => True

/-- A move on a pipe that holds `q` takes what it returns from the front of the queue and adds what
it stores at the end, and a reader keeps knowing where the file ends. -/
def Move.Serves (mv : Move ι) (d : Pipe) (q : List Byte) : Prop :=
  ∃ q', q ++ mv.stored = mv.returned ++ q' ∧ (mv.data d).Queue q' ∧
    (∀ code, mv.pos = some code → code.KnowsEnd (mv.data d)) ∧
    ∀ code, mv.parked = some code → ∀ d', code.KnowsEnd d'

omit [DecidableEq ι] in
/-- **One move.** -/
theorem move_serves (N : Names ι) (killed : Bool) {d : Pipe} {q : List Byte} (h : d.Queue q)
    {code : Code} (hcode : code.KnowsEnd d) : (move N killed d code).Serves d q := by
  cases code with
  | write addr n i =>
    simp only [move]
    split
    · split
      · split
        · exact ⟨q, by simp, h, nofun, nofun⟩
        · exact ⟨q, by simp, h, by rintro _ ⟨⟩; trivial, nofun⟩
      · next hroom => exact ⟨_, rfl, h.store hroom (addr i), by rintro _ ⟨⟩; trivial, nofun⟩
    · exact ⟨q, by simp, h, by rintro _ ⟨⟩; trivial, nofun⟩
  | read n =>
    simp only [move]
    split
    · split
      · exact ⟨q, by simp, h, nofun, nofun⟩
      · exact ⟨q, by simp, h, nofun, by rintro _ ⟨⟩ d'; trivial⟩
    · next hready =>
      refine ⟨q, by simp, h, ?_, nofun⟩
      rintro _ ⟨⟩ -
      by_cases hempty : d.Empty
      · exact .inr (by simpa [hempty, Move.data] using hready)
      · exact .inl hempty
  | copy n i =>
    simp only [move]
    split
    · next hmore =>
      obtain ⟨q', hq', hdrop⟩ := h.drop hmore.2
      refine ⟨q', by simpa using hq', hdrop, ?_, nofun⟩
      rintro _ ⟨⟩ hi
      omega
    · next hend =>
      refine ⟨q, by simp, h, ?_, nofun⟩
      rintro _ ⟨⟩ hi
      -- nothing was copied: no byte was asked for, or the pipe is empty
      subst hi
      by_cases hn : n ≤ 0
      · exact .inl hn
      · have hempty : d.Empty := by
          by_contra hne
          exact hend ⟨by simpa using hn, hne⟩
        exact .inr ⟨hempty, (hcode rfl).resolve_left fun hne => hne hempty⟩
  | close writable =>
    cases writable with
    | true => exact ⟨q, by simp [move], ⟨h.ring, h.count⟩, by rintro _ ⟨⟩; trivial, nofun⟩
    | false => exact ⟨q, by simp [move], ⟨h.ring, h.count⟩, by rintro _ ⟨⟩; trivial, nofun⟩
  | wakeup stage chan k =>
    cases stage <;> exact ⟨q, by simp [move], h, by rintro _ ⟨⟩; exact hcode, nofun⟩
  | after k =>
    cases k with
    | sleep addr n i => exact ⟨q, by simp [move], h, nofun, by rintro _ ⟨⟩ d'; trivial⟩
    | leave r => exact ⟨q, by simp [move], h, nofun, nofun⟩

namespace State

/-- The bytes that were stored and not yet taken are those in the pipe, and the readers know where
the file ends. -/
structure Fifo (m : State κ ι) : Prop where
  queue : ∃ q, m.stored = m.returned ++ q ∧ m.sys.data.Queue q
  pos : ∀ code, m.pos = some code → code.KnowsEnd m.sys.data
  parked : ∀ p code, m.parked p = some code → ∀ d, code.KnowsEnd d

theorem act_data {N : Names ι} {s s' : System κ ι Pipe} {c : κ} {mv : Move ι}
    (h : act N s c mv.act = some s') : s'.data = mv.data s.data := by
  unfold act at h
  unfold Move.data
  split at h
  · next hnone =>
    cases h
    rw [hnone]
  · next a ha =>
    rw [ha]
    cases a with
    | write d =>
      simp only [System.next] at h
      split at h <;> cases h
      rfl
    | _ => exact System.next_data h (by simp)

variable {N : Names ι} {m m' : State κ ι}

/-- **One step.** -/
theorem Fifo.next {a : κ × Label ι} (h : m.Fifo) (hnext : m.next N a = some m') : m'.Fifo := by
  obtain ⟨c, a⟩ := a
  cases a with
  | call f =>
    simp only [State.next] at hnext
    split at hnext
    · split at hnext
      · obtain ⟨sys, hsys, rfl⟩ := Option.map_eq_some_iff.mp hnext
        have hdata : sys.data = m.sys.data := System.next_data hsys nofun
        refine ⟨by simpa only [hdata] using h.queue, ?_, h.parked⟩
        rintro _ ⟨⟩
        cases f <;> trivial
      · cases hnext
    · cases hnext
  | step =>
    simp only [State.next] at hnext
    split at hnext
    · next p code hcpu hpos =>
      split at hnext
      · obtain ⟨sys, hsys, rfl⟩ := Option.map_eq_some_iff.mp hnext
        have hdata := act_data hsys
        obtain ⟨q, hstored, hq⟩ := h.queue
        obtain ⟨q', heq, hq', hpos', hparked'⟩ :=
          move_serves N (m.sys.proc p).killed hq (h.pos code hpos)
        refine ⟨⟨q', ?_, hdata ▸ hq'⟩, fun code' hcode' => hdata ▸ hpos' code' hcode', ?_⟩
        · show m.stored ++ _ = m.returned ++ _ ++ q'
          rw [hstored, List.append_assoc, heq, List.append_assoc]
        · intro p' code' hcode' d
          dsimp only at hcode'
          split at hcode'
          · by_cases hp : p' = p
            · rw [hp, update_self] at hcode'
              exact hparked' code' hcode' d
            · rw [update_of_ne hp] at hcode'
              exact h.parked p' code' hcode' d
          · exact h.parked p' code' hcode' d
      · cases hnext
    · cases hnext
  | relock =>
    simp only [State.next] at hnext
    split at hnext
    · next p hcpu =>
      split at hnext
      · obtain ⟨sys, hsys, rfl⟩ := Option.map_eq_some_iff.mp hnext
        have hdata : sys.data = m.sys.data := System.next_data hsys nofun
        refine ⟨by simpa only [hdata] using h.queue, fun code hcode => h.parked p code hcode _, ?_⟩
        intro p' code hcode d
        by_cases hp : p' = p
        · simp [hp] at hcode
        · exact h.parked p' code (by simpa [hp] using hcode) d
      · cases hnext
    · cases hnext
  | env a =>
    simp only [State.next] at hnext
    split at hnext
    · next hallowed =>
      obtain ⟨sys, hsys, rfl⟩ := Option.map_eq_some_iff.mp hnext
      have hdata : sys.data = m.sys.data := System.next_data hsys fun d hd => by
        rw [hd] at hallowed
        exact hallowed.2
      exact ⟨by simpa only [hdata] using h.queue, by simpa only [hdata] using h.pos, h.parked⟩
    · cases hnext

omit [DecidableEq κ] [DecidableEq ι] in
theorem New.fifo (h : m.New N) : m.Fifo := by
  refine ⟨⟨[], by rw [h.stored, h.returned]; rfl, Ring.holds_nil _ _, ?_⟩, ?_, ?_⟩
  · rw [h.nread, h.nwrite]
    rfl
  · rw [h.pos]
    nofun
  · intro p code hcode
    rw [h.parked p] at hcode
    cases hcode

/-- **Pipes are FIFO byte streams.** In every run from a new pipe, with any number of bytes: what
readers have taken is a beginning of what writers have stored; the bytes not yet taken are those in
the cells from `nread` to `nwrite`, where the counters count modulo 2^32, and there are no more than
`PIPESIZE` of them; and a `piperead` that returns 0 was asked for no byte, or the pipe is empty and
no writer has it open. -/
theorem pipe_fifo (N : Names ι) (m₀ m : State κ ι) (as : List (κ × Label ι)) (hnew : m₀.New N)
    (hrun : run (State.next N) m₀ as = some m) :
    m.returned <+: m.stored ∧
    m.stored = m.returned ++ Ring.window m.sys.data.data m.sys.data.nread.toNat
      (m.sys.data.nwrite - m.sys.data.nread).toNat ∧
    (m.sys.data.nwrite - m.sys.data.nread).toNat ≤ PIPESIZE ∧
    ∀ n, m.pos = some (.after (.leave (.read n 0))) →
      n ≤ 0 ∨ m.sys.data.Empty ∧ m.sys.data.writeopen = false := by
  have hpreserved : ∀ (s : State κ ι) a s', s.Fifo → True → s.next N a = some s' → s'.Fifo :=
    fun _ _ _ hfifo _ hnext => hfifo.next hnext
  have hfifo := run_preserves hpreserved hnew.fifo (along_true _ as) hrun
  obtain ⟨q, hstored, hq⟩ := hfifo.queue
  have hwindow := hq.ring.eq_window
  rw [hq.length_eq] at hwindow
  refine ⟨⟨q, hstored.symm⟩, ?_, ?_, fun n hpos => hfifo.pos _ hpos rfl⟩
  · rw [← hwindow]
    exact hstored
  · rw [← hq.length_eq]
    exact hq.ring.length

/-- A process is on the one CPU, and has made a pipe. -/
def fresh : State Unit Unit where
  sys :=
    { proc := update (fun _ => .zeroed) 0 { Ptable.Proc.zeroed with state := .running }
      data := ⟨fun _ => 0, 0, 0, true, true⟩
      table := .free
      lock := fun _ => .free
      cpu := fun _ => .process 0
      ncli := fun _ => 0
      thread := fun _ => .code
      made := false
      woken := false }
  pos := none
  parked := fun _ => none
  freed := false
  stored := []
  returned := []

/-- It writes two bytes and reads one of them. -/
def writeThenRead : List (Unit × Label Unit) :=
  (List.flatten [[.call (.pipewrite (fun i => Fin.ofNat 256 (i + 7)) 2)], List.replicate 7 .step,
    [.call (.piperead 1)], List.replicate 7 .step]).map fun a => ((), a)

theorem pipe_fifo_writeThenRead :
    ∃ m, run (State.next ⟨(), .other 0, .other 1, by decide⟩) fresh writeThenRead = some m ∧
      m.returned = [7] ∧ m.stored = [7, 8] ∧ m.returned <+: m.stored := by
  have hend : (run (State.next ⟨(), .other 0, .other 1, by decide⟩) fresh writeThenRead).map
      (fun m => (m.returned, m.stored)) = some ([7], [7, 8]) := by
    decide +kernel
  obtain ⟨m, hm, hend⟩ := Option.map_eq_some_iff.mp hend
  simp only [Prod.mk.injEq] at hend
  have hasleep : ∀ p, ¬fresh.sys.SleepsOn (.other 0) p := by
    intro p hp
    have hstate : ∀ p, (fresh.sys.proc p).state ≠ .sleeping := by decide +kernel
    exact hstate p hp.1
  exact ⟨m, hm, hend.1, hend.2, (pipe_fifo _ fresh m writeThenRead
    ⟨rfl, rfl, rfl, rfl, rfl, fun _ => rfl, hasleep, rfl, fun _ => rfl, rfl, rfl⟩ hm).1⟩

end State

end Xv6.Pipes
