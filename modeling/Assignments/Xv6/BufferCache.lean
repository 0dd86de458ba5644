import Assignments.Framework.Circle
import Assignments.Xv6.Log

/-!
# The buffer cache, lock by lock

`Bio` takes a call of the buffer cache, and an iteration of `commit`, as one step and the list of
buffers as a list. Here the cache is as `bio.c` has it: `NBUF` buffers with reference counts and
sleep locks, linked through `next` and `prev` to a circle around `bcache.head`, and any number of
processes whose routines interleave wherever a lock is taken or given up. `bread` is three steps:
the section of `bget` under `bcache.lock`, `acquiresleep`, and the read when the buffer is not
valid; `brelse` is two: `releasesleep`, and the section under `bcache.lock`. The disk is the one
of `memide.c`, which copies at once.

A process runs `Instr`uctions: the calls of the buffer cache and of `log_write`, in-place changes
of a buffer it has, and the routines of `commit`, which unfold to such calls. Nothing is assumed
about which process calls what and when, apart from what the callers of `bread` owe: a buffer is
used through the pointer that `bread` returned until `brelse`, and one that was changed is passed
to `log_write` or `bwrite` before `brelse`.

* `State.next` — the steps;
* `Inv` — the circle, the counts, one buffer to a block, and what the buffers and the disk hold;
* `coherent` — the buffer cache is coherent.
-/

namespace Xv6.BufferCache

open Framework Function

/-- A buffer of `bcache.buf`. -/
abbrev BufId : Type := Fin NBUF

/-- The device of the file system. -/
def ROOTDEV : ℕ := 1

/-- `struct buf`; its links are kept apart. -/
structure Buf (ι : Type) where
  dev : ℕ
  blockno : BlockNo
  refcnt : ℕ
  /-- `B_VALID` -/
  valid : Bool
  /-- `B_DIRTY` -/
  dirty : Bool
  /-- Who has the sleep lock. -/
  lock : Option ι
  data : Block

/-- What a process calls or does next. A buffer is named by the block it was read for: the
process keeps the pointer that `bread` returned in a variable of its own. -/
inductive Instr where
  | bread (b : BlockNo)
  /-- An in-place change of the data. -/
  | store (b : BlockNo) (f : Block → Block)
  /-- `memmove(dst->data, src->data, BSIZE)` -/
  | memmove (dst src : BlockNo)
  | logWrite (b : BlockNo)
  | bwrite (b : BlockNo)
  | brelse (b : BlockNo)
  | commit
  /-- The loop of `write_log` from `tail` on. -/
  | writeLog (tail : ℕ)
  | writeHead
  /-- The body of `write_head`: `log.lh` is copied to the header block. -/
  | putHead
  /-- The loop of `install_trans` from `tail` on. -/
  | installTrans (tail : ℕ)
  /-- `log.lh.n = 0` -/
  | clear

/-- Where a process is within a call of the buffer cache. -/
inductive Stage where
  /-- At its next instruction. -/
  | run
  /-- In `bget`, at `acquiresleep`. -/
  | locking (i : BufId) (b : BlockNo)
  /-- In `bread`, at `iderw`. -/
  | reading (i : BufId) (b : BlockNo)
  /-- In `brelse`, after `releasesleep`. -/
  | releasing (i : BufId)

/-- What has happened to the blocks: data was stored in a buffer for a block, or a call of
`bread` has returned with it. -/
inductive Event where
  | stored (b : BlockNo) (data : Block)
  | read (b : BlockNo) (data : Block)

/-- The effect of an event on what the blocks are taken to hold. -/
def Event.apply (c : Disk) : Event → Disk
  | .stored b data => update c b data
  | .read _ _ => c

/-- What the blocks were last made to hold, beginning with what is on the disk. -/
def contents (disk : Disk) (events : List Event) : Disk := events.foldl Event.apply disk

/-- The buffer cache, the log header in memory, the disk and the processes. `unsaved` marks the
buffers changed since they were last passed to `log_write` or `bwrite`; it and `events` are not
part of the program. -/
structure State (ι : Type) where
  buf : BufId → Buf ι
  next : Option BufId → Option BufId
  prev : Option BufId → Option BufId
  disk : Disk
  lh : List BlockNo
  code : ι → List Instr
  stage : ι → Stage
  var : ι → BlockNo → Option BufId
  unsaved : BufId → Bool
  events : List Event

/-- Buffer `x` is the one for block `b` of the file system's device. -/
def Buf.For {ι : Type} (x : Buf ι) (b : BlockNo) : Prop := x.dev = ROOTDEV ∧ x.blockno = b

instance {ι : Type} (x : Buf ι) (b : BlockNo) : Decidable (x.For b) :=
  inferInstanceAs (Decidable (_ ∧ _))

/-- `bget` may recycle the buffer. -/
def Buf.Unused {ι : Type} (x : Buf ι) : Prop := x.refcnt = 0 ∧ x.dirty = false

instance {ι : Type} (x : Buf ι) : Decidable x.Unused := inferInstanceAs (Decidable (_ ∧ _))

namespace State

variable {ι : Type}

def setBuf (m : State ι) (i : BufId) (x : Buf ι) : State ι :=
  { m with buf := update m.buf i x }

def log (m : State ι) (e : Event) : State ι := { m with events := m.events ++ [e] }

/-- `iderw` of `memide.c`; its panics give no result. -/
def iderw (m : State ι) (i : BufId) : Option (State ι) :=
  let x := m.buf i
  if x.valid = true ∧ x.dirty = false then none
  else if x.dev ≠ ROOTDEV then none
  else if FSSIZE ≤ x.blockno then none
  else if x.dirty then
    some { m.setBuf i { x with dirty := false, valid := true } with
      disk := update m.disk x.blockno x.data }
  else some (m.setBuf i { x with data := m.disk x.blockno, valid := true })

variable [DecidableEq ι]

def goto (m : State ι) (p : ι) (stage : Stage) : State ι :=
  { m with stage := update m.stage p stage }

def setVar (m : State ι) (p : ι) (b : BlockNo) (o : Option BufId) : State ι :=
  { m with var := update m.var p (update (m.var p) b o) }

/-- The part of `bget(1, b)` under `bcache.lock`. Going once around the circle is all the loops
can do; `panic("bget: no buffers")` gives no result. -/
def bget (m : State ι) (p : ι) (b : BlockNo) : Option (State ι) :=
  match search m.next (fun i => (m.buf i).For b) (NBUF + 1) (m.next none) with
  | none => none
  | some (some i) =>
    some ((m.setBuf i { m.buf i with refcnt := (m.buf i).refcnt + 1 }).goto p (.locking i b))
  | some none =>
    match search m.prev (fun i => (m.buf i).Unused) (NBUF + 1) (m.prev none) with
    | some (some i) =>
      some ((m.setBuf i { m.buf i with
        dev := ROOTDEV, blockno := b, valid := false, dirty := false, refcnt := 1 }).goto p
          (.locking i b))
    | _ => none

/-- `bread` returns buffer `i`. -/
def returned (m : State ι) (p : ι) (i : BufId) (b : BlockNo) : State ι :=
  ((m.setVar p b (some i)).goto p .run).log (.read b (m.buf i).data)

/-- `acquiresleep(&b->lock)` in `bget`, and the test of `B_VALID` in `bread`. -/
def acquire (m : State ι) (p : ι) (i : BufId) (b : BlockNo) : Option (State ι) :=
  let x := m.buf i
  if x.lock ≠ none then none
  else if x.valid then some ((m.setBuf i { x with lock := some p }).returned p i b)
  else some ((m.setBuf i { x with lock := some p }).goto p (.reading i b))

/-- `iderw` in `bread`. -/
def read (m : State ι) (p : ι) (i : BufId) (b : BlockNo) : Option (State ι) :=
  (m.iderw i).map fun m => m.returned p i b

/-- The data of a buffer that the process has becomes `data`. -/
def store (m : State ι) (i : BufId) (b : BlockNo) (data : Block) : State ι :=
  { (m.setBuf i { m.buf i with data := data }).log (.stored b data) with
    unsaved := update m.unsaved i true }

/-- `log_write`, without its test that a transaction is open. -/
def logWrite (m : State ι) (i : BufId) : Option (State ι) :=
  if m.lh.length ≥ LOGSIZE ∨ m.lh.length ≥ nlog - 1 then none
  else some { m.setBuf i { m.buf i with dirty := true } with
    lh := Log.absorb m.lh (m.buf i).blockno
    unsaved := update m.unsaved i false }

def bwrite (m : State ι) (p : ι) (i : BufId) : Option (State ι) :=
  if (m.buf i).lock ≠ some p then none
  else
    ((m.setBuf i { m.buf i with dirty := true }).iderw i).map fun m =>
      { m with unsaved := update m.unsaved i false }

/-- `brelse` up to `releasesleep`. A buffer that was changed and not passed to `log_write` or
`bwrite` is not released. -/
def brelse (m : State ι) (p : ι) (i : BufId) (b : BlockNo) : Option (State ι) :=
  if (m.buf i).lock ≠ some p then none
  else if m.unsaved i then none
  else some (((m.setBuf i { m.buf i with lock := none }).setVar p b none).goto p (.releasing i))

/-- The part of `brelse` under `bcache.lock`: with its last reference gone the buffer moves to
the front of the list. -/
def release (m : State ι) (p : ι) (i : BufId) : State ι :=
  let m' := (m.setBuf i { m.buf i with refcnt := (m.buf i).refcnt - 1 }).goto p .run
  if (m.buf i).refcnt - 1 = 0 then
    let out := unlink m.next m.prev i
    { m' with
      next := (linkFront out.1 out.2 i).1
      prev := (linkFront out.1 out.2 i).2 }
  else m'

/-- Process `p` has `code` to do. -/
def goOn (m : State ι) (p : ι) (code : List Instr) : State ι :=
  { m with code := update m.code p code }

/-- The instruction of process `p`, with `rest` to be done after it. -/
def exec (m : State ι) (p : ι) (rest : List Instr) : Instr → Option (State ι)
  | .bread b => (m.goOn p rest).bget p b
  | .store b f => (m.var p b).map fun i => (m.goOn p rest).store i b (f (m.buf i).data)
  | .memmove dst src =>
    match m.var p dst, m.var p src with
    | some i, some j => some ((m.goOn p rest).store i dst (m.buf j).data)
    | _, _ => none
  | .logWrite b => (m.var p b).bind fun i => (m.goOn p rest).logWrite i
  | .bwrite b => (m.var p b).bind fun i => (m.goOn p rest).bwrite p i
  | .brelse b => (m.var p b).bind fun i => (m.goOn p rest).brelse p i b
  | .commit =>
    some (if m.lh = [] then m.goOn p rest
      else m.goOn p (.writeLog 0 :: .writeHead :: .installTrans 0 :: .clear :: .writeHead :: rest))
  | .writeLog tail =>
    match m.lh[tail]? with
    | none => some (m.goOn p rest)
    | some b =>
      let dst := logstart + tail + 1
      some (m.goOn p (.bread dst :: .bread b :: .memmove dst b :: .bwrite dst :: .brelse b ::
        .brelse dst :: .writeLog (tail + 1) :: rest))
  | .writeHead =>
    some (m.goOn p (.bread logstart :: .putHead :: .bwrite logstart :: .brelse logstart :: rest))
  | .putHead =>
    (m.var p logstart).map fun i => (m.goOn p rest).store i logstart (putHeader (m.buf i).data m.lh)
  | .installTrans tail =>
    match m.lh[tail]? with
    | none => some (m.goOn p rest)
    | some b =>
      let lbuf := logstart + tail + 1
      some (m.goOn p (.bread lbuf :: .bread b :: .memmove b lbuf :: .bwrite b :: .brelse lbuf ::
        .brelse b :: .installTrans (tail + 1) :: rest))
  | .clear => some { m.goOn p rest with lh := [] }

end State

/-- A process outside of any routine calls one, or a process takes its next step. -/
inductive Label (ι : Type) where
  | call (p : ι) (ins : Instr)
  | step (p : ι)

namespace State

variable {ι : Type}

/-- One step. -/
def step [DecidableEq ι] (m : State ι) : Label ι → Option (State ι)
  | .call p ins =>
    match m.stage p, m.code p with
    | .run, [] => some (m.goOn p [ins])
    | _, _ => none
  | .step p =>
    match m.stage p with
    | .run =>
      match m.code p with
      | [] => none
      | ins :: rest => m.exec p rest ins
    | .locking i b => m.acquire p i b
    | .reading i b => m.read p i b
    | .releasing i => some (m.release p i)

/-- `binit`: every buffer is put in front of those before it. -/
def binit (disk : Disk) : State ι where
  buf _ := ⟨0, 0, 0, false, false, none, fun _ => 0⟩
  next := ((List.finRange NBUF).foldl (fun links i => linkFront links.1 links.2 i)
    (fun _ => none, fun _ => none)).1
  prev := ((List.finRange NBUF).foldl (fun links i => linkFront links.1 links.2 i)
    (fun _ => none, fun _ => none)).2
  disk := disk
  lh := []
  code _ := []
  stage _ := .run
  var _ _ := none
  unsaved _ := false
  events := []

end State

/-! ### The invariant -/

/-- How often a process that is in the stage is counted in a buffer's `refcnt`. The one that has
the lock is counted there. -/
def Stage.uses : Stage → BufId → ℕ
  | .locking i _, j => if j = i then 1 else 0
  | .releasing i, j => if j = i then 1 else 0
  | _, _ => 0

/-- The buffer that a process in the stage is busy with. -/
def Stage.buf? : Stage → Option BufId
  | .run => none
  | .locking i _ => some i
  | .reading i _ => some i
  | .releasing i => some i

theorem Stage.uses_eq_zero {s : Stage} {j : BufId} (h : s.buf? ≠ some j) : s.uses j = 0 := by
  cases s with
  | run => rfl
  | locking i b => exact if_neg fun heq => h (congrArg some heq.symm)
  | reading i b => rfl
  | releasing i => exact if_neg fun heq => h (congrArg some heq.symm)

/-- How often the processes are counted in a buffer's `refcnt`, by their stages. -/
def users {ι : Type} [Fintype ι] (stage : ι → Stage) (i : BufId) : ℕ := ∑ p, (stage p).uses i

/-- Every read has found what was last stored before it. -/
def ReadsOk (disk : Disk) (events : List Event) : Prop :=
  ∀ before b data after, events = before ++ .read b data :: after →
    data = contents disk before b

namespace State

variable {ι : Type}

/-- What holds of buffer `i`, as `x` has it: its count is the number of its users, a process may
rely on what it has found out at its place, the buffer is not released while it is unsaved, and if
it is valid it has its block's contents. -/
structure BufOk [Fintype ι] (disk : Disk) (m : State ι) (i : BufId) (x : Buf ι) : Prop where
  refcnt : x.refcnt = users m.stage i + (if x.lock = none then 0 else 1)
  locking : ∀ p b, m.stage p = .locking i b → x.For b
  reading : ∀ p b, m.stage p = .reading i b → x.For b ∧ x.lock = some p ∧ x.valid = false
  releasing : ∀ p, m.stage p = .releasing i → x.dev = ROOTDEV
  var : ∀ p b, m.var p b = some i → x.For b ∧ x.lock = some p ∧ x.valid = true
  unsaved : m.unsaved i = true → x.lock ≠ none
  dirty : x.dirty = true → x.valid = true
  data : x.dev = ROOTDEV → x.valid = true → x.data = contents disk m.events x.blockno

/-- Block `b` is on the disk as it should be, unless a valid buffer for it is pinned or still in
the hands of who changed it. -/
def Backed (disk : Disk) (m : State ι) (b : BlockNo) : Prop :=
  m.disk b = contents disk m.events b ∨
    ∃ i, (m.buf i).For b ∧ (m.buf i).valid = true ∧
      ((m.buf i).dirty = true ∨ m.unsaved i = true)

/-- **The invariant of the buffer cache**, for a run that began with `disk` on the disk. -/
structure Inv [Fintype ι] (disk : Disk) (m : State ι) : Prop where
  circle : ∃ l, Circle m.next m.prev l ∧ ∀ i, i ∈ l
  unique : ∀ i j, (m.buf i).dev = ROOTDEV → (m.buf j).For (m.buf i).blockno → i = j
  buf : ∀ i, m.BufOk disk i (m.buf i)
  backed : ∀ b, m.Backed disk b
  reads : ReadsOk disk m.events

end State

/-! ### The events -/

theorem contents_concat (disk : Disk) (events : List Event) (e : Event) :
    contents disk (events ++ [e]) = e.apply (contents disk events) := by
  simp [contents]

theorem ReadsOk.concat {disk : Disk} {events : List Event} {e : Event} (h : ReadsOk disk events)
    (he : ∀ b data, e = .read b data → data = contents disk events b) :
    ReadsOk disk (events ++ [e]) := by
  intro before b data after heq
  rcases List.eq_nil_or_concat after with rfl | ⟨after', e', rfl⟩
  · obtain ⟨rfl, hlast⟩ := List.append_inj' heq rfl
    exact he b data (List.singleton_inj.mp hlast)
  · have heq' : events ++ [e] = (before ++ .read b data :: after') ++ [e'] := by
      simpa using heq
    obtain ⟨rfl, -⟩ := List.append_inj' heq' rfl
    exact h before b data after' rfl

/-! ### The counts -/

/-- A process moves to another stage. -/
theorem users_update {ι : Type} [Fintype ι] [DecidableEq ι] (stage : ι → Stage) (p : ι)
    (s : Stage) (i : BufId) :
    users (update stage p s) i + (stage p).uses i = users stage i + s.uses i := by
  unfold users
  rw [← Finset.add_sum_erase Finset.univ _ (Finset.mem_univ p),
    ← Finset.add_sum_erase Finset.univ (fun q => (stage q).uses i) (Finset.mem_univ p)]
  have hrest : ∑ q ∈ Finset.univ.erase p, (update stage p s q).uses i
      = ∑ q ∈ Finset.univ.erase p, (stage q).uses i := by
    apply Finset.sum_congr rfl
    intro q hq
    rw [update_of_ne (Finset.ne_of_mem_erase hq)]
  rw [hrest, update_self]
  omega

namespace State

variable {ι : Type} [Fintype ι] {disk : Disk} {m m' : State ι} {p : ι} {i : BufId} {b : BlockNo}

theorem BufOk.uses_le {x : Buf ι} (h : m.BufOk disk i x) (q : ι) :
    (m.stage q).uses i ≤ x.refcnt := by
  have hle : (m.stage q).uses i ≤ users m.stage i :=
    Finset.single_le_sum (f := fun p => (m.stage p).uses i) (fun _ _ => Nat.zero_le _)
      (Finset.mem_univ q)
  rw [h.refcnt]
  omega

/-- Nobody is anywhere with a buffer whose count is 0. -/
theorem BufOk.nobody {x : Buf ι} (h : m.BufOk disk i x) (hx : x.refcnt = 0) :
    x.lock = none ∧ m.unsaved i = false ∧ (∀ q b, m.var q b ≠ some i) ∧
      ∀ q, (m.stage q).buf? ≠ some i := by
  have hlock : x.lock = none := by
    by_contra hlock
    have hcount := h.refcnt
    rw [if_neg hlock] at hcount
    omega
  refine ⟨hlock, ?_, fun q b hvar => ?_, fun q hstage => ?_⟩
  · rw [← Bool.not_eq_true]
    exact fun hunsaved => h.unsaved hunsaved hlock
  · cases hlock.symm.trans (h.var q b hvar).2.1
  · have hle := h.uses_le q
    cases hq : m.stage q with
    | run => simp [hq, Stage.buf?] at hstage
    | locking j b =>
      obtain rfl : j = i := by simpa [hq, Stage.buf?] using hstage
      simp [hq, Stage.uses, hx] at hle
    | reading j b =>
      obtain rfl : j = i := by simpa [hq, Stage.buf?] using hstage
      cases hlock.symm.trans (h.reading q b hq).2.1
    | releasing j =>
      obtain rfl : j = i := by simpa [hq, Stage.buf?] using hstage
      simp [hq, Stage.uses, hx] at hle

/-- The buffer of a block is the only one for it. -/
theorem Inv.not_for_of_ne (h : m.Inv disk) (hi : (m.buf i).For b) : ∀ j ≠ i, ¬ (m.buf j).For b := by
  intro j hne hj
  exact hne (h.unique j i hj.1 ⟨hi.1, hi.2.trans hj.2.symm⟩)

/-- The block of a buffer is on the disk, or the buffer is valid and pinned or unsaved. -/
theorem Inv.backed_for (h : m.Inv disk) (hi : (m.buf i).For b) :
    m.disk b = contents disk m.events b ∨
      (m.buf i).valid = true ∧ ((m.buf i).dirty = true ∨ m.unsaved i = true) := by
  refine (h.backed b).imp_right fun ⟨j, hj, hpinned⟩ => ?_
  obtain rfl : j = i := by
    by_contra hne
    exact h.not_for_of_ne hi j hne hj
  exact hpinned

/-- What a step does: it keeps the invariant, and a buffer that is for another block afterwards had
no reference and was not dirty. -/
def Sound (disk : Disk) (m m' : State ι) : Prop :=
  m'.Inv disk ∧ ∀ i, ¬ ((m'.buf i).dev = (m.buf i).dev ∧ (m'.buf i).blockno = (m.buf i).blockno) →
    (m.buf i).Unused

/-- The log header and what the processes are going to do are not part of the invariant. -/
theorem Inv.code (h : m.Inv disk) (code : ι → List Instr) (lh : List BlockNo) :
    Sound disk m { m with code := code, lh := lh } := by
  refine ⟨?_, fun i hi => absurd ⟨rfl, rfl⟩ hi⟩
  exact
    { h with
      buf := fun i => { h.buf i with } }

/-- What `bread` has found is the last thing stored. -/
theorem Inv.reads_concat (h : m.Inv disk) {data : Block}
    (hdata : data = contents disk m.events b) : ReadsOk disk (m.events ++ [.read b data]) := by
  apply h.reads.concat
  rintro b' data' ⟨⟩
  exact hdata

/-! ### A step with one buffer -/

/-- A step of process `p` with buffer `i`: the process is busy with no other buffer before or after
it, only a variable for buffer `i` may change, and no other buffer does. -/
structure With [DecidableEq ι] (m m' : State ι) (p : ι) (i : BufId) (b : BlockNo) (x : Buf ι) :
    Prop where
  buf : m'.buf = update m.buf i x
  stage : ∃ s, m'.stage = update m.stage p s ∧
    ∀ j ≠ i, s.buf? ≠ some j ∧ (m.stage p).buf? ≠ some j
  var : ∀ q c j, j ≠ i → m'.var q c = some j → m.var q c = some j
  unsaved : ∀ j ≠ i, m'.unsaved j = m.unsaved j
  contents : ∀ disk c, c ≠ b → contents disk m'.events c = contents disk m.events c

section With

variable [DecidableEq ι] {x : Buf ι}

omit [Fintype ι] in
/-- Who is busy with another buffer after the step was so before it. -/
theorem With.stage_other (hwith : With m m' p i b x) {j : BufId} (hne : j ≠ i) {q : ι}
    (hq : (m'.stage q).buf? = some j) : m.stage q = m'.stage q := by
  obtain ⟨s, hstage, hs⟩ := hwith.stage
  rw [hstage, update_apply] at hq ⊢
  split at hq
  · exact absurd hq (hs j hne).1
  next hqp => rw [if_neg hqp]

/-- The other buffers are as they were. -/
theorem With.other (hwith : With m m' p i b x) {y : Buf ι} {j : BufId} (hne : j ≠ i)
    (hy : m.BufOk disk j y) (hb : y.dev = ROOTDEV → y.blockno ≠ b) : m'.BufOk disk j y where
  refcnt := by
    obtain ⟨s, hstage, hs⟩ := hwith.stage
    have husers := users_update m.stage p s j
    rw [Stage.uses_eq_zero (hs j hne).1, Stage.uses_eq_zero (hs j hne).2] at husers
    rw [hstage, hy.refcnt]
    omega
  locking q c hq := by
    have hsame := hwith.stage_other hne (q := q) (by rw [hq]; rfl)
    exact hy.locking q c (hsame.trans hq)
  reading q c hq := by
    have hsame := hwith.stage_other hne (q := q) (by rw [hq]; rfl)
    exact hy.reading q c (hsame.trans hq)
  releasing q hq := by
    have hsame := hwith.stage_other hne (q := q) (by rw [hq]; rfl)
    exact hy.releasing q (hsame.trans hq)
  var q c hq := hy.var q c (hwith.var q c j hne hq)
  unsaved hq := hy.unsaved (hwith.unsaved j hne ▸ hq)
  dirty := hy.dirty
  data hdev hvalid := (hy.data hdev hvalid).trans (hwith.contents disk _ (hb hdev)).symm

/-- **A step with one buffer keeps the invariant** if the buffer stays for its block, or becomes
the one for a block that had none; the disk may change in that block only, and a block that the
buffer was pinned for is not given up. -/
theorem Inv.change (h : m.Inv disk) (hwith : With m m' p i b x) (hx : x.For b)
    (hb : ∀ j ≠ i, ¬ (m.buf j).For b) (hi : m'.BufOk disk i x)
    (hcircle : ∃ l, Circle m'.next m'.prev l ∧ ∀ i, i ∈ l) (hreads : ReadsOk disk m'.events)
    (hold : ∀ c ≠ b, (m.buf i).For c → (m.buf i).dirty = false ∧ m.unsaved i = false)
    (hdisk : ∀ c ≠ b, m'.disk c = m.disk c)
    (hbacked : m'.disk b = contents disk m'.events b ∨
      x.valid = true ∧ (x.dirty = true ∨ m'.unsaved i = true)) : m'.Inv disk where
  circle := hcircle
  unique j k hj hk := by
    rw [hwith.buf, update_apply] at hj hk
    rw [update_apply] at hk
    by_cases hji : j = i
    · by_cases hki : k = i
      · rw [hji, hki]
      · rw [if_neg hki, if_pos hji, hx.2] at hk
        exact absurd hk (hb k hki)
    · rw [if_neg hji] at hj hk
      by_cases hki : k = i
      · rw [if_pos hki] at hk
        exact absurd ⟨hj, hk.2.symm.trans hx.2⟩ (hb j hji)
      · rw [if_neg hki] at hk
        exact h.unique j k hj hk
  buf j := by
    rw [hwith.buf, update_apply]
    split
    next heq => exact heq ▸ hi
    next hne => exact hwith.other hne (h.buf j) fun hdev hblockno => hb j hne ⟨hdev, hblockno⟩
  backed c := by
    by_cases hc : c = b
    · subst hc
      refine hbacked.imp_right fun hpinned => ⟨i, ?_⟩
      rw [hwith.buf, update_self]
      exact ⟨hx, hpinned⟩
    · obtain hsame | ⟨j, hfor, hvalid, hpinned⟩ := h.backed c
      · left
        rw [hdisk c hc, hsame, hwith.contents disk c hc]
      · right
        have hne : j ≠ i := by
          rintro rfl
          obtain ⟨hclean, hsaved⟩ := hold c hc hfor
          simp [hclean, hsaved] at hpinned
        have hbuf : m'.buf j = m.buf j := by rw [hwith.buf, update_of_ne hne]
        refine ⟨j, ?_⟩
        rw [hbuf, hwith.unsaved j hne]
        exact ⟨hfor, hvalid, hpinned⟩
  reads := hreads

/-- The case where the buffer stays for its block. -/
theorem Inv.change_same (h : m.Inv disk) (hi : (m.buf i).For b) (hwith : With m m' p i b x)
    (hx : x.For b) (hok : m'.BufOk disk i x)
    (hcircle : ∃ l, Circle m'.next m'.prev l ∧ ∀ i, i ∈ l) (hreads : ReadsOk disk m'.events)
    (hdisk : ∀ c ≠ b, m'.disk c = m.disk c)
    (hbacked : m'.disk b = contents disk m'.events b ∨
      x.valid = true ∧ (x.dirty = true ∨ m'.unsaved i = true)) : Sound disk m m' := by
  refine ⟨h.change hwith hx (h.not_for_of_ne hi) hok hcircle hreads
    (fun _ hc hfor => absurd (hfor.2.symm.trans hi.2) hc) hdisk hbacked, fun j => absurd ?_⟩
  rw [hwith.buf, update_apply]
  split
  next heq => exact heq ▸ ⟨hx.1.trans hi.1.symm, hx.2.trans hi.2.symm⟩
  next => exact ⟨rfl, rfl⟩

end With

/-! ### `bread` -/

section Bread

variable [DecidableEq ι]

/-- `bget` finds the block's buffer and counts one more reference. -/
def found (m : State ι) (p : ι) (i : BufId) (b : BlockNo) : State ι :=
  (m.setBuf i { m.buf i with refcnt := (m.buf i).refcnt + 1 }).goto p (.locking i b)

/-- `bget` recycles a buffer. -/
def recycled (m : State ι) (p : ι) (i : BufId) (b : BlockNo) : State ι :=
  (m.setBuf i { m.buf i with
    dev := ROOTDEV, blockno := b, valid := false, dirty := false, refcnt := 1 }).goto p
      (.locking i b)

variable (h : m.Inv disk)

include h

/-- What `bget` does: the buffer found is the block's, and a recycled one is unused while the
block has none. -/
theorem bget_cases (hstep : m.bget p b = some m') :
    (∃ i, (m.buf i).For b ∧ m' = m.found p i b) ∨
      ∃ i, (∀ j, ¬ (m.buf j).For b) ∧ (m.buf i).Unused ∧ m' = m.recycled p i b := by
  obtain ⟨l, hcircle, hall⟩ := h.circle
  have hlen : l.length < NBUF + 1 := by
    have hle := hcircle.nodup.length_le_card
    rw [Fintype.card_fin] at hle
    omega
  unfold bget at hstep
  rw [hcircle.search_next hlen, hcircle.search_prev hlen] at hstep
  cases hfind : l.find? fun i => decide ((m.buf i).For b) with
  | some i =>
    rw [hfind] at hstep
    obtain rfl := Option.some.inj hstep
    exact .inl ⟨i, by simpa using List.find?_some hfind, rfl⟩
  | none =>
    rw [hfind] at hstep
    have hnone : ∀ j, ¬ (m.buf j).For b := fun j => by
      simpa using List.find?_eq_none.mp hfind j (hall j)
    cases hback : l.reverse.find? fun i => decide ((m.buf i).Unused) with
    | none => simp [hback] at hstep
    | some i =>
      simp only [hback] at hstep
      obtain rfl := Option.some.inj hstep
      exact .inr ⟨i, hnone, by simpa using List.find?_some hback, rfl⟩

theorem Inv.found (hrun : m.stage p = .run) (hi : (m.buf i).For b) :
    Sound disk m (m.found p i b) := by
  have husers := users_update m.stage p (.locking i b) i
  simp only [hrun, Stage.uses, if_true] at husers
  refine h.change_same (p := p) hi ⟨rfl, ⟨_, rfl, ?_⟩, fun _ _ _ _ => id, fun _ _ => rfl, ?_⟩ hi ?_
    h.circle h.reads (fun _ _ => rfl) (h.backed_for hi)
  · intro j hne
    simpa [hrun, Stage.buf?] using hne.symm
  · exact fun _ _ _ => rfl
  · obtain ⟨hrefcnt, hlocking, hreading, hreleasing, hvar, hunsaved, hdirty, hdata⟩ := h.buf i
    constructor
    all_goals
      simp only [State.found, goto, setBuf, update_apply, Buf.For] at *
      grind -linarith

/-- Nobody is anywhere with the buffer that is recycled, and its old block is on the disk. -/
theorem Inv.recycled (hrun : m.stage p = .run) (hnone : ∀ j, ¬ (m.buf j).For b)
    (hi : (m.buf i).Unused) : Sound disk m (m.recycled p i b) := by
  obtain ⟨hlock, hsaved, hnovar, hnobody⟩ := (h.buf i).nobody hi.1
  have husers := users_update m.stage p (.locking i b) i
  simp only [hrun, Stage.uses, if_true] at husers
  have hdisk : m.disk b = contents disk m.events b := by
    obtain hdisk | ⟨j, hj, -⟩ := h.backed b
    · exact hdisk
    · exact absurd hj (hnone j)
  refine ⟨h.change (p := p) (i := i) ⟨rfl, ⟨_, rfl, ?_⟩, fun _ _ _ _ => id, fun _ _ => rfl, ?_⟩
    ⟨rfl, rfl⟩ (fun j _ => hnone j) ?_ h.circle h.reads (fun _ _ _ => ⟨hi.2, hsaved⟩)
    (fun _ _ => rfl) (.inl hdisk), fun j hj => ?_⟩
  · intro j hne
    simpa [hrun, Stage.buf?] using hne.symm
  · exact fun _ _ _ => rfl
  · obtain ⟨hrefcnt, -⟩ := h.buf i
    obtain ⟨hzero, -⟩ := hi
    constructor
    all_goals
      simp only [State.recycled, goto, setBuf, update_apply, Buf.For] at *
      grind -linarith [Stage.buf?]
  · obtain rfl : j = i := by
      by_contra hne
      have hbuf : (m.recycled p i b).buf j = m.buf j := update_of_ne hne ..
      exact hj (hbuf ▸ ⟨rfl, rfl⟩)
    exact hi

theorem Inv.bget (hrun : m.stage p = .run) (hstep : m.bget p b = some m') :
    Sound disk m m' := by
  obtain ⟨i, hi, rfl⟩ | ⟨i, hnone, hi, rfl⟩ := bget_cases h hstep
  · exact h.found hrun hi
  · exact h.recycled hrun hnone hi

/-- `bread` returns a buffer that has become the process's own, or is so already, and is valid. -/
theorem Inv.returned {x : Buf ι} (hfor : (m.buf i).For b) (hx : x.For b)
    (hstage : m.stage p = .locking i b ∧ (m.buf i).lock = none ∨
      m.stage p = .reading i b ∧ (m.buf i).lock = some p) (hlock : x.lock = some p)
    (hvalid : x.valid = true) (hrefcnt : x.refcnt = (m.buf i).refcnt)
    (hdirty : x.dirty = (m.buf i).dirty) (hdata : x.data = contents disk m.events b) :
    Sound disk m ((m.setBuf i x).returned p i b) := by
  have husers := users_update m.stage p .run i
  refine h.change_same (p := p) hfor ⟨rfl, ⟨_, rfl, ?_⟩, ?_, fun _ _ => rfl, ?_⟩ hx ?_
    h.circle ?_ (fun _ _ => rfl) ?_
  · intro j hne
    rcases hstage with ⟨hstage, -⟩ | ⟨hstage, -⟩ <;>
      simpa [hstage, Stage.buf?] using hne.symm
  · intro q c j hne hq
    simp only [State.returned, setVar, State.log, goto, setBuf, update_apply] at hq
    grind -linarith
  · intro disk c _
    simp only [State.returned, State.log, contents_concat, Event.apply]
    rfl
  · obtain ⟨hcount, hlocking, hreading, hreleasing, hvar, hunsaved, -, -⟩ := h.buf i
    constructor
    all_goals
      simp only [State.returned, setVar, State.log, goto, setBuf, update_apply, Buf.For,
        contents_concat, Event.apply] at *
      grind -linarith [Stage.uses]
  · simp only [State.returned, State.log, setBuf, update_self]
    exact h.reads_concat hdata
  · simp only [State.returned, State.log, contents_concat, Event.apply]
    exact (h.backed_for hfor).imp_right fun hpinned => ⟨hvalid, hdirty ▸ hpinned.2⟩

theorem Inv.acquire (hstage : m.stage p = .locking i b) (hstep : m.acquire p i b = some m') :
    Sound disk m m' := by
  have hok := h.buf i
  have hfor : (m.buf i).For b := hok.locking p b hstage
  simp only [State.acquire] at hstep
  split at hstep
  · cases hstep
  next hlock =>
  split at hstep
  next hvalid =>
    obtain rfl := Option.some.inj hstep
    refine h.returned hfor hfor (.inl ⟨hstage, not_not.mp hlock⟩) rfl hvalid rfl rfl ?_
    rw [hok.data hfor.1 hvalid, hfor.2]
  next hvalid =>
    have husers := users_update m.stage p (.reading i b) i
    simp only [hstage, Stage.uses, if_true] at husers
    obtain rfl := Option.some.inj hstep
    refine h.change_same (p := p) hfor ⟨rfl, ⟨_, rfl, ?_⟩, fun _ _ _ _ => id, fun _ _ => rfl, ?_⟩
      hfor ?_ h.circle h.reads (fun _ _ => rfl) (h.backed_for hfor)
    · intro j hne
      simpa [hstage, Stage.buf?] using hne.symm
    · exact fun _ _ _ => rfl
    · obtain ⟨hrefcnt, hlocking, hreading, hreleasing, hvar, hunsaved, hdirty, hdata⟩ := hok
      constructor
      all_goals
        simp only [goto, setBuf, update_apply, Buf.For] at *
        grind -linarith

/-- `iderw` in `bread`: the buffer is not valid, so it is not dirty either and the block is read;
the disk has its contents, since no valid buffer is for the block. -/
theorem Inv.read (hstage : m.stage p = .reading i b) (hstep : m.read p i b = some m') :
    Sound disk m m' := by
  have hok := h.buf i
  obtain ⟨hfor, hlock, hvalid⟩ := hok.reading p b hstage
  have hclean : (m.buf i).dirty = false := by
    rw [← Bool.not_eq_true]
    intro hdirty
    cases hvalid.symm.trans (hok.dirty hdirty)
  simp only [State.read, iderw, hvalid, hclean, Bool.false_eq_true, false_and, if_false] at hstep
  split at hstep
  · cases hstep
  split at hstep
  · cases hstep
  obtain rfl := Option.some.inj hstep
  refine h.returned hfor hfor (.inr ⟨hstage, hlock⟩) hlock rfl rfl hclean.symm ?_
  show m.disk (m.buf i).blockno = _
  rw [hfor.2]
  obtain hdisk | ⟨hvalid', -⟩ := h.backed_for hfor
  · exact hdisk
  · cases hvalid.symm.trans hvalid'

end Bread

/-! ### Using a buffer -/

section Held

variable [DecidableEq ι]

omit [Fintype ι] in
/-- A step after which the process is still at its next instruction. -/
theorem stay (hrun : m.stage p = .run) :
    ∃ s, m.stage = update m.stage p s ∧
      ∀ j ≠ i, s.buf? ≠ some j ∧ (m.stage p).buf? ≠ some j := by
  refine ⟨.run, ?_, fun j _ => by simp [hrun, Stage.buf?]⟩
  rw [← hrun, update_eq_self]

section

variable (h : m.Inv disk) (hrun : m.stage p = .run) (hvar : m.var p b = some i)

include h hrun hvar

/-- A change of the data in a buffer that the process has. -/
theorem Inv.store (data : Block) : Sound disk m (m.store i b data) := by
  have hok := h.buf i
  obtain ⟨hfor, hlock, hvalid⟩ := hok.var p b hvar
  refine h.change_same (p := p) hfor ⟨rfl, stay hrun, fun _ _ _ _ => id, ?_, ?_⟩ hfor ?_
    h.circle ?_ (fun _ _ => rfl) (.inr ⟨hvalid, .inr ?_⟩)
  · exact fun j hne => update_of_ne hne ..
  · intro disk c hc
    simp only [State.store, State.log, contents_concat, Event.apply]
    exact update_of_ne hc ..
  · have hblockno : (m.buf i).blockno = b := hfor.2
    obtain ⟨hrefcnt, hlocking, hreading, hreleasing, hvar, hunsaved, hdirty, hdata⟩ := hok
    constructor
    all_goals
      simp only [State.store, State.log, setBuf, update_apply, Buf.For, contents_concat,
        Event.apply] at *
      grind -linarith
  · apply h.reads.concat
    rintro b' data' ⟨⟩
  · exact update_self ..

/-- `log_write` pins the buffer, which from now on backs its block. -/
theorem Inv.logWrite (hstep : m.logWrite i = some m') : Sound disk m m' := by
  have hok := h.buf i
  obtain ⟨hfor, hlock, hvalid⟩ := hok.var p b hvar
  unfold State.logWrite at hstep
  split at hstep
  · cases hstep
  obtain rfl := Option.some.inj hstep
  refine h.change_same (p := p) hfor ⟨rfl, stay hrun, fun _ _ _ _ => id, ?_, ?_⟩ hfor ?_
    h.circle h.reads (fun _ _ => rfl) (.inr ⟨hvalid, .inl rfl⟩)
  · exact fun j hne => update_of_ne hne ..
  · exact fun _ _ _ => rfl
  · obtain ⟨hrefcnt, hlocking, hreading, hreleasing, hvar, hunsaved, hdirty, hdata⟩ := hok
    constructor
    all_goals
      simp only [setBuf, update_apply, Buf.For] at *
      grind -linarith

/-- `bwrite` puts the buffer's data on the disk. -/
theorem Inv.bwrite (hstep : m.bwrite p i = some m') : Sound disk m m' := by
  have hok := h.buf i
  obtain ⟨hfor, hlock, hvalid⟩ := hok.var p b hvar
  have hdata : (m.buf i).data = contents disk m.events b := by
    rw [hok.data hfor.1 hvalid, hfor.2]
  simp only [State.bwrite, iderw, setBuf, update_self, hlock, ne_eq,
    not_true_eq_false, if_false, Bool.true_eq_false, and_false, if_true,
    update_idem] at hstep
  split at hstep
  · cases hstep
  split at hstep
  · cases hstep
  obtain rfl := Option.some.inj hstep
  refine h.change_same (p := p) hfor ⟨rfl, stay hrun, fun _ _ _ _ => id, ?_, ?_⟩ hfor ?_
    h.circle h.reads ?_ (.inl ?_)
  · exact fun j hne => update_of_ne hne ..
  · exact fun _ _ _ => rfl
  · obtain ⟨hrefcnt, hlocking, hreading, hreleasing, hvar, hunsaved, hdirty, hdata⟩ := hok
    constructor
    all_goals
      simp only [update_apply, Buf.For] at *
      grind -linarith
  · exact fun c hc => update_of_ne (fun heq => hc (heq.trans hfor.2)) ..
  · rw [← hdata, ← hfor.2]
    exact update_self ..

/-- `releasesleep`: the process gives up the lock and its variable, but is still counted. -/
theorem Inv.brelse (hstep : m.brelse p i b = some m') : Sound disk m m' := by
  have hok := h.buf i
  obtain ⟨hfor, hlock, hvalid⟩ := hok.var p b hvar
  have husers := users_update m.stage p (.releasing i) i
  simp only [hrun, Stage.uses, if_true] at husers
  simp only [State.brelse, hlock, ne_eq, not_true_eq_false, if_false] at hstep
  split at hstep
  · cases hstep
  next hsaved =>
  obtain rfl := Option.some.inj hstep
  refine h.change_same (p := p) hfor ⟨rfl, ⟨_, rfl, ?_⟩, ?_, fun _ _ => rfl, ?_⟩ hfor ?_
    h.circle h.reads (fun _ _ => rfl) (h.backed_for hfor)
  · intro j hne
    simpa [hrun, Stage.buf?] using hne.symm
  · intro q c j hne hq
    simp only [setVar, goto, setBuf, update_apply] at hq
    grind -linarith
  · exact fun _ _ _ => rfl
  · obtain ⟨hrefcnt, hlocking, hreading, hreleasing, hvar', hunsaved, hdirty, hdata⟩ := hok
    constructor
    all_goals
      simp only [setVar, goto, setBuf, update_apply, Buf.For] at *
      grind -linarith

end

/-- The section of `brelse` under `bcache.lock`: one user less, and the list is still the circle of
all buffers. -/
theorem Inv.release (h : m.Inv disk) (hstage : m.stage p = .releasing i) :
    Sound disk m (m.release p i) := by
  have hok := h.buf i
  have hfor : (m.buf i).For (m.buf i).blockno := ⟨hok.releasing p hstage, rfl⟩
  have husers := users_update m.stage p .run i
  simp only [hstage, Stage.uses, if_true] at husers
  have hwith : ∀ next prev, With m
      { (m.setBuf i { m.buf i with refcnt := (m.buf i).refcnt - 1 }).goto p .run with
        next := next, prev := prev } p i (m.buf i).blockno
      { m.buf i with refcnt := (m.buf i).refcnt - 1 } := by
    intro next prev
    refine ⟨rfl, ⟨_, rfl, ?_⟩, fun _ _ _ _ => id, fun _ _ => rfl, fun _ _ _ => rfl⟩
    intro j hne
    simpa [hstage, Stage.buf?] using hne.symm
  have hi : ∀ next prev, BufOk disk
      { (m.setBuf i { m.buf i with refcnt := (m.buf i).refcnt - 1 }).goto p .run with
        next := next, prev := prev } i { m.buf i with refcnt := (m.buf i).refcnt - 1 } := by
    intro next prev
    obtain ⟨hrefcnt, hlocking, hreading, hreleasing, hvar, hunsaved, hdirty, hdata⟩ := hok
    constructor
    all_goals
      simp only [goto, setBuf, update_apply, Buf.For] at *
      grind -linarith
  unfold State.release
  split
  · obtain ⟨l, hcircle, hall⟩ := h.circle
    obtain ⟨front, back, rfl⟩ := List.append_of_mem (hall i)
    have hout := hcircle.unlink
    have hi' : i ∉ front ++ back := (List.nodup_cons.mp (List.nodup_middle.mp hcircle.nodup)).1
    refine h.change_same hfor (hwith _ _) hfor (hi _ _) ⟨_, hout.linkFront hi', fun j => ?_⟩
      h.reads (fun _ _ => rfl) (h.backed_for hfor)
    have hj := hall j
    simp only [List.mem_append, List.mem_cons] at hj ⊢
    tauto
  · exact h.change_same hfor (hwith m.next m.prev) hfor (hi _ _) h.circle h.reads (fun _ _ => rfl)
      (h.backed_for hfor)

end Held

/-! ### Whole runs -/

section Runs

variable [DecidableEq ι]

/-- Every instruction keeps the invariant. -/
theorem Inv.exec (h : m.Inv disk) (hrun : m.stage p = .run) {rest : List Instr} {ins : Instr}
    (hstep : m.exec p rest ins = some m') : Sound disk m m' := by
  have hcode : ∀ code, Sound disk m (m.goOn p code) := fun code => h.code _ m.lh
  have hrest := (hcode rest).1
  cases ins with
  | bread b => exact hrest.bget hrun hstep
  | store b f =>
    obtain ⟨i, hvar, rfl⟩ := Option.map_eq_some_iff.mp hstep
    exact hrest.store hrun hvar _
  | memmove dst src =>
    simp only [State.exec] at hstep
    split at hstep
    next i j hdst hsrc =>
      obtain rfl := Option.some.inj hstep
      exact hrest.store hrun hdst _
    · cases hstep
  | logWrite b =>
    obtain ⟨i, hvar, hstep⟩ := Option.bind_eq_some_iff.mp hstep
    exact hrest.logWrite hrun hvar hstep
  | bwrite b =>
    obtain ⟨i, hvar, hstep⟩ := Option.bind_eq_some_iff.mp hstep
    exact hrest.bwrite hrun hvar hstep
  | brelse b =>
    obtain ⟨i, hvar, hstep⟩ := Option.bind_eq_some_iff.mp hstep
    exact hrest.brelse hrun hvar hstep
  | commit =>
    simp only [State.exec, Option.some.injEq] at hstep
    subst hstep
    split <;> exact hcode _
  | writeLog tail =>
    simp only [State.exec] at hstep
    split at hstep <;> (obtain rfl := Option.some.inj hstep; exact hcode _)
  | writeHead =>
    obtain rfl := Option.some.inj hstep
    exact hcode _
  | putHead =>
    obtain ⟨i, hvar, rfl⟩ := Option.map_eq_some_iff.mp hstep
    exact hrest.store hrun hvar _
  | installTrans tail =>
    simp only [State.exec] at hstep
    split at hstep <;> (obtain rfl := Option.some.inj hstep; exact hcode _)
  | clear =>
    obtain rfl := Option.some.inj hstep
    exact h.code _ _

theorem Inv.step (h : m.Inv disk) {a : Label ι} (hstep : m.step a = some m') : Sound disk m m' := by
  cases a with
  | call p ins =>
    simp only [State.step] at hstep
    split at hstep
    · obtain rfl := Option.some.inj hstep
      exact h.code _ m.lh
    · cases hstep
  | step p =>
    simp only [State.step] at hstep
    split at hstep
    next hrun =>
      split at hstep
      · cases hstep
      · exact h.exec hrun hstep
    next i b hstage => exact h.acquire hstage hstep
    next i b hstage => exact h.read hstage hstep
    next i hstage =>
      obtain rfl := Option.some.inj hstep
      exact h.release hstage

omit [DecidableEq ι] in
theorem binit_inv (disk : Disk) : (binit disk : State ι).Inv disk where
  circle := by
    refine ⟨_, Circle.foldl_linkFront (.nil rfl rfl) (List.nodup_finRange NBUF) (by simp), ?_⟩
    intro i
    simp [List.mem_finRange]
  unique i j hi := by cases hi
  buf i :=
    { refcnt := by simp [binit, users, Stage.uses]
      locking := nofun
      reading := nofun
      releasing := nofun
      var := nofun
      unsaved := nofun
      dirty := nofun
      data := nofun }
  backed b := .inl rfl
  reads before b data after h := by simp [binit] at h

theorem Inv.run {as : List (Label ι)}
    (hrun : Framework.run State.step (binit disk) as = some m) : m.Inv disk := by
  have hpreserved : ∀ (s : State ι) a s', s.Inv disk → True → s.step a = some s' → s'.Inv disk :=
    fun _ _ _ h _ hstep => (h.step hstep).1
  exact run_preserves hpreserved (binit_inv disk) (along_true _ as) hrun

/-- **The buffer cache is coherent.** In every run of any processes from `binit` on, with any
interleaving of `bread`, in-place changes passed on to `log_write` or `bwrite`, `brelse` and
`commit`:

* a block of the file system's device has at most one buffer;
* the list through `next` and `prev` is a circle of all `NBUF` buffers around `bcache.head`, and
  the two links are inverse;
* no step gives a buffer that has a reference or is dirty to another block;
* every `bread` of a block has returned what was last stored for the block before, or what the
  disk had if nothing was. -/
theorem coherent {as : List (Label ι)}
    (hrun : Framework.run State.step (binit disk) as = some m) :
    (∀ i j, (m.buf i).dev = ROOTDEV → (m.buf j).dev = ROOTDEV →
      (m.buf i).blockno = (m.buf j).blockno → i = j) ∧
    (∃ l, l.Perm (List.finRange NBUF) ∧ Circle m.next m.prev l) ∧
    (∀ n, m.prev (m.next n) = n ∧ m.next (m.prev n) = n) ∧
    (∀ a m', m.step a = some m' → ∀ i, 0 < (m.buf i).refcnt ∨ (m.buf i).dirty = true →
      (m'.buf i).dev = (m.buf i).dev ∧ (m'.buf i).blockno = (m.buf i).blockno) ∧
    ∀ before b data after, m.events = before ++ .read b data :: after →
      data = contents disk before b := by
  have h := Inv.run hrun
  obtain ⟨l, hcircle, hall⟩ := h.circle
  refine ⟨fun i j hi hj heq => h.unique i j hi ⟨hj, heq.symm⟩, ⟨l, ?_, hcircle⟩, fun n => ?_, ?_,
    h.reads⟩
  · apply (List.perm_ext_iff_of_nodup hcircle.nodup (List.nodup_finRange NBUF)).mpr
    exact fun i => iff_of_true (hall i) (List.mem_finRange i)
  · exact ⟨hcircle.prev_next fun i _ => hall i, hcircle.next_prev fun i _ => hall i⟩
  · intro a m' hstep i hused
    by_contra hi
    obtain ⟨hzero, hclean⟩ := (h.step hstep).2 i hi
    rcases hused with hused | hused
    · omega
    · cases hclean.symm.trans hused

end Runs

/-- Process 0 changes block 50 and logs it, process 1 commits, and process 0 reads the block
again. -/
def changeCommitRead : List (Label (Fin 2)) :=
  [.call 0 (.bread 50), .step 0, .step 0, .step 0, .call 0 (.store 50 fun _ _ => 7), .step 0,
    .call 1 (.bread 50), .step 1, .call 0 (.logWrite 50), .step 0, .call 0 (.brelse 50), .step 0,
    .step 1, .step 0, .call 1 (.brelse 50), .step 1, .step 1, .call 1 .commit] ++
  List.replicate 42 (.step 1) ++ [.call 0 (.bread 50), .step 0, .step 0]

theorem coherent_changeCommitRead :
    ∃ m, run State.step (binit fun _ _ => 0) changeCommitRead = some m ∧ m.lh = [] ∧
      m.events.getLast?.any (fun e => match e with
        | .read b data => b == 50 && data 3 == 7
        | _ => false) ∧
      (∀ i j, (m.buf i).dev = ROOTDEV → (m.buf j).dev = ROOTDEV →
        (m.buf i).blockno = (m.buf j).blockno → i = j) ∧
      ∀ before b data after, m.events = before ++ .read b data :: after →
        data = contents (fun _ _ => 0) before b := by
  have hrun : (run State.step (binit fun _ _ => 0) changeCommitRead).map
      (fun m => (m.lh, m.events.getLast?.any (fun e => match e with
        | .read b data => b == 50 && data 3 == 7
        | _ => false))) = some ([], true) := by decide +kernel
  obtain ⟨m, hm, hfields⟩ := Option.map_eq_some_iff.mp hrun
  simp only [Prod.mk.injEq] at hfields
  exact ⟨m, hm, hfields.1, hfields.2, (coherent hm).1, (coherent hm).2.2.2.2⟩

end State

end Xv6.BufferCache
