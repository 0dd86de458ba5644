import Assignments.Framework.Chain
import Assignments.Xv6.Bio

/-!
# The disk queue of the IDE driver

`ide.c` keeps the requests that have not completed in a queue of buffers linked by `qnext`. The
head of the queue is the request the disk is working on: `iderw` appends its buffer, starts the
disk if the queue was empty, and sleeps until the buffer is valid and clean; `ideintr`, run when
the disk raises its interrupt, takes the head off the queue, copies the sector that was read,
wakes its process and starts the disk on the next buffer. All of it happens under `idelock`, so
a section between taking and giving up the lock is one step here; the disk itself works on the
started command at any time in between.

* `iderw`, `ideintr`, `idestart` — the driver; a `panic` gives no result;
* `State.next` — the steps: a section of the driver, the disk finishing a command, and a process
  outside the driver changing a buffer that it holds;
* `Inv` — the queue, the logs of what was appended, started and served, and the disk, in step;
* `requests_in_order` — requests are served once each, in the order they were appended, the
  head of the queue is the one started, and a call returns with its own request served.
-/

namespace Xv6.Ide

open Framework Function List

/-- The two disks behind the controller; `dev & 1` selects one. -/
abbrev Disks := Fin 2 → BlockNo → Block

/-- The fields of `struct buf` that the driver reads or writes; the link `qnext` is kept apart,
in the state. -/
structure Buf where
  /-- `B_VALID` -/
  valid : Bool
  /-- `B_DIRTY` -/
  dirty : Bool
  dev : ℕ
  blockno : ℕ
  data : Block

/-- The test of the loop in `iderw`: `(flags & (B_VALID|B_DIRTY)) == B_VALID`. -/
def Buf.Synced (x : Buf) : Prop := x.valid = true ∧ x.dirty = false

instance (x : Buf) : Decidable x.Synced := inferInstanceAs (Decidable (_ ∧ _))

/-- What the driver's registers hold when a command is issued: the disk, the sector number in
its four bytes, and the words sent for a write. -/
structure Command where
  disk : Fin 2
  lba : ℕ
  words : Option Block

/-- The disk controller: idle, working on a command, or done with one, its interrupt raised and
the given words to be read from the data port. -/
inductive Device where
  | idle
  | busy (c : Command)
  | raised (port : Block)

/-- A request: the buffer it is for and that buffer's fields. -/
structure Request (β : Type) where
  buf : β
  dev : ℕ
  blockno : ℕ
  dirty : Bool
  data : Block

/-- The sector number as the controller puts it together from the registers `0x1f3` to `0x1f6`,
with one sector to a block. -/
def sector (blockno : ℕ) : ℕ :=
  blockno % 256 + blockno / 2 ^ 8 % 256 * 2 ^ 8 + blockno / 2 ^ 16 % 256 * 2 ^ 16
    + blockno / 2 ^ 24 % 16 * 2 ^ 24

/-- The command `idestart` issues for a request. -/
def Request.command {β : Type} (r : Request β) : Command where
  disk := Fin.ofNat 2 r.dev
  lba := sector r.blockno
  words := if r.dirty then some r.data else none

/-- What serving a request makes of the disks: a write stores the buffer's words in its block,
a read changes nothing. -/
def Request.apply {β : Type} (d : Disks) (r : Request β) : Disks :=
  if r.dirty then
    update d (Fin.ofNat 2 r.dev)
      (update (d (Fin.ofNat 2 r.dev)) r.blockno r.data)
  else d

/-- Where the holder of a buffer's lock stands: not in `iderw`, or in its loop, with the number
its request was given when it was appended. -/
inductive Phase where
  | out
  | waiting (ticket : ℕ)
deriving DecidableEq

/-- A call of `iderw` that has returned: its buffer, its request's number, and the buffer as the
caller finds it. -/
structure Return (β : Type) where
  buf : β
  ticket : ℕ
  found : Buf

/-- The driver, the disks and the processes that hold buffers. The last four fields are logs
that the program does not have: the requests in the order they were appended, started and
served, the last with the disks at that time, and the calls that have returned. -/
structure State (β : Type) where
  buf : β → Buf
  qnext : β → Option β
  idequeue : Option β
  device : Device
  disks : Disks
  phase : β → Phase
  appended : List (Request β)
  started : List (Request β)
  served : List (Request β × Disks)
  returned : List (Return β)

namespace State

variable {β : Type}

/-- The request that buffer `b` stands for as it is now. -/
def request (m : State β) (b : β) : Request β where
  buf := b
  dev := (m.buf b).dev
  blockno := (m.buf b).blockno
  dirty := (m.buf b).dirty
  data := (m.buf b).data

/-- `idestart(b)`: issue the command for `b`. A block beyond the disk is a `panic`. -/
def idestart (m : State β) (b : β) : Option (State β) :=
  if FSSIZE ≤ (m.buf b).blockno then none
  else some { m with
    device := .busy (m.request b).command
    started := m.started ++ [m.request b] }

/-- The controller finishes the command it works on and raises the interrupt. -/
def complete (m : State β) : Option (State β) :=
  match m.device with
  | .busy c =>
    match c.words with
    | none => some { m with device := .raised (m.disks c.disk c.lba) }
    | some x => some { m with
        device := .raised x
        disks := update m.disks c.disk (update (m.disks c.disk) c.lba x) }
  | _ => none

variable [DecidableEq β]

/-- `ideintr` up to its last test, at the head `b` of the queue: the head is taken off, the words
on the data port are copied if it was a read, and its flags are set. -/
def dequeue (m : State β) (b : β) (port : Block) : State β :=
  { m with
    idequeue := m.qnext b
    device := .idle
    buf := update m.buf b
      { m.buf b with
        data := if (m.buf b).dirty then (m.buf b).data else port, valid := true, dirty := false }
    served := m.served ++ [(m.request b, m.disks)] }

/-- `ideintr`, under `idelock`, once an interrupt was raised. -/
def ideintr (m : State β) : Option (State β) :=
  match m.device with
  | .raised port =>
    match m.idequeue with
    | none => some { m with device := .idle }
    | some b =>
      match (m.dequeue b port).idequeue with
      | none => some (m.dequeue b port)
      | some c => (m.dequeue b port).idestart c
  | _ => none

/-- `iderw(b)` once its buffer is appended, with the queue's pointers as given. -/
def enqueue (m : State β) (b : β) (idequeue : Option β) (qnext : β → Option β) : State β :=
  { m with
    qnext := qnext
    idequeue := idequeue
    phase := update m.phase b (.waiting m.appended.length)
    appended := m.appended ++ [m.request b] }

/-- `iderw(b)` up to its loop: the checks, and under `idelock` the append and the start of the
disk. The caller holds the lock of `b` and is not in the driver with it already. -/
def iderw [Fintype β] (havedisk1 : Bool) (m : State β) (b : β) : Option (State β) :=
  if m.phase b ≠ .out then none
  else if (m.buf b).Synced then none
  else if (m.buf b).dev ≠ 0 ∧ havedisk1 = false then none
  else
    match appendCell m.qnext (Fintype.card β) m.idequeue b with
    | none => none
    | some (idequeue, qnext) =>
      if idequeue = some b then (m.enqueue b idequeue qnext).idestart b
      else some (m.enqueue b idequeue qnext)

/-- The loop of `iderw(b)`, back from `sleep` or at its first test: the call returns if the
buffer is valid and clean and sleeps on if not. -/
def test (m : State β) (b : β) : Option (State β) :=
  match m.phase b with
  | .out => none
  | .waiting k =>
    if (m.buf b).Synced then
      some { m with
        phase := update m.phase b .out
        returned := m.returned ++ [⟨b, k, m.buf b⟩] }
    else some m

/-- A buffer that is not in the driver is changed: its holder writes to it, or `bget` gives it
to another block. -/
def change (m : State β) (b : β) (x : Buf) : Option (State β) :=
  if m.phase b = .out then some { m with buf := update m.buf b x } else none

end State

/-- The steps of the driver and of what surrounds it. -/
inductive Label (β : Type) where
  | iderw (b : β)
  | test (b : β)
  | change (b : β) (x : Buf)
  | complete
  | ideintr

namespace State

variable {β : Type}

/-- One step. -/
def next [DecidableEq β] [Fintype β] (havedisk1 : Bool) (m : State β) : Label β → Option (State β)
  | .iderw b => m.iderw havedisk1 b
  | .test b => m.test b
  | .change b x => m.change b x
  | .complete => m.complete
  | .ideintr => m.ideintr

/-- The driver before its first request, with the disks `d`. -/
structure Quiet (d : Disks) (m : State β) : Prop where
  idequeue : m.idequeue = none
  device : m.device = .idle
  disks : m.disks = d
  phase : ∀ b, m.phase b = .out
  appended : m.appended = []
  started : m.started = []
  served : m.served = []
  returned : m.returned = []

/-- The requests served so far, in order. -/
def servedRequests (m : State β) : List (Request β) := m.served.map Prod.fst

/-- The number of commands the disk has carried out although their requests are still queued. -/
def early (m : State β) : ℕ :=
  match m.device with
  | .raised _ => 1
  | _ => 0

/-- What the log of the served requests says about the request numbered `k`: it was buffer `b`'s,
and `x`, which is valid and clean, has its block's number and the contents its block had when
the request was served; for a write these are the request's own data. -/
structure Served (m : State β) (b : β) (k : ℕ) (x : Buf) : Prop where
  synced : x.Synced
  served : ∃ r d, m.served[k]? = some (r, d) ∧ r.buf = b ∧ r.blockno = x.blockno ∧
    x.data = d (Fin.ofNat 2 r.dev) r.blockno ∧ (r.dirty = true → x.data = r.data)

/-- What the device is doing while `l` is queued: nothing if `l` is empty, else the command of
the head, or it has carried that out and offers what a read has found. -/
def Working (m : State β) (l : List β) : Prop :=
  match m.device with
  | .idle => l.head? = none
  | .busy c => ∃ b ∈ l.head?, c = (m.request b).command ∧ (m.buf b).blockno < FSSIZE
  | .raised port => ∃ b ∈ l.head?, (m.buf b).blockno < FSSIZE ∧
      ((m.buf b).dirty = false → port = m.disks (Fin.ofNat 2 (m.buf b).dev) (m.buf b).blockno)

/-- The part of the driver's invariant that does not look at the device, with the queue `l` and
the disks `d₀` that the run began with. -/
structure Queue (d₀ : Disks) (m : State β) (l : List β) : Prop where
  chain : Chain m.qnext m.idequeue l
  nodup : l.Nodup
  /-- What was appended is what was served, then what is queued. -/
  appended : m.appended = m.servedRequests ++ l.map m.request
  /-- The number of a queued request is its place. -/
  ticket : ∀ i b, l[i]? = some b → m.phase b = .waiting (m.served.length + i)
  unsynced : ∀ b ∈ l, ¬ (m.buf b).Synced
  /-- The disks recorded with a request are those that all requests up to it have made. -/
  recorded : ∀ k r d, m.served[k]? = some (r, d) →
    d = (m.servedRequests.take (k + 1)).foldl Request.apply d₀
  /-- Who waits and is not queued any more waits for nothing. -/
  waiting : ∀ b k, m.phase b = .waiting k → b ∉ l → m.Served b k (m.buf b)
  returned : ∀ c ∈ m.returned, m.Served c.buf c.ticket c.found

/-- **The driver's invariant** outside the sections under `idelock`: the device is at the head
of the queue. -/
structure Inv (d₀ : Disks) (m : State β) (l : List β) : Prop extends Queue d₀ m l where
  /-- What was started is what was served, then the head of the queue. -/
  started : m.started = m.servedRequests ++ (l.map m.request).take 1
  working : m.Working l
  disks : m.disks = (m.servedRequests ++ (l.map m.request).take m.early).foldl Request.apply d₀

/-- The invariant inside a section, before the head of the queue is started. -/
structure Stopped (d₀ : Disks) (m : State β) (l : List β) : Prop extends Queue d₀ m l where
  started : m.started = m.servedRequests
  device : m.device = .idle
  disks : m.disks = m.servedRequests.foldl Request.apply d₀

/-! ### The driver's sections keep the invariant -/

variable {d₀ : Disks} {m m' : State β} {l : List β} {b : β} {k : ℕ} {x : Buf}

theorem Served.mono (h : m.Served b k x) (hserved : m.served <+: m'.served) : m'.Served b k x := by
  obtain ⟨r, d, hk, h'⟩ := h.served
  obtain ⟨more, hmore⟩ := hserved
  refine ⟨h.synced, r, d, ?_, h'⟩
  have hlt : k < m.served.length := (List.getElem?_eq_some_iff.mp hk).1
  rw [← hmore, getElem?_append_left hlt, hk]

/-- A buffer whose holder is outside the driver is not queued. -/
theorem Queue.notMem_of_out (h : m.Queue d₀ l) (hout : m.phase b = .out) : b ∉ l := by
  intro hmem
  obtain ⟨i, hi⟩ := mem_iff_getElem?.mp hmem
  have hwaiting := h.ticket i b hi
  rw [hout] at hwaiting
  cases hwaiting

/-- Requests only look at their own buffer. -/
theorem map_request_congr (hbuf : ∀ b ∈ l, m'.buf b = m.buf b) :
    l.map m'.request = l.map m.request := by
  apply map_congr_left
  intro b hb
  simp only [request, hbuf b hb]

/-- The device, the disks and what was started are not the queue's. -/
theorem Queue.withDevice (h : m.Queue d₀ l) (device : Device) (disks : Disks)
    (started : List (Request β)) :
    ({ m with device := device, disks := disks, started := started } : State β).Queue d₀ l where
  chain := h.chain
  nodup := h.nodup
  appended := h.appended
  ticket := h.ticket
  unsynced := h.unsynced
  recorded := h.recorded
  waiting c k hk hc := (h.waiting c k hk hc).mono prefix_rfl
  returned c hc := (h.returned c hc).mono prefix_rfl

/-- The start of a run. -/
theorem Quiet.inv (h : m.Quiet d₀) : m.Inv d₀ [] where
  chain := h.idequeue
  nodup := nodup_nil
  appended := by simp [servedRequests, h.appended, h.served]
  ticket := by simp
  unsynced := by simp
  recorded := by simp [h.served]
  waiting := by simp [h.phase]
  returned := by simp [h.returned]
  started := by simp [servedRequests, h.started, h.served]
  working := by simp [Working, h.device]
  disks := by simp [servedRequests, h.disks, h.served]

/-- With nothing queued there is nothing to start. -/
theorem Stopped.inv (h : m.Stopped d₀ []) : m.Inv d₀ [] where
  toQueue := h.toQueue
  started := by simpa using h.started
  working := by simp [Working, h.device]
  disks := by simpa using h.disks

theorem Inv.stopped (h : m.Inv d₀ []) : m.Stopped d₀ [] where
  toQueue := h.toQueue
  started := by simpa using h.started
  device := by
    have hworking := h.working
    unfold Working at hworking
    cases hdev : m.device with
    | idle => rfl
    | busy c => simp [hdev] at hworking
    | raised port => simp [hdev] at hworking
  disks := by simpa using h.disks

/-- `idestart` at the head of the queue. -/
theorem Stopped.idestart (h : m.Stopped d₀ (b :: l)) (hstart : m.idestart b = some m') :
    m'.Inv d₀ (b :: l) := by
  unfold State.idestart at hstart
  split at hstart
  · cases hstart
  next hblockno =>
    obtain rfl := Option.some.inj hstart
    exact
      { toQueue := h.toQueue.withDevice _ _ _
        started := by
          simp only [h.started, map_cons, take_succ_cons, take_zero]
          rfl
        working := ⟨b, rfl, rfl, Nat.lt_of_not_le hblockno⟩
        disks := by
          simp only [early, take_zero, append_nil]
          exact h.disks }

/-- A buffer outside the driver may change in any way. -/
theorem Inv.change [DecidableEq β] (h : m.Inv d₀ l) (hstep : m.change b x = some m') :
    m'.Inv d₀ l := by
  unfold State.change at hstep
  split at hstep
  next hout =>
    have hb : b ∉ l := h.notMem_of_out hout
    obtain rfl := Option.some.inj hstep
    have hbuf : ∀ c, c ≠ b → update m.buf b x c = m.buf c :=
      fun c hc => update_of_ne hc ..
    have hqueued : ∀ c ∈ l, update m.buf b x c = m.buf c :=
      fun c hc => hbuf c fun heq => hb (heq ▸ hc)
    have hmap : l.map ({ m with buf := update m.buf b x } : State β).request
        = l.map m.request := map_request_congr hqueued
    refine
      { h with
        appended := h.appended.trans (by rw [hmap]; rfl)
        unsynced := fun c hc => ?_
        waiting := fun c k hk hc => ?_
        returned := fun c hc => (h.returned c hc).mono prefix_rfl
        started := h.started.trans (by rw [hmap]; rfl)
        working := ?_
        disks := h.disks.trans (by rw [hmap]; rfl) }
    · rw [show ({ m with buf := update m.buf b x } : State β).buf c = m.buf c from
        hqueued c hc]
      exact h.unsynced c hc
    · have hne : c ≠ b := by
        rintro rfl
        cases hout.symm.trans hk
      rw [show ({ m with buf := update m.buf b x } : State β).buf c = m.buf c from
        hbuf c hne]
      exact (h.waiting c k hk hc).mono prefix_rfl
    · have hworking := h.working
      unfold Working at hworking ⊢
      have hhead : ∀ c ∈ l.head?, update m.buf b x c = m.buf c :=
        fun c hc => hqueued c (mem_of_mem_head? hc)
      cases hdev : m.device with
      | idle => simpa [hdev] using hworking
      | busy c =>
        simp only [hdev] at hworking ⊢
        obtain ⟨c', hc', hcmd, hlt⟩ := hworking
        exact ⟨c', hc', by simpa [request, hhead c' hc'] using hcmd, by rwa [hhead c' hc']⟩
      | raised port =>
        simp only [hdev] at hworking ⊢
        obtain ⟨c', hc', hlt, hport⟩ := hworking
        exact ⟨c', hc', by rwa [hhead c' hc'], by rwa [hhead c' hc']⟩
  · cases hstep

/-- A test of the loop in `iderw`: whoever finds its buffer valid and clean is not queued. -/
theorem Inv.test [DecidableEq β] (h : m.Inv d₀ l) (hstep : m.test b = some m') : m'.Inv d₀ l := by
  unfold State.test at hstep
  split at hstep
  · cases hstep
  next k hk =>
    split at hstep
    next hsynced =>
      have hb : b ∉ l := fun hmem => h.unsynced b hmem hsynced
      obtain rfl := Option.some.inj hstep
      exact
        { h with
          ticket := fun i c hi => by
            have hne : c ≠ b := fun heq => hb (heq ▸ mem_of_getElem? hi)
            simpa only [update_of_ne hne] using h.ticket i c hi
          waiting := fun c k' hk' hc => by
            have hne : c ≠ b := by
              rintro rfl
              simp at hk'
            simp only [update_of_ne hne] at hk'
            exact (h.waiting c k' hk' hc).mono prefix_rfl
          returned := fun c hc => by
            obtain hold | hnew := mem_append.mp hc
            · exact (h.returned c hold).mono prefix_rfl
            · obtain rfl := mem_singleton.mp hnew
              exact (h.waiting b k hk hb).mono prefix_rfl }
    · obtain rfl := Option.some.inj hstep
      exact h

/-- Below `FSSIZE` the four bytes of the sector number are the block number. -/
theorem sector_eq {n : ℕ} (h : n < FSSIZE) : sector n = n := by
  have hsize : n < 1000 := h
  unfold sector
  omega

/-- The device carries out the head's command: for a write the disks change as the request says,
and for a read the data port offers the block. -/
theorem Inv.complete (h : m.Inv d₀ l) (hstep : m.complete = some m') : m'.Inv d₀ l := by
  have hworking := h.working
  have hdisks := h.disks
  unfold State.complete at hstep
  unfold Working at hworking
  split at hstep
  next c hdev =>
    simp only [hdev] at hworking
    obtain ⟨b, hb, rfl, hlt⟩ := hworking
    obtain ⟨xs, rfl⟩ : ∃ xs, l = b :: xs := head?_eq_some_iff.mp hb
    simp only [early, hdev, take_zero, append_nil] at hdisks
    have hsector : sector (m.buf b).blockno = (m.buf b).blockno := sector_eq hlt
    cases hdirty : (m.buf b).dirty with
    | false =>
      simp only [Request.command, request, hdirty, Bool.false_eq_true, if_false,
        Option.some.injEq, hsector] at hstep
      obtain rfl := hstep
      exact
        { toQueue := h.toQueue.withDevice _ _ _
          started := h.started
          working := ⟨b, rfl, hlt, fun _ => rfl⟩
          disks := by
            simp only [early, map_cons, take_succ_cons, take_zero,
              foldl_append, foldl_cons, foldl_nil]
            -- a read leaves the disks alone
            simp only [Request.apply, request, hdirty, Bool.false_eq_true, if_false]
            exact hdisks }
    | true =>
      simp only [Request.command, request, hdirty, if_true, Option.some.injEq, hsector] at hstep
      obtain rfl := hstep
      exact
        { toQueue := h.toQueue.withDevice _ _ _
          started := h.started
          working := ⟨b, rfl, hlt, fun hclean => by cases hdirty.symm.trans hclean⟩
          disks := by
            simp only [early, map_cons, take_succ_cons, take_zero,
              foldl_append, foldl_cons, foldl_nil]
            simp only [Request.apply, request, hdirty, if_true, hdisks]
            rfl }
  · cases hstep

/-! ### The interrupt handler -/

/-- When the interrupt is raised the head's block holds what the head will: a read has the block
on the data port, and a write has stored its words there. -/
theorem Inv.port {port : Block} (h : m.Inv d₀ (b :: l)) (hdev : m.device = .raised port) :
    (if (m.buf b).dirty then (m.buf b).data else port)
      = m.disks (Fin.ofNat 2 (m.buf b).dev) (m.buf b).blockno := by
  have hworking := h.working
  simp only [Working, hdev, head?_cons, Option.mem_def, Option.some.injEq,
    exists_eq_left'] at hworking
  split
  next hdirty =>
    have hdisks := h.disks
    simp only [early, hdev, map_cons, take_succ_cons, take_zero,
      foldl_append, foldl_cons, foldl_nil] at hdisks
    rw [hdisks]
    simp [Request.apply, request, hdirty]
  next hdirty =>
    exact hworking.2 (Bool.not_eq_true _ ▸ hdirty)

theorem ideintr_eq [DecidableEq β] {port : Block} (hdev : m.device = .raised port)
    (hhead : m.idequeue = some b) :
    m.ideintr = match m.qnext b with
      | none => some (m.dequeue b port)
      | some c => (m.dequeue b port).idestart c := by
  simp only [ideintr, hdev, hhead]
  rfl

section Dequeue

variable [DecidableEq β] {port : Block}

theorem dequeue_buf_of_ne {c : β} (hne : c ≠ b) : (m.dequeue b port).buf c = m.buf c :=
  update_of_ne hne ..

theorem dequeue_servedRequests :
    (m.dequeue b port).servedRequests = m.servedRequests ++ [m.request b] := by
  simp [servedRequests, dequeue]

/-- The head's own process finds its request served. -/
theorem Inv.dequeue_served (h : m.Inv d₀ (b :: l)) (hdev : m.device = .raised port) :
    (m.dequeue b port).Served b m.served.length ((m.dequeue b port).buf b) := by
  have hbuf : (m.dequeue b port).buf b =
      { m.buf b with
        data := if (m.buf b).dirty then (m.buf b).data else port, valid := true, dirty := false } :=
    update_self ..
  rw [hbuf]
  refine ⟨⟨rfl, rfl⟩, m.request b, m.disks, getElem?_concat_length, rfl, rfl, h.port hdev, ?_⟩
  intro hdirty
  have hdirty' : (m.buf b).dirty = true := hdirty
  simp only [hdirty', if_true]
  rfl

/-- Taking the head off the queue: the next request is now the one to start. -/
theorem Inv.dequeue (h : m.Inv d₀ (b :: l)) (hdev : m.device = .raised port) :
    (m.dequeue b port).Stopped d₀ l := by
  obtain ⟨hb, hnodup⟩ := nodup_cons.mp h.nodup
  have hbuf : ∀ c ∈ l, (m.dequeue b port).buf c = m.buf c :=
    fun c hc => dequeue_buf_of_ne fun heq => hb (heq ▸ hc)
  have hmap : l.map (m.dequeue b port).request = l.map m.request := map_request_congr hbuf
  have hserved : m.served <+: (m.dequeue b port).served := prefix_append ..
  have hdisks : m.disks = (m.servedRequests ++ [m.request b]).foldl Request.apply d₀ := by
    simpa [early, hdev] using h.disks
  have hlength : m.servedRequests.length = m.served.length := length_map ..
  refine
    { chain := h.chain.2
      nodup := hnodup
      appended := ?_
      ticket := fun i c hi => ?_
      unsynced := fun c hc => hbuf c hc ▸ h.unsynced c (mem_cons_of_mem b hc)
      recorded := fun k r d hk => ?_
      waiting := fun c k hk hc => ?_
      returned := fun c hc => (h.returned c hc).mono hserved
      started := ?_
      device := rfl
      disks := by rw [dequeue_servedRequests]; exact hdisks }
  · rw [hmap, dequeue_servedRequests, append_assoc]
    exact h.appended
  · have hticket := h.ticket (i + 1) c hi
    have hlen : (m.dequeue b port).served.length = m.served.length + 1 := by
      simp [State.dequeue]
    rw [hlen, Nat.add_assoc, Nat.add_comm 1 i]
    exact hticket
  · rw [dequeue_servedRequests]
    obtain hold | hnew := Nat.lt_or_ge k m.served.length
    · have hk' : m.served[k]? = some (r, d) := by
        have hold' : (m.served ++ [(m.request b, m.disks)])[k]? = m.served[k]? :=
          getElem?_append_left hold
        exact hold'.symm.trans hk
      rw [take_append_of_le_length (by omega)]
      exact h.recorded k r d hk'
    · -- the entry just added
      have hk' : (m.served ++ [(m.request b, m.disks)])[k]? = some (r, d) := hk
      have hlt := (List.getElem?_eq_some_iff.mp hk').1
      have hlast : k = m.served.length := by
        simp only [length_append, length_singleton] at hlt
        omega
      subst hlast
      rw [getElem?_concat_length] at hk'
      obtain ⟨rfl, rfl⟩ := Prod.mk.inj (Option.some.inj hk')
      rw [take_of_length_le (by simp [hlength])]
      exact hdisks
  · by_cases heq : c = b
    · subst heq
      have hticket : m.phase c = .waiting (m.served.length + 0) := h.ticket 0 c rfl
      obtain rfl : m.served.length = k := Phase.waiting.inj (hticket.symm.trans hk)
      exact h.dequeue_served hdev
    · rw [dequeue_buf_of_ne heq]
      exact (h.waiting c k hk (not_mem_cons_of_ne_of_not_mem heq hc)).mono hserved
  · rw [dequeue_servedRequests]
    exact h.started

/-- `ideintr` takes the head off the queue and starts the next request. -/
theorem Inv.ideintr (h : m.Inv d₀ l) (hstep : m.ideintr = some m') : m'.Inv d₀ l.tail := by
  cases hdev : m.device with
  | idle => simp [State.ideintr, hdev] at hstep
  | busy c => simp [State.ideintr, hdev] at hstep
  | raised port =>
    have hworking := h.working
    simp only [Working, hdev] at hworking
    obtain ⟨b, hb, -⟩ := hworking
    obtain ⟨xs, rfl⟩ : ∃ xs, l = b :: xs := head?_eq_some_iff.mp hb
    have hstopped := h.dequeue hdev
    rw [ideintr_eq hdev h.chain.1] at hstep
    have hnext : Chain m.qnext (m.qnext b) xs := h.chain.2
    cases xs with
    | nil =>
      rw [chain_nil.mp hnext] at hstep
      obtain rfl := Option.some.inj hstep
      exact hstopped.inv
    | cons c ys =>
      rw [(chain_cons.mp hnext).1] at hstep
      exact hstopped.idestart hstep

end Dequeue

/-! ### A new request -/

theorem Queue.length_appended (h : m.Queue d₀ l) :
    m.appended.length = m.served.length + l.length := by
  rw [h.appended, length_append, length_map, servedRequests, length_map]

section Append

variable [DecidableEq β] {idequeue : Option β} {qnext : β → Option β}

/-- Appending a buffer whose holder has just entered the driver. -/
theorem Queue.enqueue (h : m.Queue d₀ l) (hout : m.phase b = .out)
    (hb : ¬ (m.buf b).Synced) (hchain : Chain qnext idequeue (l ++ [b])) :
    (m.enqueue b idequeue qnext).Queue d₀ (l ++ [b]) := by
  have hnot : b ∉ l := h.notMem_of_out hout
  refine
    { chain := hchain
      nodup := nodup_append.mpr ⟨h.nodup, nodup_singleton b, ?_⟩
      appended := ?_
      ticket := fun i c hi => ?_
      unsynced := fun c hc => ?_
      recorded := h.recorded
      waiting := fun c k hk hc => ?_
      returned := fun c hc => (h.returned c hc).mono prefix_rfl }
  · intro c hc c' hc' heq
    obtain rfl := mem_singleton.mp hc'
    exact hnot (heq ▸ hc)
  · rw [map_append, ← append_assoc]
    exact congrArg (· ++ [m.request b]) h.appended
  · show update m.phase b (.waiting m.appended.length) c = _
    obtain hold | hnew := Nat.lt_or_ge i l.length
    · rw [getElem?_append_left hold] at hi
      have hne : c ≠ b := fun heq => hnot (heq ▸ mem_of_getElem? hi)
      rw [update_of_ne hne]
      exact h.ticket i c hi
    · have hlt := (List.getElem?_eq_some_iff.mp hi).1
      have hlast : i = l.length := by
        simp only [length_append, length_singleton] at hlt
        omega
      subst hlast
      rw [getElem?_concat_length] at hi
      obtain rfl := Option.some.inj hi
      rw [update_self, h.length_appended]
      rfl
  · obtain hold | hnew := mem_append.mp hc
    · exact h.unsynced c hold
    · obtain rfl := mem_singleton.mp hnew
      exact hb
  · have hc' : c ∉ l ∧ c ≠ b := by simpa using hc
    have hk' : m.phase c = .waiting k :=
      (update_of_ne hc'.2 ..).symm.trans hk
    exact (h.waiting c k hk' hc'.1).mono prefix_rfl

/-- `iderw` appends its buffer; the disk is started for it if nothing was queued before. -/
theorem Inv.iderw [Fintype β] {havedisk1 : Bool} (h : m.Inv d₀ l)
    (hstep : m.iderw havedisk1 b = some m') : m'.Inv d₀ (l ++ [b]) := by
  simp only [State.iderw] at hstep
  split at hstep
  · cases hstep
  next hphase =>
  split at hstep
  · cases hstep
  next hunsynced =>
  split at hstep
  · cases hstep
  have hout : m.phase b = .out := not_not.mp hphase
  have hnot : b ∉ l := h.notMem_of_out hout
  obtain ⟨idequeue, qnext, happend, hchain⟩ :=
    appendCell_spec h.chain h.nodup hnot h.nodup.length_le_card
  have hqueue := h.toQueue.enqueue hout hunsynced hchain
  simp only [happend] at hstep
  cases l with
  | nil =>
    have hstopped : (m.enqueue b idequeue qnext).Stopped d₀ [b] :=
      { toQueue := hqueue
        started := h.stopped.started
        device := h.stopped.device
        disks := h.stopped.disks }
    rw [if_pos hchain.1] at hstep
    exact hstopped.idestart hstep
  | cons c xs =>
    have hne : idequeue ≠ some b := by
      intro heq
      rw [hchain.1] at heq
      exact hnot (Option.some.inj heq ▸ mem_cons_self)
    rw [if_neg hne] at hstep
    obtain rfl := Option.some.inj hstep
    exact
      { h with
        toQueue := hqueue
        disks := h.disks.trans (by
          have hearly : m.early ≤ 1 := by unfold early; split <;> decide
          have htake : ∀ n ≤ 1, ((c :: xs).map m.request).take n
              = ((c :: xs ++ [b]).map m.request).take n := by
            intro n hn
            rw [map_append, take_append_of_le_length]
            simp only [length_map, length_cons]
            omega
          rw [htake _ hearly]
          rfl) }

end Append

/-! ### Whole runs -/

section Runs

variable [DecidableEq β] [Fintype β] {havedisk1 : Bool} {m₀ : State β} {as : List (Label β)}

/-- Every step keeps the invariant: an append makes the queue longer, an interrupt shorter, and
the other steps leave it as it is. -/
theorem Inv.next {a : Label β} (h : m.Inv d₀ l) (hstep : m.next havedisk1 a = some m') :
    ∃ l', m'.Inv d₀ l' := by
  cases a with
  | iderw b => exact ⟨_, h.iderw hstep⟩
  | test b => exact ⟨_, h.test hstep⟩
  | change b x => exact ⟨_, h.change hstep⟩
  | complete => exact ⟨_, h.complete hstep⟩
  | ideintr => exact ⟨_, h.ideintr hstep⟩

theorem Inv.run (h₀ : m₀.Quiet d₀) (hrun : Framework.run (State.next havedisk1) m₀ as = some m) :
    ∃ l, m.Inv d₀ l := by
  have hpreserved : ∀ (s : State β) a s', (∃ l, s.Inv d₀ l) → True →
      s.next havedisk1 a = some s' → ∃ l, s'.Inv d₀ l :=
    fun _ _ _ ⟨_, h⟩ _ hstep => h.next hstep
  exact run_preserves hpreserved ⟨[], h₀.inv⟩ (along_true _ as) hrun

/-- **The disk queue serves each request once and in order.** After any run from a quiet driver,
with the buffers `l` linked in the queue:

* what was appended is what was served followed by what is queued, in this order;
* what was started is what was served followed by the head of the queue, if there is one;
* the disks at the time a request was served are the initial ones with all writes up to that
  request carried out;
* a call of `iderw` that has returned found its own request served and its buffer valid and
  clean, with the contents its block had at that time, which for a write are those the buffer had
  when it was appended. -/
theorem requests_in_order (h₀ : m₀.Quiet d₀)
    (hrun : Framework.run (State.next havedisk1) m₀ as = some m) :
    ∃ l, Chain m.qnext m.idequeue l ∧
      m.appended = m.servedRequests ++ l.map m.request ∧
      m.started = m.servedRequests ++ (l.map m.request).take 1 ∧
      (∀ k r d, m.served[k]? = some (r, d) →
        d = (m.appended.take (k + 1)).foldl Request.apply d₀) ∧
      ∀ c ∈ m.returned, m.Served c.buf c.ticket c.found := by
  obtain ⟨l, h⟩ := Inv.run h₀ hrun
  refine ⟨l, h.chain, h.appended, h.started, fun k r d hk => ?_, h.returned⟩
  have hlt : k < m.served.length := (List.getElem?_eq_some_iff.mp hk).1
  have hle : k + 1 ≤ m.servedRequests.length := by rwa [servedRequests, length_map]
  rw [h.appended, take_append_of_le_length hle]
  exact h.recorded k r d hk

end Runs

/-- A quiet driver with two buffers for block 5 of disk 1: the first is about to write the word
`7` throughout the block, the second to read it. -/
def writerAndReader : State (Fin 2) where
  buf b := ⟨false, b = 0, 1, 5, fun _ => if b = 0 then 7 else 0⟩
  qnext _ := none
  idequeue := none
  device := .idle
  disks _ _ _ := 0
  phase _ := .out
  appended := []
  started := []
  served := []
  returned := []

/-- Both requests are queued before the disk finishes the first; the read finds what was
written. -/
def writeThenRead : List (Label (Fin 2)) :=
  [.iderw 0, .iderw 1, .test 1, .complete, .ideintr, .complete, .test 0, .ideintr, .test 1]

theorem requests_in_order_writeThenRead :
    ∃ m, run (State.next true) writerAndReader writeThenRead = some m ∧
      m.returned.map (fun c => (c.buf, c.ticket, c.found.data 3)) = [(0, 0, 7), (1, 1, 7)] ∧
      ∃ l, Chain m.qnext m.idequeue l ∧
        m.appended = m.servedRequests ++ l.map m.request ∧
        m.started = m.servedRequests ++ (l.map m.request).take 1 ∧
        (∀ k r d, m.served[k]? = some (r, d) →
          d = (m.appended.take (k + 1)).foldl Request.apply fun _ _ _ => 0) ∧
        ∀ c ∈ m.returned, m.Served c.buf c.ticket c.found := by
  have hrun : (run (State.next true) writerAndReader writeThenRead).map
      (fun m => m.returned.map fun c => (c.buf, c.ticket, c.found.data 3))
      = some [(0, 0, 7), (1, 1, 7)] := by decide +kernel
  obtain ⟨m, hm, hreturned⟩ := Option.map_eq_some_iff.mp hrun
  have hquiet : writerAndReader.Quiet fun _ _ _ => 0 :=
    ⟨rfl, rfl, rfl, fun _ => rfl, rfl, rfl, rfl, rfl⟩
  exact ⟨m, hm, hreturned, requests_in_order hquiet hm⟩

end State

end Xv6.Ide
