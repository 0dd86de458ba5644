import Assignments.Xv6.Bio

/-!
# The log of xv6

The system calls that are under way between `begin_op` and `end_op` form a group. `log_write`
records the blocks they change, and pins them in the buffer cache; the last `end_op` commits the
group: `commit` copies the blocks to the log, writes the log header, installs the blocks and clears
the header. After a crash `recover_from_log` does the last two again.

The model is one of the whole machine: any number of processes, the buffer cache, the disk, a power
failure at any moment and the recovery that follows. One step is a lock-delimited section of one
process or an iteration of a loop of `commit` and of `recover_from_log`, which writes one block.

* `logWrite` is a process's change of a buffer together with the tests at the start of `log_write`,
  which look at `log.lh.n` without `log.lock`; `record` is the rest, under the lock. Other processes
  may take steps in between.
* `beginOp` is the step in which `begin_op` stops waiting.
* The superblock is the one `mkfs` writes: `logstart` is 2 and `nlog` is `LOGSIZE`.
-/

namespace Xv6

open Function

/-- `sb.logstart`: the log follows the boot block and the superblock. -/
def logstart : ℕ := 2

/-- `sb.nlog`, of which `mkfs` makes `log.size`. -/
def nlog : ℕ := LOGSIZE

/-- The process that runs `initlog`. -/
def initproc : Pid := 1

/-! ### The log header -/

/-- `read_head`: word 0 is `n`, the words after it are `block[0]`, `block[1]`, ... There is no
result when `n` is larger than the array it is copied to. -/
def readHeader (hb : Block) : Option (List BlockNo) :=
  let n := (hb 0).toInt
  if n ≤ LOGSIZE then
    some ((List.range n.toNat).map fun i => (hb (Fin.ofNat 128 (i + 1))).toNat)
  else none

/-- What `write_head` makes of the header block; it changes only the words it needs. -/
def putHeader (hb : Block) (lh : List BlockNo) : Block := fun i =>
  if i = 0 then BitVec.ofNat 32 lh.length
  else
    match lh[i.val - 1]? with
    | some b => BitVec.ofNat 32 b
    | none => hb i

theorem readHeader_putHeader (hb : Block) {lh : List BlockNo} (hlen : lh.length ≤ LOGSIZE)
    (hlh : ∀ b ∈ lh, b < FSSIZE) : readHeader (putHeader hb lh) = some lh := by
  have hsize : lh.length ≤ 30 := hlen
  have hn : (putHeader hb lh 0).toInt = lh.length := by
    have hnat : (BitVec.ofNat 32 lh.length).toNat = lh.length := by
      rw [BitVec.toNat_ofNat, Nat.mod_eq_of_lt (by omega)]
    show (BitVec.ofNat 32 lh.length).toInt = lh.length
    rw [BitVec.toInt_eq_toNat_of_lt (by omega), hnat]
  unfold readHeader
  simp only [hn, Int.toNat_natCast]
  rw [if_pos (by exact_mod_cast hlen)]
  congr 1
  refine List.ext_getElem? fun i => ?_
  rw [List.getElem?_map]
  by_cases hi : i < lh.length
  · rw [List.getElem?_range hi, List.getElem?_eq_getElem hi, Option.map_some]
    have hval : (Fin.ofNat 128 (i + 1)).val = i + 1 := Nat.mod_eq_of_lt (by omega)
    have hne : Fin.ofNat 128 (i + 1) ≠ 0 := by
      intro h
      have := congrArg Fin.val h
      rw [hval] at this
      exact absurd this (by simp)
    have hb' : lh[i] < 2 ^ 32 := Nat.lt_trans (hlh _ (List.getElem_mem hi)) (by decide)
    unfold putHeader
    rw [if_neg hne, hval, Nat.add_sub_cancel, List.getElem?_eq_getElem hi]
    simp only [BitVec.toNat_ofNat]
    rw [Nat.mod_eq_of_lt hb']
  · rw [List.getElem?_eq_none (by simpa using hi), List.getElem?_eq_none (by simpa using hi)]
    rfl

theorem putHeader_nil (hb : Block) : putHeader hb [] 0 = 0 := rfl

theorem readHeader_of_zero {hb : Block} (h : hb 0 = 0) : readHeader hb = some [] := by
  unfold readHeader
  rw [h]
  rfl

/-! ### The routines that access the disk -/

namespace Bio

/-- An iteration of `write_log` or of `install_trans`: both read the log block and the block it is
a copy of, in this order, copy one to the other and write that to the disk. -/
def transfer (s : Bio) (p : Pid) (logno home src dst : BlockNo) : Except Stop Bio := do
  let s ← s.bread p logno
  let s ← s.bread p home
  let s ← (s.setData dst (s.data src)).bwrite p dst
  let s ← s.brelse p src
  s.brelse p dst

/-- `write_log`, for one `tail`: the cached block goes to the log. -/
def writeLog (s : Bio) (p : Pid) (tail : ℕ) (b : BlockNo) : Except Stop Bio :=
  s.transfer p (logstart + tail + 1) b b (logstart + tail + 1)

/-- `install_trans`, for one `tail`: the log block goes to its home location. -/
def installTrans (s : Bio) (p : Pid) (tail : ℕ) (b : BlockNo) : Except Stop Bio :=
  s.transfer p (logstart + tail + 1) b (logstart + tail + 1) b

def writeHead (s : Bio) (p : Pid) (lh : List BlockNo) : Except Stop Bio := do
  let s ← s.bread p logstart
  let s ← (s.setData logstart (putHeader (s.data logstart) lh)).bwrite p logstart
  s.brelse p logstart

variable {s s' : Bio} {content : BlockNo → Block} {pinned : BlockNo → Prop}
  {hot : Pid → BlockNo → Prop} {p : Pid}

variable (h : s.Coherent content pinned hot)

include h

/-- Changing a held block and writing it to the disk. -/
theorem setData_bwrite_coherent (hp : ∀ b, ¬ hot p b) {b : BlockNo} {data : Block}
    (hb : s.holder b = some p) (hs : (s.setData b data).bwrite p b = .ok s') :
    s'.disk = update s.disk b data ∧
      s'.Coherent (update content b data) (fun b' => pinned b' ∧ b' ≠ b) hot := by
  have hhot : ∀ q, ¬ hot q b := by
    intro q hq
    have hqp : some q = some p := (h.holder_of_hot hq).symm.trans hb
    exact hp b (Option.some.inj hqp ▸ hq)
  obtain ⟨hdisk, hcoh⟩ := bwrite_coherent (setData_coherent h hb data) hs
    (fun q hq => absurd hq (hhot q)) (fun b' hne q => by simp [hne])
  rw [update_self] at hdisk
  exact ⟨hdisk, hcoh⟩

/-- **What an iteration does**: it writes one block, which is not pinned afterwards. -/
theorem transfer_coherent (hp : ∀ b, ¬ hot p b) {logno home src dst : BlockNo}
    (hsrc : src = logno ∨ src = home) (hdst : dst = logno ∨ dst = home)
    (hs : s.transfer p logno home src dst = .ok s') :
    s'.disk = update s.disk dst (content src) ∧
      s'.Coherent (update content dst (content src)) (fun b => pinned b ∧ b ≠ dst) hot := by
  obtain ⟨s₁, h₁, hs⟩ := Framework.except_bind_eq_ok.mp hs
  obtain ⟨s₂, h₂, hs⟩ := Framework.except_bind_eq_ok.mp hs
  obtain ⟨s₃, h₃, hs⟩ := Framework.except_bind_eq_ok.mp hs
  obtain ⟨s₄, h₄, h₅⟩ := Framework.except_bind_eq_ok.mp hs
  obtain ⟨hdisk₁, hcoh₁⟩ := bread_coherent h h₁
  obtain ⟨hdisk₂, hcoh₂⟩ := bread_coherent hcoh₁ h₂
  -- both blocks are held
  have hlog : s₂.holder logno = some p := ((bread_holder hcoh₁ h₂).2 _ _ (bread_holder h h₁).1).2
  have hhome : s₂.holder home = some p := (bread_holder hcoh₁ h₂).1
  have hheld : ∀ b, b = logno ∨ b = home → s₂.holder b = some p := by
    rintro b (rfl | rfl)
    · exact hlog
    · exact hhome
  have hdata : s₂.data src = content src := hcoh₂.data_eq (hheld src hsrc)
  rw [hdata] at h₃
  obtain ⟨hdisk₃, hcoh₃⟩ := setData_bwrite_coherent hcoh₂ hp (hheld dst hdst) h₃
  obtain ⟨hdisk₄, hcoh₄⟩ := brelse_coherent hcoh₃ (hp src) h₄
  obtain ⟨hdisk₅, hcoh₅⟩ := brelse_coherent hcoh₄ (hp dst) h₅
  refine ⟨?_, hcoh₅⟩
  rw [hdisk₅, hdisk₄, hdisk₃, hdisk₂, hdisk₁]

theorem writeHead_coherent (hp : ∀ b, ¬ hot p b) {lh : List BlockNo}
    (hs : s.writeHead p lh = .ok s') :
    s'.disk = update s.disk logstart (putHeader (content logstart) lh) ∧
      s'.Coherent (update content logstart (putHeader (content logstart) lh))
        (fun b => pinned b ∧ b ≠ logstart) hot := by
  obtain ⟨s₁, h₁, hs⟩ := Framework.except_bind_eq_ok.mp hs
  obtain ⟨s₂, h₂, h₃⟩ := Framework.except_bind_eq_ok.mp hs
  obtain ⟨hdisk₁, hcoh₁⟩ := bread_coherent h h₁
  have hheld := (bread_holder h h₁).1
  rw [hcoh₁.data_eq hheld] at h₂
  obtain ⟨hdisk₂, hcoh₂⟩ := setData_bwrite_coherent hcoh₁ hp hheld h₂
  obtain ⟨hdisk₃, hcoh₃⟩ := brelse_coherent hcoh₂ (hp logstart) h₃
  refine ⟨?_, hcoh₃⟩
  rw [hdisk₃, hdisk₂, hdisk₁]

/-- The log never needs more blocks than it has: an iteration that finds a buffer for a log block
that is not pinned leaves room for one that is. -/
theorem length_lt_of_transfer {logno home src dst : BlockNo}
    (hs : s.transfer p logno home src dst = .ok s') (hb : ¬ pinned logno) {bs : List BlockNo}
    (hnodup : bs.Nodup) (hbs : ∀ b ∈ bs, pinned b) :
    bs.length < NBUF := by
  obtain ⟨s₁, h₁, -⟩ := Framework.except_bind_eq_ok.mp hs
  obtain ⟨s₂, h₂, -⟩ := Framework.except_bind_eq_ok.mp h₁
  exact length_lt_of_bget h h₂ hb hnodup hbs

end Bio

/-! ### The machine -/

namespace Log

/-- Where a process is in `commit`, or in the rest of `end_op` after it (`done`). -/
inductive Pc where
  | writeLog (tail : ℕ)
  | writeHead
  | installTrans (tail : ℕ)
  | clear
  | done
  deriving DecidableEq, Repr

/-- Where a process is. -/
inductive Phase where
  /-- Outside of `begin_op` and `end_op`; it may read blocks. -/
  | user
  | op
  /-- In `log_write` of block `b`, after the tests. -/
  | logWrite (b : BlockNo)
  | commit (pc : Pc)
  deriving DecidableEq, Repr

/-- Where `recover_from_log` is. -/
inductive RecoverPc where
  | readHead
  | installTrans (tail : ℕ)
  | clear
  deriving DecidableEq, Repr

inductive Panic where
  | bio (panic : BioPanic)
  | tooBig
  | outsideOfTrans
  | committing
  deriving DecidableEq, Repr

/-- Why a step is not taken. -/
inductive Halt where
  /-- The process waits, or is somewhere else. -/
  | blocked
  | panic (panic : Panic)
  deriving DecidableEq, Repr

inductive Mode where
  | recovering (pc : RecoverPc)
  | running
  | panicked (panic : Panic)
  deriving DecidableEq, Repr

/-- The machine; `lh` lists `log.lh.block[0]`, ..., `log.lh.block[log.lh.n - 1]`. -/
structure State where
  bio : Bio
  lh : List BlockNo
  outstanding : ℕ
  committing : Bool
  phase : Pid → Phase
  mode : Mode

inductive Label where
  | beginOp (p : Pid)
  | bget (p : Pid) (b : BlockNo)
  | acquire (p : Pid) (b : BlockNo)
  | brelse (p : Pid) (b : BlockNo)
  /-- `p` changes `b->data` to `data`, calls `log_write` and passes its tests. -/
  | logWrite (p : Pid) (b : BlockNo) (data : Block)
  /-- The rest of `log_write`. -/
  | record (p : Pid) (b : BlockNo)
  | endOp (p : Pid)
  | writeLog (p : Pid)
  | writeHead (p : Pid)
  | installTrans (p : Pid)
  | clearHead (p : Pid)
  | finish (p : Pid)
  /-- A power failure; the disk is all that is left. -/
  | crash
  | readHead
  | recoverInstall
  | recoverClear

/-- The machine is switched on. -/
def boot (disk : Disk) : State where
  bio := ⟨disk, Bcache.binit⟩
  lh := []
  outstanding := 0
  committing := false
  phase := fun _ => .user
  mode := .recovering .readHead

/-- `commit` does nothing when no block is recorded. -/
def Pc.first (lh : List BlockNo) : Pc := if lh = [] then .done else .writeLog 0

/-- Recording a block: nothing is added for one that is already there (log absorption). -/
def absorb (lh : List BlockNo) (b : BlockNo) : List BlockNo := if b ∈ lh then lh else lh ++ [b]

namespace State

def goto (s : State) (p : Pid) (phase : Phase) : State :=
  { s with phase := update s.phase p phase }

/-- Going on with the result of a routine. -/
def andThen (r : Except Stop Bio) (k : Bio → State) : Except Halt State :=
  match r with
  | .ok bio => .ok (k bio)
  | .error .blocked => .error .blocked
  | .error (.panic panic) => .error (.panic (.bio panic))

def beginOp (s : State) (p : Pid) : Except Halt State :=
  match s.phase p with
  | .user =>
    if s.committing then .error .blocked
    else if s.lh.length + (s.outstanding + 1) * MAXOPBLOCKS > LOGSIZE then .error .blocked
    else .ok { s.goto p .op with outstanding := s.outstanding + 1 }
  | _ => .error .blocked

/-- A process outside of `log_write` and `commit` uses the buffer cache. -/
def useCache (s : State) (p : Pid) (r : Except Stop Bio) : Except Halt State :=
  match s.phase p with
  | .user => andThen r fun bio => { s with bio := bio }
  | .op => andThen r fun bio => { s with bio := bio }
  | _ => .error .blocked

def logWrite (s : State) (p : Pid) (b : BlockNo) (data : Block) : Except Halt State :=
  match s.phase p with
  | .op =>
    if s.bio.holder b = some p then
      if s.lh.length ≥ LOGSIZE ∨ s.lh.length ≥ nlog - 1 then .error (.panic .tooBig)
      else if s.outstanding < 1 then .error (.panic .outsideOfTrans)
      else .ok { s.goto p (.logWrite b) with bio := s.bio.setData b data }
    else .error .blocked
  | _ => .error .blocked

/-- The part of `log_write` under `log.lock`. -/
def record (s : State) (p : Pid) (b : BlockNo) : Except Halt State :=
  match s.phase p with
  | .logWrite b' =>
    if b' = b then
      .ok { s.goto p .op with lh := absorb s.lh b, bio := s.bio.setDirty b }
    else .error .blocked
  | _ => .error .blocked

def endOp (s : State) (p : Pid) : Except Halt State :=
  match s.phase p with
  | .op =>
    if s.committing then .error (.panic .committing)
    else if s.outstanding - 1 = 0 then
      .ok { s.goto p (.commit (Pc.first s.lh)) with
        outstanding := s.outstanding - 1, committing := true }
    else .ok { s.goto p .user with outstanding := s.outstanding - 1 }
  | _ => .error .blocked

/-- The next iteration of `write_log` in `commit`. -/
def writeLog (s : State) (p : Pid) : Except Halt State :=
  match s.phase p with
  | .commit (.writeLog tail) =>
    match s.lh[tail]? with
    | some b => andThen (s.bio.writeLog p tail b) fun bio =>
        { s.goto p (.commit (if tail + 1 < s.lh.length then .writeLog (tail + 1) else .writeHead))
          with bio := bio }
    | none => .error .blocked
  | _ => .error .blocked

/-- `write_head` in `commit`: the real commit. -/
def writeHead (s : State) (p : Pid) : Except Halt State :=
  match s.phase p with
  | .commit .writeHead => andThen (s.bio.writeHead p s.lh) fun bio =>
      { s.goto p (.commit (.installTrans 0)) with bio := bio }
  | _ => .error .blocked

/-- The next iteration of `install_trans` in `commit`. -/
def installTrans (s : State) (p : Pid) : Except Halt State :=
  match s.phase p with
  | .commit (.installTrans tail) =>
    match s.lh[tail]? with
    | some b => andThen (s.bio.installTrans p tail b) fun bio =>
        { s.goto p (.commit (if tail + 1 < s.lh.length then .installTrans (tail + 1) else .clear))
          with bio := bio }
    | none => .error .blocked
  | _ => .error .blocked

/-- `log.lh.n = 0; write_head();` in `commit`. -/
def clearHead (s : State) (p : Pid) : Except Halt State :=
  match s.phase p with
  | .commit .clear => andThen (s.bio.writeHead p []) fun bio =>
      { s.goto p (.commit .done) with bio := bio, lh := [] }
  | _ => .error .blocked

/-- `log.committing = 0` in `end_op`. -/
def finish (s : State) (p : Pid) : Except Halt State :=
  match s.phase p with
  | .commit .done => .ok { s.goto p .user with committing := false }
  | _ => .error .blocked

/-- `read_head` in `recover_from_log`. -/
def readHead (s : State) : Except Halt State :=
  match s.bio.bread initproc logstart with
  | .ok bio =>
    match readHeader (bio.data logstart) with
    | some lh => andThen (bio.brelse initproc logstart) fun bio =>
        { s with
          bio := bio, lh := lh
          mode := .recovering (if lh = [] then .clear else .installTrans 0) }
    | none => .error .blocked
  | .error .blocked => .error .blocked
  | .error (.panic panic) => .error (.panic (.bio panic))

/-- The next iteration of `install_trans` in `recover_from_log`. -/
def recoverInstall (s : State) (tail : ℕ) : Except Halt State :=
  match s.lh[tail]? with
  | some b => andThen (s.bio.installTrans initproc tail b) fun bio =>
      { s with
        bio := bio
        mode := .recovering (if tail + 1 < s.lh.length then .installTrans (tail + 1) else .clear) }
  | none => .error .blocked

/-- `log.lh.n = 0; write_head();` in `recover_from_log`. -/
def recoverClear (s : State) : Except Halt State :=
  andThen (s.bio.writeHead initproc []) fun bio =>
    { s with bio := bio, lh := [], mode := .running }

/-- The steps of a running machine. -/
def execRunning (s : State) : Label → Except Halt State
  | .beginOp p => s.beginOp p
  | .bget p b => s.useCache p (s.bio.bget p b)
  | .acquire p b => s.useCache p (s.bio.acquire p b)
  | .brelse p b => s.useCache p (s.bio.brelse p b)
  | .logWrite p b data => s.logWrite p b data
  | .record p b => s.record p b
  | .endOp p => s.endOp p
  | .writeLog p => s.writeLog p
  | .writeHead p => s.writeHead p
  | .installTrans p => s.installTrans p
  | .clearHead p => s.clearHead p
  | .finish p => s.finish p
  | _ => .error .blocked

/-- The steps of the recovery. -/
def execRecovering (s : State) : RecoverPc → Label → Except Halt State
  | .readHead, .readHead => s.readHead
  | .installTrans tail, .recoverInstall => s.recoverInstall tail
  | .clear, .recoverClear => s.recoverClear
  | _, _ => .error .blocked

def exec (s : State) : Label → Except Halt State
  | .crash => .ok (boot s.bio.disk)
  | l =>
    match s.mode with
    | .running => s.execRunning l
    | .recovering pc => s.execRecovering pc l
    | .panicked _ => .error .blocked

end State

/-- What happens: a step is taken, or the process that is to take it panics. -/
inductive Event where
  | step (l : Label)
  | panic (l : Label)

/-- After a panic nothing happens until the machine is switched off. -/
def State.next (s : State) : Event → Option State
  | .step l =>
    match s.exec l with
    | .ok s' => some s'
    | .error _ => none
  | .panic l =>
    match s.exec l with
    | .error (.panic panic) => some { s with mode := .panicked panic }
    | _ => none

/-! ### What a step can do -/

variable {s s' : State}

theorem goto_phase (s : State) (p q : Pid) (phase : Phase) :
    (s.goto p phase).phase q = if q = p then phase else s.phase q := by
  unfold State.goto
  by_cases hq : q = p
  · rw [if_pos hq, hq]
    exact update_self _ _ _
  · rw [if_neg hq]
    exact update_of_ne hq _ _

/-- A process outside of `log_write` and `commit`. -/
def Phase.Plain : Phase → Prop
  | .user => True
  | .op => True
  | _ => False

/-- The steps, one constructor each. -/
inductive Step (s : State) : Label → State → Prop
  | crash : Step s .crash (boot s.bio.disk)
  | beginOp (p : Pid) (hmode : s.mode = .running) (hp : s.phase p = .user)
      (hidle : s.committing = false)
      (hroom : s.lh.length + (s.outstanding + 1) * MAXOPBLOCKS ≤ LOGSIZE) :
      Step s (.beginOp p) { s.goto p .op with outstanding := s.outstanding + 1 }
  | bget (p : Pid) (b : BlockNo) (bio : Bio) (hmode : s.mode = .running)
      (hp : (s.phase p).Plain) (hbio : s.bio.bget p b = .ok bio) :
      Step s (.bget p b) { s with bio := bio }
  | acquire (p : Pid) (b : BlockNo) (bio : Bio) (hmode : s.mode = .running)
      (hp : (s.phase p).Plain) (hbio : s.bio.acquire p b = .ok bio) :
      Step s (.acquire p b) { s with bio := bio }
  | brelse (p : Pid) (b : BlockNo) (bio : Bio) (hmode : s.mode = .running)
      (hp : (s.phase p).Plain) (hbio : s.bio.brelse p b = .ok bio) :
      Step s (.brelse p b) { s with bio := bio }
  | logWrite (p : Pid) (b : BlockNo) (data : Block) (hmode : s.mode = .running)
      (hp : s.phase p = .op) (hheld : s.bio.holder b = some p)
      (hroom : s.lh.length < LOGSIZE ∧ s.lh.length < nlog - 1) :
      Step s (.logWrite p b data) { s.goto p (.logWrite b) with bio := s.bio.setData b data }
  | record (p : Pid) (b : BlockNo) (hmode : s.mode = .running) (hp : s.phase p = .logWrite b) :
      Step s (.record p b) { s.goto p .op with
        lh := absorb s.lh b, bio := s.bio.setDirty b }
  | endOp (p : Pid) (hmode : s.mode = .running) (hp : s.phase p = .op)
      (hlast : s.outstanding - 1 ≠ 0) :
      Step s (.endOp p) { s.goto p .user with outstanding := s.outstanding - 1 }
  | endLast (p : Pid) (hmode : s.mode = .running) (hp : s.phase p = .op)
      (hlast : s.outstanding - 1 = 0) :
      Step s (.endOp p) { s.goto p (.commit (Pc.first s.lh)) with
        outstanding := s.outstanding - 1, committing := true }
  | writeLog (p : Pid) (tail : ℕ) (b : BlockNo) (bio : Bio) (hmode : s.mode = .running)
      (hp : s.phase p = .commit (.writeLog tail)) (hb : s.lh[tail]? = some b)
      (hbio : s.bio.writeLog p tail b = .ok bio) :
      Step s (.writeLog p)
        { s.goto p (.commit (if tail + 1 < s.lh.length then .writeLog (tail + 1) else .writeHead))
          with bio := bio }
  | writeHead (p : Pid) (bio : Bio) (hmode : s.mode = .running)
      (hp : s.phase p = .commit .writeHead) (hbio : s.bio.writeHead p s.lh = .ok bio) :
      Step s (.writeHead p) { s.goto p (.commit (.installTrans 0)) with bio := bio }
  | installTrans (p : Pid) (tail : ℕ) (b : BlockNo) (bio : Bio) (hmode : s.mode = .running)
      (hp : s.phase p = .commit (.installTrans tail)) (hb : s.lh[tail]? = some b)
      (hbio : s.bio.installTrans p tail b = .ok bio) :
      Step s (.installTrans p)
        { s.goto p (.commit (if tail + 1 < s.lh.length then .installTrans (tail + 1) else .clear))
          with bio := bio }
  | clearHead (p : Pid) (bio : Bio) (hmode : s.mode = .running)
      (hp : s.phase p = .commit .clear) (hbio : s.bio.writeHead p [] = .ok bio) :
      Step s (.clearHead p) { s.goto p (.commit .done) with bio := bio, lh := [] }
  | finish (p : Pid) (hmode : s.mode = .running) (hp : s.phase p = .commit .done) :
      Step s (.finish p) { s.goto p .user with committing := false }
  | readHead (bio bio' : Bio) (lh : List BlockNo) (hmode : s.mode = .recovering .readHead)
      (hread : s.bio.bread initproc logstart = .ok bio)
      (hlh : readHeader (bio.data logstart) = some lh)
      (hbio : bio.brelse initproc logstart = .ok bio') :
      Step s .readHead { s with
        bio := bio', lh := lh
        mode := .recovering (if lh = [] then .clear else .installTrans 0) }
  | recoverInstall (tail : ℕ) (b : BlockNo) (bio : Bio)
      (hmode : s.mode = .recovering (.installTrans tail)) (hb : s.lh[tail]? = some b)
      (hbio : s.bio.installTrans initproc tail b = .ok bio) :
      Step s .recoverInstall { s with
        bio := bio
        mode := .recovering (if tail + 1 < s.lh.length then .installTrans (tail + 1) else .clear) }
  | recoverClear (bio : Bio) (hmode : s.mode = .recovering .clear)
      (hbio : s.bio.writeHead initproc [] = .ok bio) :
      Step s .recoverClear { s with bio := bio, lh := [], mode := .running }

theorem step_of_andThen {r : Except Stop Bio} {k : Bio → State} {l : Label}
    (h : State.andThen r k = .ok s') (hk : ∀ bio, r = .ok bio → Step s l (k bio)) :
    Step s l s' := by
  unfold State.andThen at h
  split at h
  · next bio => exact Except.ok.inj h ▸ hk bio rfl
  · exact absurd h (by simp)
  · exact absurd h (by simp)

theorem step_of_useCache {p : Pid} {r : Except Stop Bio} {l : Label}
    (h : s.useCache p r = .ok s')
    (hk : (s.phase p).Plain → ∀ bio, r = .ok bio → Step s l { s with bio := bio }) :
    Step s l s' := by
  unfold State.useCache at h
  split at h
  · next hp => exact step_of_andThen h (hk (by rw [hp]; trivial))
  · next hp => exact step_of_andThen h (hk (by rw [hp]; trivial))
  · exact absurd h (by simp)

theorem step_of_logWrite {p : Pid} {b : BlockNo} {data : Block} (hmode : s.mode = .running)
    (h : s.logWrite p b data = .ok s') : Step s (.logWrite p b data) s' := by
  unfold State.logWrite at h
  split at h
  · next hp =>
    split_ifs at h with hheld hfull hout
    exact Except.ok.inj h ▸ .logWrite p b data hmode hp hheld (by omega)
  · exact absurd h (by simp)

theorem step_of_endOp {p : Pid} (hmode : s.mode = .running) (h : s.endOp p = .ok s') :
    Step s (.endOp p) s' := by
  unfold State.endOp at h
  split at h
  · next hp =>
    split_ifs at h with hcommitting hlast
    · exact Except.ok.inj h ▸ .endLast p hmode hp hlast
    · exact Except.ok.inj h ▸ .endOp p hmode hp hlast
  · exact absurd h (by simp)

theorem step_of_execRunning {l : Label} (hmode : s.mode = .running)
    (h : s.execRunning l = .ok s') : Step s l s' := by
  cases l with
  | beginOp p =>
    simp only [State.execRunning, State.beginOp] at h
    split at h
    · next hp =>
      split_ifs at h with hcommitting hroom
      exact Except.ok.inj h ▸ .beginOp p hmode hp (by simpa using hcommitting) (by omega)
    · exact absurd h (by simp)
  | bget p b => exact step_of_useCache h fun hp bio hbio => .bget p b bio hmode hp hbio
  | acquire p b => exact step_of_useCache h fun hp bio hbio => .acquire p b bio hmode hp hbio
  | brelse p b => exact step_of_useCache h fun hp bio hbio => .brelse p b bio hmode hp hbio
  | logWrite p b data => exact step_of_logWrite hmode h
  | record p b =>
    simp only [State.execRunning, State.record] at h
    split at h
    · next b' hp =>
      split_ifs at h with hb
      exact Except.ok.inj h ▸ hb ▸ .record p b' hmode hp
    · exact absurd h (by simp)
  | endOp p => exact step_of_endOp hmode h
  | writeLog p =>
    simp only [State.execRunning, State.writeLog] at h
    split at h
    · next tail hp =>
      split at h
      · next b hb => exact step_of_andThen h fun bio hbio => .writeLog p tail b bio hmode hp hb hbio
      · exact absurd h (by simp)
    · exact absurd h (by simp)
  | writeHead p =>
    simp only [State.execRunning, State.writeHead] at h
    split at h
    · next hp => exact step_of_andThen h fun bio hbio => .writeHead p bio hmode hp hbio
    · exact absurd h (by simp)
  | installTrans p =>
    simp only [State.execRunning, State.installTrans] at h
    split at h
    · next tail hp =>
      split at h
      · next b hb =>
        exact step_of_andThen h fun bio hbio => .installTrans p tail b bio hmode hp hb hbio
      · exact absurd h (by simp)
    · exact absurd h (by simp)
  | clearHead p =>
    simp only [State.execRunning, State.clearHead] at h
    split at h
    · next hp => exact step_of_andThen h fun bio hbio => .clearHead p bio hmode hp hbio
    · exact absurd h (by simp)
  | finish p =>
    simp only [State.execRunning, State.finish] at h
    split at h
    · next hp => exact Except.ok.inj h ▸ .finish p hmode hp
    · exact absurd h (by simp)
  | crash => exact absurd h (by simp [State.execRunning])
  | readHead => exact absurd h (by simp [State.execRunning])
  | recoverInstall => exact absurd h (by simp [State.execRunning])
  | recoverClear => exact absurd h (by simp [State.execRunning])

theorem step_of_readHead (hmode : s.mode = .recovering .readHead) (h : s.readHead = .ok s') :
    Step s .readHead s' := by
  unfold State.readHead at h
  split at h
  · next bio hread =>
    split at h
    · next lh hlh =>
      exact step_of_andThen h fun bio' hbio => .readHead bio bio' lh hmode hread hlh hbio
    · exact absurd h (by simp)
  · exact absurd h (by simp)
  · exact absurd h (by simp)

theorem step_of_execRecovering {pc : RecoverPc} {l : Label} (hmode : s.mode = .recovering pc)
    (h : s.execRecovering pc l = .ok s') : Step s l s' := by
  unfold State.execRecovering at h
  split at h
  · exact step_of_readHead hmode h
  · next tail =>
    unfold State.recoverInstall at h
    split at h
    · next b hb =>
      exact step_of_andThen h fun bio hbio => .recoverInstall tail b bio hmode hb hbio
    · exact absurd h (by simp)
  · exact step_of_andThen h fun bio hbio => .recoverClear bio hmode hbio
  · exact absurd h (by simp)

theorem step_of_exec {l : Label} (h : s.exec l = .ok s') : Step s l s' := by
  unfold State.exec at h
  split at h
  · exact Except.ok.inj h ▸ .crash
  · split at h
    · next hmode => exact step_of_execRunning hmode h
    · next pc hmode => exact step_of_execRecovering hmode h
    · exact absurd h (by simp)

theorem step_of_next {l : Label} (h : s.next (.step l) = some s') : Step s l s' := by
  simp only [State.next] at h
  split at h
  · next hexec => exact step_of_exec (Option.some.inj h ▸ hexec)
  · exact absurd h (by simp)

theorem panic_of_next {l : Label} (h : s.next (.panic l) = some s') :
    ∃ panic, s.exec l = .error (.panic panic) ∧ s' = { s with mode := .panicked panic } := by
  simp only [State.next] at h
  split at h
  · next panic hexec => exact ⟨panic, hexec, (Option.some.inj h).symm⟩
  · exact absurd h (by simp)

end Log

end Xv6
