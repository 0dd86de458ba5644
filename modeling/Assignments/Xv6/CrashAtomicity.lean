import Assignments.Framework.RedoLog
import Assignments.Xv6.Log

/-!
# The log of xv6 is crash atomic

`History` reads off the labels of a run which groups of writes have been committed: the changes
made with `log_write` are collected, `writeHead` commits them, a crash drops them. After any number
of crashes, at any moment and in the middle of recoveries too, a recovery that completes leaves on
the disk, outside the log, exactly the committed groups applied in order, and an empty header
(`crash_atomic`).

The on-disk part is a redo log (`view`), and `Durable` says that what it stands for is the committed
groups. The in-memory part is the buffer cache: it stands for the committed groups with the current
one applied (`Running.coherent`), as long as the log pins what is not on the disk yet.

That the log has room for a group is not what the test in `log_write` ensures, because several
processes can pass it before any of them records its block. It follows from the number of buffers: a
group of `nlog` blocks would fill the cache with pinned buffers, and `commit` would find none for
the first log block (`Running.fits_of_writeLog`).
-/

namespace Xv6.Log

open Framework Function

/-! ### The committed groups -/

/-- The groups committed in a run, and the one that is being collected. -/
structure History where
  committed : List (RedoLog.Group BlockNo Block)
  current : RedoLog.Group BlockNo Block

namespace History

def next (h : History) : Event → History
  | .step (.logWrite _ b data) => { h with current := h.current ++ [(b, data)] }
  | .step (.writeHead _) => ⟨h.committed ++ [h.current], []⟩
  | .step .crash => { h with current := [] }
  | _ => h

def empty : History := ⟨[], []⟩

/-- The contents of the disk that the committed groups make of `d₀`. -/
def base (h : History) (d₀ : Disk) : Disk := RedoLog.applyGroups d₀ h.committed

/-- The contents with the current group applied as well. -/
def now (h : History) (d₀ : Disk) : Disk := RedoLog.applyGroup (h.base d₀) h.current

end History

def history (events : List Event) : History := events.foldl History.next History.empty

theorem history_concat (events : List Event) (e : Event) :
    history (events ++ [e]) = (history events).next e :=
  List.foldl_append

/-! ### The log on the disk -/

/-- A block that does not belong to the log. -/
def Outside (b : ℕ) : Prop := b < logstart ∨ logstart + nlog ≤ b

instance (b : ℕ) : Decidable (Outside b) := inferInstanceAs (Decidable (_ ∨ _))

/-- The file system changes its own blocks, not those of the log. -/
def Event.Home : Event → Prop
  | .step (.logWrite _ b _) => Outside b
  | _ => True

def header (disk : Disk) : List BlockNo := (readHeader (disk logstart)).getD []

/-- The disk as a redo log. -/
def view (disk : Disk) : RedoLog.Disk BlockNo Block :=
  ⟨disk, fun i => disk (logstart + i + 1), header disk⟩

/-- Writing another block than the header does not change the header. -/
theorem header_update {disk : Disk} {b : BlockNo} {data : Block} (hb : logstart ≠ b) :
    header (update disk b data) = header disk := by
  unfold header
  rw [update_of_ne hb]

theorem header_update_logstart {disk : Disk} {hb : Block} {lh : List BlockNo}
    (h : readHeader hb = some lh) : header (update disk logstart hb) = lh := by
  unfold header
  rw [update_self, h]
  rfl

theorem Outside.ne_logstart {b : ℕ} (h : Outside b) : b ≠ logstart := by
  have hlog : 0 < nlog := by decide
  unfold Outside at h
  omega

theorem Outside.ne_slot {b i : ℕ} (h : Outside b) (hi : i + 1 < nlog) : b ≠ logstart + i + 1 := by
  unfold Outside at h
  omega

theorem not_outside_slot {i : ℕ} (hi : i + 1 < nlog) : ¬ Outside (logstart + i + 1) :=
  fun h => h.ne_slot hi rfl

theorem not_outside_logstart : ¬ Outside logstart := fun h => h.ne_logstart rfl

theorem slot_ne_logstart (i : ℕ) : logstart ≠ logstart + i + 1 := by omega

/-- What the disk stands for, outside the log, is what has been committed. -/
structure Durable (d₀ : Disk) (h : History) (disk : Disk) : Prop where
  readable : readHeader (disk logstart) = some (header disk)
  nodup : (header disk).Nodup
  fits : (header disk).length < nlog
  outside : ∀ b ∈ header disk, Outside b
  contents : ∀ b, Outside b → RedoLog.contents (view disk) b = h.base d₀ b

variable {d₀ disk disk' : Disk} {h : History}

/-- With an empty header the blocks outside the log are as committed. -/
theorem Durable.eq_base (hd : Durable d₀ h disk) (hheader : header disk = []) {b : BlockNo}
    (hb : Outside b) : disk b = h.base d₀ b := by
  rw [← hd.contents b hb,
    RedoLog.contents_of_header_nil (show (view disk).header = [] from hheader)]
  rfl

/-- An empty header, with the committed contents at home. -/
theorem Durable.of_empty (hread : readHeader (disk logstart) = some [])
    (hhome : ∀ b, Outside b → disk b = h.base d₀ b) : Durable d₀ h disk ∧ header disk = [] := by
  have hheader : header disk = [] := by
    unfold header
    rw [hread]
    rfl
  refine ⟨⟨by rw [hread, hheader], ?_, ?_, ?_, fun b hb => ?_⟩, hheader⟩
  · rw [hheader]
    exact List.nodup_nil
  · rw [hheader]
    decide
  · rw [hheader]
    exact fun b hb => absurd hb List.not_mem_nil
  · exact (RedoLog.contents_of_header_nil hheader).trans (hhome b hb)

theorem Durable.initial (h₀ : d₀ logstart 0 = 0) : Durable d₀ History.empty d₀ :=
  (Durable.of_empty (readHeader_of_zero h₀) fun _ _ => rfl).1

/-- A write to a log block that the header does not use. -/
theorem Durable.writeSlot (hd : Durable d₀ h disk) (hheader : header disk = []) {i : ℕ}
    (hi : i + 1 < nlog) (data : Block) : Durable d₀ h (update disk (logstart + i + 1) data) := by
  have hsame : header (update disk (logstart + i + 1) data) = header disk :=
    header_update (slot_ne_logstart i)
  refine ⟨?_, hsame ▸ hd.nodup, hsame ▸ hd.fits, hsame ▸ hd.outside, ?_⟩
  · rw [hsame, update_of_ne (slot_ne_logstart i)]
    exact hd.readable
  · intro b hb
    rw [RedoLog.contents_of_header_nil (hsame.trans hheader)]
    exact (update_of_ne (hb.ne_slot hi) _ _).trans (hd.eq_base hheader hb)

/-- A write to a block that the header lists. -/
theorem Durable.writeHome (hd : Durable d₀ h disk) {b : BlockNo} (hb : b ∈ header disk)
    (data : Block) : Durable d₀ h (update disk b data) := by
  have hne : logstart ≠ b := (hd.outside b hb).ne_logstart.symm
  have hsame : header (update disk b data) = header disk := header_update hne
  refine ⟨?_, hsame ▸ hd.nodup, hsame ▸ hd.fits, hsame ▸ hd.outside, ?_⟩
  · rw [hsame, update_of_ne hne]
    exact hd.readable
  · intro b' hb'
    rw [← hd.contents b' hb']
    refine RedoLog.contents_congr hsame (fun i hi => ?_) fun hnot => ?_
    · have hi' : i + 1 < nlog := Nat.lt_of_le_of_lt hi hd.fits
      exact update_of_ne ((hd.outside b hb).ne_slot hi').symm _ _
    · have hne' : b' ≠ b := fun heq => hnot (heq ▸ hb)
      exact update_of_ne hne' _ _

/-- **The commit**: writing the header of a group that is in the log. -/
theorem Durable.writeHeader {lh : List BlockNo} (hnodup : lh.Nodup) (hfits : lh.length < nlog)
    (houtside : ∀ b ∈ lh, Outside b) {hb : Block} (hread : readHeader hb = some lh)
    (hslots : ∀ i b, lh[i]? = some b → disk (logstart + i + 1) = h.now d₀ b)
    (hhome : ∀ b, Outside b → b ∉ lh → disk b = h.now d₀ b) :
    Durable d₀ ⟨h.committed ++ [h.current], []⟩ (update disk logstart hb) := by
  have hheader : header (update disk logstart hb) = lh := header_update_logstart hread
  refine ⟨?_, hheader ▸ hnodup, hheader ▸ hfits, hheader ▸ houtside, ?_⟩
  · rw [hheader, update_self]
    exact hread
  · intro b hb
    have hnow : History.base ⟨h.committed ++ [h.current], []⟩ d₀ = h.now d₀ :=
      RedoLog.applyGroups_concat _ _ _
    rw [hnow]
    refine RedoLog.contents_commit (fun i b hi => ?_) fun hnot => ?_
    · have hi' : lh[i]? = some b := hheader ▸ hi
      exact (update_of_ne (slot_ne_logstart i).symm _ _).trans (hslots i b hi')
    · have hnot' : b ∉ lh := fun hmem => hnot (show b ∈ header _ from hheader.symm ▸ hmem)
      exact (update_of_ne hb.ne_logstart _ _).trans (hhome b hb hnot')

/-- The group is installed, and the header cleared. -/
theorem Durable.clear (hd : Durable d₀ h disk)
    (hinstalled : RedoLog.Installed (view disk) (header disk).length) (hb : Block) :
    Durable d₀ h (update disk logstart (putHeader hb [])) ∧
      header (update disk logstart (putHeader hb [])) = [] := by
  refine Durable.of_empty ?_ fun b hb => ?_
  · rw [update_self]
    exact readHeader_of_zero (putHeader_nil hb)
  · rw [← hd.contents b hb, RedoLog.contents_of_installed hinstalled]
    exact update_of_ne hb.ne_logstart _ _

/-! ### The running machine -/

/-- The process that runs `commit`, and where it is. -/
abbrev Stage : Type := Option (Pid × Pc)

namespace Stage

/-- The number of blocks copied to the log, out of `n`. -/
def logged (n : ℕ) : Stage → ℕ
  | some (_, .writeLog tail) => tail
  | some (_, .writeHead) => n
  | some (_, .installTrans _) => n
  | some (_, .clear) => n
  | _ => 0

/-- The header lists the group. -/
def Headed : Stage → Prop
  | some (_, .installTrans _) => True
  | some (_, .clear) => True
  | _ => False

/-- The number of blocks installed, out of `n`. -/
def installed (n : ℕ) : Stage → ℕ
  | some (_, .installTrans tail) => tail
  | some (_, .clear) => n
  | _ => 0

end Stage

/-! ### The processes -/

/-- In an operation, between `begin_op` and `end_op`. -/
def Phase.InOp : Phase → Prop
  | .op => True
  | .logWrite _ => True
  | _ => False

/-- The counters of the log agree with what the processes do. -/
structure Procs (phase : Pid → Phase) (outstanding : ℕ) (committing : Bool) (stage : Stage) :
    Prop where
  ops : ∃ F : Finset Pid, (∀ p, p ∈ F ↔ (phase p).InOp) ∧ outstanding = F.card
  /-- There is no operation during a commit. -/
  quiet : stage ≠ none → outstanding = 0
  committer : ∀ p pc, phase p = .commit pc → stage = some (p, pc)
  committing : committing = false → stage = none

namespace Procs

variable {phase : Pid → Phase} {outstanding : ℕ} {committing : Bool} {stage : Stage} {p : Pid}

theorem initial : Procs (fun _ => .user) 0 false none where
  ops := ⟨∅, fun p => iff_of_false (Finset.notMem_empty p) id, rfl⟩
  quiet := fun _ => rfl
  committer := fun p pc hp => absurd hp (by simp)
  committing := fun _ => rfl

theorem not_inOp (h : Procs phase outstanding committing stage) (hstage : stage ≠ none) (p : Pid) :
    ¬ (phase p).InOp := by
  obtain ⟨F, hF, hcard⟩ := h.ops
  rw [h.quiet hstage] at hcard
  intro hp
  have hmem : p ∈ F := (hF p).mpr hp
  rw [Finset.card_eq_zero.mp hcard.symm] at hmem
  exact absurd hmem (Finset.notMem_empty p)

/-- An operation is under way only when there is no commit. -/
theorem stage_eq_none (h : Procs phase outstanding committing stage) (hp : (phase p).InOp) :
    stage = none :=
  by_contra fun hstage => h.not_inOp hstage p hp

/-- A process that neither enters nor leaves an operation does not change their number. -/
theorem ops_update (h : Procs phase outstanding committing stage) {x : Phase}
    (hx : x.InOp ↔ (phase p).InOp) :
    ∃ F : Finset Pid, (∀ q, q ∈ F ↔ (update phase p x q).InOp) ∧ outstanding = F.card := by
  obtain ⟨F, hF, hcard⟩ := h.ops
  refine ⟨F, fun q => ?_, hcard⟩
  rw [hF, update_apply]
  split_ifs with hq
  · rw [hq, hx]
  · rfl

/-- Only the process that moves can be in `commit`, if no other one is. -/
theorem committer_update (h : Procs phase outstanding committing stage)
    (hstage : ∀ q pc, stage = some (q, pc) → q = p) {x : Phase} {stage' : Stage}
    (hx : ∀ pc, x = .commit pc → stage' = some (p, pc)) (q : Pid) (pc : Pc)
    (hq : update phase p x q = .commit pc) : stage' = some (q, pc) := by
  rw [update_apply] at hq
  split_ifs at hq with hqp
  · rw [hqp]
    exact hx pc hq
  · exact absurd (hstage q pc (h.committer q pc hq)) hqp

/-- A process starts an operation. -/
theorem enter (h : Procs phase outstanding committing none) (hp : phase p = .user) :
    Procs (update phase p .op) (outstanding + 1) committing none := by
  obtain ⟨F, hF, hcard⟩ := h.ops
  have hnot : p ∉ F := fun hmem => by
    have := (hF p).mp hmem
    rw [hp] at this
    exact this
  refine ⟨⟨insert p F, fun q => ?_, ?_⟩, fun hne => absurd rfl hne,
    h.committer_update nofun nofun, fun _ => rfl⟩
  · rw [update_apply, Finset.mem_insert]
    split_ifs with hq
    · exact iff_of_true (Or.inl hq) trivial
    · rw [or_iff_right hq]
      exact hF q
  · rw [Finset.card_insert_of_notMem hnot, hcard]

/-- A process stays in its operation. -/
theorem within (h : Procs phase outstanding committing none) (hp : (phase p).InOp) {x : Phase}
    (hx : x.InOp) : Procs (update phase p x) outstanding committing none where
  ops := h.ops_update (iff_of_true hx hp)
  quiet hne := absurd rfl hne
  committer := h.committer_update nofun fun _ hpc => (hpc ▸ hx).elim
  committing _ := rfl

/-- A process ends its operation, and is the one to commit if the stage says so. -/
theorem leave (h : Procs phase outstanding committing none) (hp : phase p = .op) {x : Phase}
    {stage : Stage} (hx : ¬ x.InOp) (hlast : stage ≠ none → outstanding - 1 = 0)
    (hcommitter : ∀ pc, x = .commit pc → stage = some (p, pc)) {committing' : Bool}
    (hcommitting : committing' = false → stage = none) :
    Procs (update phase p x) (outstanding - 1) committing' stage := by
  obtain ⟨F, hF, hcard⟩ := h.ops
  have hmem : p ∈ F := (hF p).mpr (by rw [hp]; trivial)
  refine ⟨⟨F.erase p, fun q => ?_, ?_⟩, hlast, h.committer_update nofun hcommitter, hcommitting⟩
  · rw [update_apply, Finset.mem_erase]
    split_ifs with hq
    · exact iff_of_false (fun hmem => hmem.1 hq) hx
    · rw [and_iff_right hq]
      exact hF q
  · rw [Finset.card_erase_of_mem hmem, hcard]

/-- The committing process goes on in `commit`. -/
theorem commit {pc : Pc} (h : Procs phase outstanding committing (some (p, pc))) (pc' : Pc) :
    Procs (update phase p (.commit pc')) outstanding committing (some (p, pc')) where
  ops := h.ops_update (iff_of_false id (h.not_inOp nofun p))
  quiet _ := h.quiet nofun
  committer := h.committer_update (by rintro q pc ⟨⟩; rfl) (by rintro pc ⟨⟩; rfl)
  committing hc := absurd (h.committing hc) nofun

/-- The committing process is done. -/
theorem finish {pc : Pc} (h : Procs phase outstanding committing (some (p, pc))) :
    Procs (update phase p .user) outstanding false none where
  ops := h.ops_update (iff_of_false id (h.not_inOp nofun p))
  quiet hne := absurd rfl hne
  committer := h.committer_update (by rintro q pc ⟨⟩; rfl) nofun
  committing _ := rfl

end Procs

/-! ### The running machine -/

/-- The contents that the cache and the disk stand for. -/
def content (d₀ : Disk) (h : History) (disk : Disk) (b : BlockNo) : Block :=
  if Outside b then h.now d₀ b else disk b

/-- The blocks that the log has not brought home yet. -/
def Pinned (s : State) (stage : Stage) (b : BlockNo) : Prop :=
  b ∈ s.lh.drop (stage.installed s.lh.length)

/-- The blocks that are changed and not recorded yet. -/
def Hot (s : State) (p : Pid) (b : BlockNo) : Prop := s.phase p = .logWrite b

/-- The running machine, with `commit` at `stage`. -/
structure Running (d₀ : Disk) (h : History) (s : State) (stage : Stage) : Prop where
  procs : Procs s.phase s.outstanding s.committing stage
  coherent : s.bio.Coherent (content d₀ h s.bio.disk) (Pinned s stage) (Hot s)
  hot : ∀ p b, Hot s p b → Outside b
  nodup : s.lh.Nodup
  outside : ∀ b ∈ s.lh, Outside b
  headed : stage.Headed → header s.bio.disk = s.lh
  unheaded : ¬ stage.Headed → header s.bio.disk = []
  slots : ∀ i b, i < stage.logged s.lh.length → s.lh[i]? = some b →
    s.bio.disk (logstart + i + 1) = h.now d₀ b
  fits : 0 < stage.logged s.lh.length → s.lh.length < nlog
  nonempty : ∀ p, stage = some (p, .writeHead) → s.lh ≠ []
  finished : ∀ p, stage = some (p, .done) → s.lh = []

variable {s : State} {stage : Stage} {p : Pid} {b : BlockNo} {bio : Bio} {lh : List BlockNo}
  {tail : ℕ}

/-- A process that moves outside of `log_write` leaves the hot blocks as they are. -/
theorem goto_hot {phase : Phase} (hold : ∀ b, s.phase p ≠ .logWrite b)
    (hnew : ∀ b, phase ≠ .logWrite b) (q : Pid) (b : BlockNo) :
    (s.goto p phase).phase q = .logWrite b ↔ s.phase q = .logWrite b := by
  rw [goto_phase]
  split_ifs with hq
  · rw [hq]
    exact iff_of_false (hnew b) (hold b)
  · rfl

/-! ### Steps outside of `commit` -/

/-- The cache is used, the disk stays. -/
theorem Running.useCache (hr : Running d₀ h s stage)
    (hbio : bio.disk = s.bio.disk ∧
      bio.Coherent (content d₀ h s.bio.disk) (Pinned s stage) (Hot s)) :
    Running d₀ h { s with bio := bio } stage := by
  obtain ⟨hdisk, hcoh⟩ := hbio
  refine { hr with coherent := ?_, headed := ?_, unheaded := ?_, slots := ?_ }
  · show bio.Coherent (content d₀ h bio.disk) _ _
    rw [hdisk]
    exact hcoh
  · show stage.Headed → header bio.disk = s.lh
    rw [hdisk]
    exact hr.headed
  · show ¬ stage.Headed → header bio.disk = []
    rw [hdisk]
    exact hr.unheaded
  · show ∀ i b, _ → _ → bio.disk (logstart + i + 1) = _
    rw [hdisk]
    exact hr.slots

theorem Running.beginOp (hr : Running d₀ h s stage) (hp : s.phase p = .user)
    (hidle : s.committing = false) :
    Running d₀ h { s.goto p .op with outstanding := s.outstanding + 1 } none := by
  obtain rfl := hr.procs.committing hidle
  have hhot : ∀ q b, (s.goto p .op).phase q = .logWrite b ↔ s.phase q = .logWrite b :=
    goto_hot (by simp [hp]) (by simp)
  exact { hr with
    procs := hr.procs.enter hp
    coherent := hr.coherent.congr (fun _ => rfl) (fun _ => Iff.rfl) hhot
    hot := fun q b hq => hr.hot q b ((hhot q b).mp hq) }

theorem content_logWrite {data : Block} (hb : Outside b) (b' : BlockNo) :
    content d₀ { h with current := h.current ++ [(b, data)] } disk b' =
      update (content d₀ h disk) b data b' := by
  have hnow : History.now { h with current := h.current ++ [(b, data)] } d₀ =
      update (h.now d₀) b data :=
    RedoLog.applyGroup_concat _ _ _ _
  unfold content
  rw [hnow]
  by_cases heq : b' = b
  · rw [heq, update_self, update_self, if_pos hb]
  · rw [update_of_ne heq, update_of_ne heq]

theorem Running.logWrite (hr : Running d₀ h s stage) (hp : s.phase p = .op)
    (hheld : s.bio.holder b = some p) (hb : Outside b) (data : Block) :
    Running d₀ { h with current := h.current ++ [(b, data)] }
      { s.goto p (.logWrite b) with bio := s.bio.setData b data } none := by
  have hop : (s.phase p).InOp := by rw [hp]; trivial
  obtain rfl := hr.procs.stage_eq_none hop
  have hhot : ∀ q b', (s.goto p (.logWrite b)).phase q = .logWrite b' ↔
      Hot s q b' ∨ q = p ∧ b' = b := by
    intro q b'
    rw [goto_phase]
    split_ifs with hq
    · subst hq
      have hnot : ¬ Hot s q b' := by
        unfold Hot
        rw [hp]
        simp
      simp [hnot, eq_comm]
    · simp [hq, Hot]
  refine { hr with
    procs := hr.procs.within hop trivial, coherent := ?_, hot := ?_
    slots := fun i b' hi => absurd hi (Nat.not_lt_zero i) }
  · exact (Bio.setData_coherent hr.coherent hheld data).congr (content_logWrite hb)
      (fun _ => Iff.rfl) hhot
  · intro q b' hq
    rcases (hhot q b').mp hq with hq | ⟨-, rfl⟩
    · exact hr.hot q b' hq
    · exact hb

theorem absorb_nodup (h : lh.Nodup) (b : BlockNo) : (absorb lh b).Nodup := by
  unfold absorb
  split_ifs with hb
  · exact h
  · exact List.nodup_append.mpr ⟨h, List.nodup_singleton b, fun x hx y hy =>
      List.mem_singleton.mp hy ▸ fun heq => hb (heq ▸ hx)⟩

theorem mem_absorb {b b' : BlockNo} : b' ∈ absorb lh b ↔ b' ∈ lh ∨ b' = b := by
  unfold absorb
  split_ifs with hb
  · exact ⟨Or.inl, fun h => h.elim id fun heq => heq ▸ hb⟩
  · simp

section

variable (hr : Running d₀ h s stage)

include hr

theorem Running.record (hp : s.phase p = .logWrite b) :
    Running d₀ h { s.goto p .op with lh := absorb s.lh b, bio := s.bio.setDirty b } none := by
  have hop : (s.phase p).InOp := by rw [hp]; trivial
  obtain rfl := hr.procs.stage_eq_none hop
  have hhot : ∀ q b', (s.goto p .op).phase q = .logWrite b' ↔ Hot s q b' ∧ q ≠ p := by
    intro q b'
    rw [goto_phase]
    split_ifs with hq
    · simp [hq]
    · simp [hq, Hot]
  have hcoh : (s.bio.setDirty b).Coherent (content d₀ h s.bio.disk)
      (fun b' => Pinned s none b' ∨ b' = b) fun q b' => (s.goto p .op).phase q = .logWrite b' := by
    refine Bio.setDirty_coherent hr.coherent (hr.coherent.holder_of_hot hp)
      (fun q hq => ((hhot q b).mp hq).1) fun b' hne q => ?_
    -- `p` was in `log_write` of `b`, so of no other block
    rw [hhot]
    refine and_iff_left_of_imp fun hq hqp => hne ?_
    have hq' : s.phase q = .logWrite b' := hq
    rw [hqp, hp] at hq'
    exact (Phase.logWrite.inj hq').symm
  refine { hr with
    procs := hr.procs.within hop trivial
    coherent := hcoh.congr (fun _ => rfl) (fun b' => mem_absorb) fun _ _ => Iff.rfl
    hot := fun q b' hq => hr.hot q b' ((hhot q b').mp hq).1
    nodup := absorb_nodup hr.nodup b, outside := ?_, headed := False.elim
    slots := fun i b' hi => absurd hi (Nat.not_lt_zero i)
    fits := fun hlt => absurd hlt (Nat.not_lt_zero 0)
    nonempty := nofun
    finished := nofun }
  intro b' hb'
  rcases mem_absorb.mp hb' with hb' | rfl
  · exact hr.outside b' hb'
  · exact hr.hot p b' hp

theorem Running.endOp (hp : s.phase p = .op) :
    Running d₀ h { s.goto p .user with outstanding := s.outstanding - 1 } none := by
  obtain rfl := hr.procs.stage_eq_none (by rw [hp]; trivial)
  have hhot : ∀ q b, (s.goto p .user).phase q = .logWrite b ↔ s.phase q = .logWrite b :=
    goto_hot (by simp [hp]) (by simp)
  exact { hr with
    procs := hr.procs.leave hp id (fun hne => absurd rfl hne) (by simp) fun _ => rfl
    coherent := hr.coherent.congr (fun _ => rfl) (fun _ => Iff.rfl) hhot
    hot := fun q b hq => hr.hot q b ((hhot q b).mp hq) }

/-- The last operation ends: `commit` starts. -/
theorem Running.endLast (hp : s.phase p = .op) (hlast : s.outstanding - 1 = 0) :
    Running d₀ h { s.goto p (.commit (Pc.first s.lh)) with
      outstanding := s.outstanding - 1, committing := true } (some (p, Pc.first s.lh)) := by
  obtain rfl := hr.procs.stage_eq_none (by rw [hp]; trivial)
  have hhot : ∀ q b, (s.goto p (.commit (Pc.first s.lh))).phase q = .logWrite b ↔
      s.phase q = .logWrite b :=
    goto_hot (by simp [hp]) (by simp)
  have hprocs : Procs (s.goto p (.commit (Pc.first s.lh))).phase (s.outstanding - 1) true
      (some (p, Pc.first s.lh)) :=
    hr.procs.leave hp id (fun _ => hlast) (fun pc hpc => by rw [Phase.commit.inj hpc])
      fun hc => absurd hc (by simp)
  -- nothing is logged, headed or installed yet
  by_cases hlh : s.lh = []
  · rw [show Pc.first s.lh = .done from if_pos hlh] at hhot hprocs ⊢
    exact { hr with
      procs := hprocs, coherent := hr.coherent.congr (fun _ => rfl) (fun _ => Iff.rfl) hhot
      hot := fun q b hq => hr.hot q b ((hhot q b).mp hq)
      nonempty := nofun, finished := fun _ _ => hlh }
  · rw [show Pc.first s.lh = .writeLog 0 from if_neg hlh] at hhot hprocs ⊢
    exact { hr with
      procs := hprocs, coherent := hr.coherent.congr (fun _ => rfl) (fun _ => Iff.rfl) hhot
      hot := fun q b hq => hr.hot q b ((hhot q b).mp hq)
      nonempty := nofun, finished := nofun }

/-! ### The steps of `commit` -/

theorem Running.not_hot (hstage : stage ≠ none) (q : Pid) (b : BlockNo) : ¬ Hot s q b := by
  intro hq
  have hq' : s.phase q = .logWrite b := hq
  exact hr.procs.not_inOp hstage q (by rw [hq']; trivial)

end

/-- **A step of `commit`.** Its process goes on at `pc'`, with the disk, the list and the history
that the step leaves. -/
theorem Running.advance {pc : Pc} (hr : Running d₀ h s (some (p, pc))) (hp : s.phase p = .commit pc)
    (pc' : Pc) {h' : History}
    (hcoh : bio.Coherent (content d₀ h' bio.disk)
      (· ∈ lh.drop (Stage.installed lh.length (some (p, pc')))) (Hot s)) (hnodup : lh.Nodup)
    (houtside : ∀ b ∈ lh, Outside b) (hheaded : Stage.Headed (some (p, pc')) → header bio.disk = lh)
    (hunheaded : ¬ Stage.Headed (some (p, pc')) → header bio.disk = [])
    (hslots : ∀ i b, i < Stage.logged lh.length (some (p, pc')) → lh[i]? = some b →
      bio.disk (logstart + i + 1) = h'.now d₀ b)
    (hfits : 0 < Stage.logged lh.length (some (p, pc')) → lh.length < nlog)
    (hnonempty : pc' = .writeHead → lh ≠ []) (hfinished : pc' = .done → lh = []) :
    Running d₀ h' { s.goto p (.commit pc') with bio := bio, lh := lh } (some (p, pc')) where
  procs := hr.procs.commit pc'
  coherent := hcoh.congr (fun _ => rfl) (fun _ => Iff.rfl) (goto_hot (by simp [hp]) (by simp))
  hot q b hq := hr.hot q b ((goto_hot (by simp [hp]) (by simp) q b).mp hq)
  nodup := hnodup
  outside := houtside
  headed := hheaded
  unheaded := hunheaded
  slots := hslots
  fits := hfits
  nonempty := by
    rintro q ⟨⟩
    exact hnonempty rfl
  finished := by
    rintro q ⟨⟩
    exact hfinished rfl

/-- A write to a block of the log. -/
theorem content_update_inside {c : BlockNo} {data : Block} (hc : ¬ Outside c) (b' : BlockNo) :
    content d₀ h (update disk c data) b' =
      update (content d₀ h disk) c data b' := by
  unfold content
  by_cases heq : b' = c
  · rw [heq, update_self, update_self, if_neg hc]
  · rw [update_of_ne heq, update_of_ne heq]

theorem content_outside (hb : Outside b) : content d₀ h disk b = h.now d₀ b := if_pos hb

theorem content_inside (hb : ¬ Outside b) : content d₀ h disk b = disk b := if_neg hb

/-- **The group fits in the log** once a block of it has been copied there: if it did not, the
pinned blocks would have taken every buffer. -/
theorem Running.fits_of_writeLog (hr : Running d₀ h s stage)
    (hp : s.phase p = .commit (.writeLog tail)) (hbio : s.bio.writeLog p tail b = .ok bio) :
    s.lh.length < nlog := by
  obtain rfl := hr.procs.committer p _ hp
  rcases Nat.eq_zero_or_pos tail with rfl | hpos
  · have hslot : ¬ Outside (logstart + 0 + 1) := not_outside_slot (i := 0) (by decide)
    exact Bio.length_lt_of_transfer hr.coherent hbio (fun hmem => hslot (hr.outside _ hmem))
      hr.nodup fun b hb => hb
  · exact hr.fits hpos

theorem Running.writeLog (hr : Running d₀ h s stage) (hd : Durable d₀ h s.bio.disk)
    (hp : s.phase p = .commit (.writeLog tail)) (hb : s.lh[tail]? = some b)
    (hbio : s.bio.writeLog p tail b = .ok bio) :
    Durable d₀ h bio.disk ∧ ∃ stage',
      Running d₀ h { s.goto p
        (.commit (if tail + 1 < s.lh.length then .writeLog (tail + 1) else .writeHead))
        with bio := bio } stage' := by
  have hfits := hr.fits_of_writeLog hp hbio
  obtain rfl := hr.procs.committer p _ hp
  have htail : tail < s.lh.length := (List.getElem?_eq_some_iff.mp hb).1
  have hslot : ¬ Outside (logstart + tail + 1) := not_outside_slot (by omega)
  have hout : Outside b := hr.outside b (List.mem_of_getElem? hb)
  have hnot := hr.not_hot (by simp)
  obtain ⟨hdisk, hcoh⟩ := Bio.transfer_coherent hr.coherent (hnot p) (Or.inr rfl) (Or.inl rfl) hbio
  rw [content_outside hout] at hdisk hcoh
  have hheader : header bio.disk = [] := by
    rw [hdisk, header_update (slot_ne_logstart tail)]
    exact hr.unheaded id
  have hslots : ∀ i b', i < tail + 1 → s.lh[i]? = some b' →
      bio.disk (logstart + i + 1) = h.now d₀ b' := by
    intro i b' hi hb'
    rw [hdisk]
    by_cases heq : i = tail
    · subst heq
      rw [update_self, Option.some.inj (hb.symm.trans hb')]
    · have hne : logstart + i + 1 ≠ logstart + tail + 1 := by omega
      rw [update_of_ne hne]
      exact hr.slots i b' (show i < tail by omega) hb'
  have hcoh' : bio.Coherent (content d₀ h bio.disk) (· ∈ s.lh) (Hot s) := by
    refine hcoh.congr (fun b' => ?_) (fun b' => ?_) fun _ _ => Iff.rfl
    · rw [hdisk]
      exact content_update_inside hslot b'
    · exact ⟨fun hmem => ⟨hmem, fun heq => hslot (heq ▸ hr.outside b' hmem)⟩, And.left⟩
  refine ⟨?_, ?_⟩
  · rw [hdisk]
    exact hd.writeSlot (hr.unheaded id) (by omega) _
  · by_cases hlast : tail + 1 < s.lh.length
    · rw [if_pos hlast]
      exact ⟨_, hr.advance hp _ hcoh' hr.nodup hr.outside False.elim (fun _ => hheader) hslots
        (fun _ => hfits) nofun nofun⟩
    · rw [if_neg hlast]
      exact ⟨_, hr.advance hp _ hcoh' hr.nodup hr.outside False.elim (fun _ => hheader)
        (fun i b' hi => hslots i b' (Nat.lt_of_lt_of_le hi (Nat.le_of_not_lt hlast)))
        (fun _ => hfits) (fun _ => List.ne_nil_of_length_pos (Nat.zero_lt_of_lt htail)) nofun⟩

theorem Running.writeHead (hr : Running d₀ h s stage) (hp : s.phase p = .commit .writeHead)
    (hbio : s.bio.writeHead p s.lh = .ok bio) :
    Durable d₀ ⟨h.committed ++ [h.current], []⟩ bio.disk ∧ ∃ stage',
      Running d₀ ⟨h.committed ++ [h.current], []⟩
        { s.goto p (.commit (.installTrans 0)) with bio := bio } stage' := by
  obtain rfl := hr.procs.committer p _ hp
  have hpos : 0 < s.lh.length := List.length_pos_iff.mpr (hr.nonempty p rfl)
  have hfits := hr.fits hpos
  have hnot := hr.not_hot (by simp)
  obtain ⟨hdisk, hcoh⟩ := Bio.writeHead_coherent hr.coherent (hnot p) hbio
  have hread : readHeader (putHeader (content d₀ h s.bio.disk logstart) s.lh) = some s.lh := by
    refine readHeader_putHeader _ (Nat.le_of_lt hfits) fun b hb => ?_
    obtain ⟨x, hx, hvalid, -⟩ := hr.coherent.present hb
    exact ((hr.coherent.backs hx).data hvalid).2
  have hnow : History.now ⟨h.committed ++ [h.current], []⟩ d₀ = h.now d₀ :=
    RedoLog.applyGroups_concat _ _ _
  have hslots : ∀ i b, s.lh[i]? = some b → s.bio.disk (logstart + i + 1) = h.now d₀ b :=
    fun i b hi => hr.slots i b (List.getElem?_eq_some_iff.mp hi).1 hi
  have hhome : ∀ b, Outside b → b ∉ s.lh → s.bio.disk b = h.now d₀ b := by
    intro b hb hmem
    have hclean := hr.coherent.clean hmem fun q => hnot q b
    rw [content_outside hb] at hclean
    exact hclean.symm
  refine ⟨?_, _, hr.advance hp (.installTrans 0) ?_ hr.nodup hr.outside (fun _ => ?_)
    (fun hh => absurd trivial hh) ?_ (fun _ => hfits) nofun nofun⟩
  · rw [hdisk]
    exact Durable.writeHeader hr.nodup hfits hr.outside hread hslots hhome
  · refine hcoh.congr (fun b => ?_) (fun b => ?_) fun _ _ => Iff.rfl
    · rw [hdisk, ← content_update_inside not_outside_logstart]
      unfold content
      rw [hnow]
    · exact ⟨fun hmem => ⟨hmem, (hr.outside b hmem).ne_logstart⟩, And.left⟩
  · rw [hdisk]
    exact header_update_logstart hread
  · intro i b _ hi
    rw [hdisk, update_of_ne (slot_ne_logstart i).symm, hnow]
    exact hslots i b hi

/-- Writing a block home does not change the contents when it has them already. -/
theorem content_update_home (hb : Outside b) (b' : BlockNo) :
    content d₀ h (update disk b (h.now d₀ b)) b' =
      update (content d₀ h disk) b (h.now d₀ b) b' := by
  by_cases heq : b' = b
  · rw [heq, update_self, content_outside hb]
  · rw [update_of_ne heq]
    unfold content
    rw [update_of_ne heq]

/-- Taking the next block off a list without repetitions. -/
theorem mem_drop_succ (hnodup : lh.Nodup) (hb : lh[tail]? = some b) (b' : BlockNo) :
    b' ∈ lh.drop (tail + 1) ↔ b' ∈ lh.drop tail ∧ b' ≠ b := by
  obtain ⟨hlt, hget⟩ := List.getElem?_eq_some_iff.mp hb
  have hdrop : lh.drop tail = b :: lh.drop (tail + 1) := by
    rw [List.drop_eq_getElem_cons hlt, hget]
  have hnot : b ∉ lh.drop (tail + 1) := by
    have := hnodup.sublist (List.drop_sublist tail lh)
    rw [hdrop] at this
    exact (List.nodup_cons.mp this).1
  rw [hdrop, List.mem_cons]
  constructor
  · intro hmem
    exact ⟨Or.inr hmem, fun heq => hnot (heq ▸ hmem)⟩
  · rintro ⟨hmem | hmem, hne⟩
    · exact absurd hmem hne
    · exact hmem

theorem Running.installTrans (hr : Running d₀ h s stage) (hd : Durable d₀ h s.bio.disk)
    (hp : s.phase p = .commit (.installTrans tail)) (hb : s.lh[tail]? = some b)
    (hbio : s.bio.installTrans p tail b = .ok bio) :
    Durable d₀ h bio.disk ∧ ∃ stage',
      Running d₀ h { s.goto p
        (.commit (if tail + 1 < s.lh.length then .installTrans (tail + 1) else .clear))
        with bio := bio } stage' := by
  obtain rfl := hr.procs.committer p _ hp
  have htail : tail < s.lh.length := (List.getElem?_eq_some_iff.mp hb).1
  have hfits := hr.fits (Nat.zero_lt_of_lt htail)
  have hmem : b ∈ s.lh := List.mem_of_getElem? hb
  have hout : Outside b := hr.outside b hmem
  have hnot := hr.not_hot (by simp)
  have hheader : header s.bio.disk = s.lh := hr.headed trivial
  obtain ⟨hdisk, hcoh⟩ := Bio.transfer_coherent hr.coherent (hnot p) (Or.inl rfl) (Or.inr rfl) hbio
  -- the log block holds the new contents
  rw [content_inside (not_outside_slot (by omega)), hr.slots tail b htail hb] at hdisk hcoh
  have hslots : ∀ i b', i < s.lh.length → s.lh[i]? = some b' →
      bio.disk (logstart + i + 1) = h.now d₀ b' := by
    intro i b' hi hb'
    rw [hdisk, update_of_ne (hout.ne_slot (by omega)).symm]
    exact hr.slots i b' hi hb'
  have hheader' : header bio.disk = s.lh := by
    rw [hdisk, header_update hout.ne_logstart.symm, hheader]
  have hcoh' : bio.Coherent (content d₀ h bio.disk) (· ∈ s.lh.drop (tail + 1)) (Hot s) := by
    refine hcoh.congr (fun b' => ?_) (mem_drop_succ hr.nodup hb) fun _ _ => Iff.rfl
    rw [hdisk]
    exact content_update_home hout b'
  refine ⟨?_, ?_⟩
  · rw [hdisk]
    exact hd.writeHome (by rw [hheader]; exact hmem) _
  · by_cases hlast : tail + 1 < s.lh.length
    · rw [if_pos hlast]
      exact ⟨_, hr.advance hp _ hcoh' hr.nodup hr.outside (fun _ => hheader')
        (fun hh => absurd trivial hh) hslots (fun _ => hfits) nofun nofun⟩
    · rw [if_neg hlast]
      rw [show tail + 1 = s.lh.length by omega] at hcoh'
      exact ⟨_, hr.advance hp .clear hcoh' hr.nodup hr.outside (fun _ => hheader')
        (fun hh => absurd trivial hh) hslots (fun _ => hfits) nofun nofun⟩

theorem Running.clearHead (hr : Running d₀ h s stage) (hd : Durable d₀ h s.bio.disk)
    (hp : s.phase p = .commit .clear) (hbio : s.bio.writeHead p [] = .ok bio) :
    Durable d₀ h bio.disk ∧ ∃ stage',
      Running d₀ h { s.goto p (.commit .done) with bio := bio, lh := [] } stage' := by
  obtain rfl := hr.procs.committer p _ hp
  have hnot := hr.not_hot (by simp)
  have hheader : header s.bio.disk = s.lh := hr.headed trivial
  obtain ⟨hdisk, hcoh⟩ := Bio.writeHead_coherent hr.coherent (hnot p) hbio
  -- nothing is pinned any more, so every block is at home
  have hpinned : ∀ b, ¬ Pinned s (some (p, .clear)) b := by
    intro b hb
    have hb' : b ∈ s.lh.drop s.lh.length := hb
    rw [List.drop_length] at hb'
    exact absurd hb' List.not_mem_nil
  have hinstalled : RedoLog.Installed (view s.bio.disk) (header s.bio.disk).length := by
    intro i b _ hi
    have hi' : s.lh[i]? = some b := hheader ▸ hi
    have hclean := hr.coherent.clean (hpinned b) fun q => hnot q b
    rw [content_outside (hr.outside b (List.mem_of_getElem? hi'))] at hclean
    exact hclean.symm.trans (hr.slots i b (List.getElem?_eq_some_iff.mp hi').1 hi').symm
  obtain ⟨hdurable, hempty⟩ := hd.clear hinstalled (content d₀ h s.bio.disk logstart)
  rw [← hdisk] at hdurable hempty
  refine ⟨hdurable, _, hr.advance hp .done ?_ List.nodup_nil nofun False.elim
    (fun _ => hempty) nofun nofun nofun fun _ => rfl⟩
  refine hcoh.congr (fun b => ?_) (fun b => ?_) fun _ _ => Iff.rfl
  · rw [hdisk]
    exact content_update_inside not_outside_logstart b
  · exact iff_of_false (fun hb => absurd hb List.not_mem_nil) fun hb => hpinned b hb.1

theorem Running.finish (hr : Running d₀ h s stage) (hp : s.phase p = .commit .done) :
    Running d₀ h { s.goto p .user with committing := false } none := by
  obtain rfl := hr.procs.committer p _ hp
  have hhot : ∀ q b, (s.goto p .user).phase q = .logWrite b ↔ s.phase q = .logWrite b :=
    goto_hot (by simp [hp]) (by simp)
  exact { hr with
    procs := hr.procs.finish
    coherent := hr.coherent.congr (fun _ => rfl) (fun _ => Iff.rfl) hhot
    hot := fun q b hq => hr.hot q b ((hhot q b).mp hq)
    nonempty := nofun
    finished := nofun }

/-! ### The recovery -/

/-- The machine while `recover_from_log` runs. -/
structure Recovering (h : History) (s : State) (pc : RecoverPc) : Prop where
  current : h.current = []
  coherent : s.bio.Coherent s.bio.disk (fun _ => False) fun _ _ => False
  idle : s.phase = (fun _ => .user) ∧ s.outstanding = 0 ∧ s.committing = false
  lh : pc ≠ .readHead → s.lh = header s.bio.disk
  installed : ∀ tail, pc = .installTrans tail → RedoLog.Installed (view s.bio.disk) tail
  clear : pc = .clear → RedoLog.Installed (view s.bio.disk) (header s.bio.disk).length

theorem Recovering.initial (disk : Disk) (hh : h.current = []) :
    Recovering h (boot disk) .readHead where
  current := hh
  coherent := Bio.Coherent.initial disk
  idle := ⟨rfl, rfl, rfl⟩
  lh := fun hne => absurd rfl hne
  installed := fun tail htail => absurd htail (by simp)
  clear := fun hclear => absurd hclear (by simp)

theorem Recovering.readHead (hr : Recovering h s .readHead) (hd : Durable d₀ h s.bio.disk)
    {bio bio' : Bio} (hread : s.bio.bread initproc logstart = .ok bio)
    (hlh : readHeader (bio.data logstart) = some lh)
    (hbio : bio.brelse initproc logstart = .ok bio') :
    bio'.disk = s.bio.disk ∧ ∀ mode,
      Recovering h { s with bio := bio', lh := lh, mode := mode }
        (if lh = [] then .clear else .installTrans 0) := by
  obtain ⟨hdisk, hcoh⟩ := Bio.bread_coherent hr.coherent hread
  obtain ⟨hdisk', hcoh'⟩ := Bio.brelse_coherent hcoh id hbio
  rw [hcoh.data_eq (Bio.bread_holder hr.coherent hread).1, hd.readable] at hlh
  obtain rfl := Option.some.inj hlh
  have hsame : bio'.disk = s.bio.disk := hdisk'.trans hdisk
  refine ⟨hsame, fun mode => ⟨hr.current, ?_, hr.idle, fun _ => ?_, fun tail htail => ?_,
    fun hclear => ?_⟩⟩
  · show bio'.Coherent bio'.disk _ _
    rw [hsame]
    exact hcoh'
  · exact congrArg header hsame.symm
  · -- the installation starts
    split_ifs at htail
    obtain rfl := RecoverPc.installTrans.inj htail
    exact fun i b hi => absurd hi (Nat.not_lt_zero i)
  · -- there is nothing to install
    split_ifs at hclear with hnil
    have hnil' : header bio'.disk = [] := (congrArg header hsame).trans hnil
    intro i b hi
    rw [show header _ = [] from hnil'] at hi
    exact absurd hi (Nat.not_lt_zero i)

theorem Recovering.install (hr : Recovering h s (.installTrans tail)) (hd : Durable d₀ h s.bio.disk)
    (hb : s.lh[tail]? = some b) (hbio : s.bio.installTrans initproc tail b = .ok bio) :
    Durable d₀ h bio.disk ∧ ∀ mode,
      Recovering h { s with bio := bio, mode := mode }
        (if tail + 1 < s.lh.length then .installTrans (tail + 1) else .clear) := by
  have hlh : s.lh = header s.bio.disk := hr.lh (by simp)
  rw [hlh] at hb ⊢
  have hmem : b ∈ header s.bio.disk := List.mem_of_getElem? hb
  have hout := hd.outside b hmem
  obtain ⟨hdisk, hcoh⟩ := Bio.transfer_coherent hr.coherent (fun _ => id) (Or.inl rfl) (Or.inr rfl)
    hbio
  have hheader : header bio.disk = header s.bio.disk := by
    rw [hdisk, header_update hout.ne_logstart.symm]
  have hinstalled : RedoLog.Installed (view bio.disk) (tail + 1) := by
    refine (hr.installed tail rfl).step hd.nodup hb hheader (fun i hi => ?_) ?_ fun b' _ hne => ?_
    · have hi' : i + 1 < nlog := Nat.lt_of_le_of_lt hi hd.fits
      show bio.disk _ = s.bio.disk _
      rw [hdisk, update_of_ne (hout.ne_slot hi').symm]
    · show bio.disk b = s.bio.disk _
      rw [hdisk, update_self]
    · show bio.disk b' = s.bio.disk b'
      rw [hdisk, update_of_ne hne]
  refine ⟨?_, fun mode => ⟨hr.current, ?_, hr.idle, fun _ => ?_, fun tail' htail => ?_,
    fun hclear => ?_⟩⟩
  · rw [hdisk]
    exact hd.writeHome hmem _
  · refine hcoh.congr (fun b' => ?_) (fun _ => ?_) fun _ _ => Iff.rfl
    · show bio.disk b' = _
      rw [hdisk]
    · exact iff_of_false id And.left
  · exact hheader.symm
  · split_ifs at htail
    obtain rfl := RecoverPc.installTrans.inj htail
    exact hinstalled
  · split_ifs at hclear with hlast
    have htail := (List.getElem?_eq_some_iff.mp hb).1
    have hall : (header bio.disk).length = tail + 1 := by
      rw [hheader]
      omega
    show RedoLog.Installed (view bio.disk) (header bio.disk).length
    rw [hall]
    exact hinstalled

/-- **The recovery completes**: the committed groups are at home and the header is empty. -/
theorem Recovering.finish (hr : Recovering h s .clear) (hd : Durable d₀ h s.bio.disk)
    (hbio : s.bio.writeHead initproc [] = .ok bio) :
    (Durable d₀ h bio.disk ∧ header bio.disk = [] ∧ bio.disk logstart 0 = 0) ∧ ∀ mode,
      Running d₀ h { s with bio := bio, lh := [], mode := mode } none := by
  obtain ⟨hdisk, hcoh⟩ := Bio.writeHead_coherent hr.coherent (fun _ => id) hbio
  obtain ⟨hdurable, hempty⟩ := hd.clear (hr.clear rfl) (s.bio.disk logstart)
  rw [← hdisk] at hdurable hempty
  obtain ⟨hphase, hout, hcommitting⟩ := hr.idle
  refine ⟨⟨hdurable, hempty, ?_⟩, fun mode => ⟨?_, ?_, ?_, List.nodup_nil, ?_, False.elim,
    fun _ => hempty, ?_, ?_, ?_, ?_⟩⟩
  · rw [hdisk, update_self]
    rfl
  · show Procs s.phase s.outstanding s.committing none
    rw [hphase, hout, hcommitting]
    exact Procs.initial
  · refine hcoh.congr (fun b => ?_) (fun b => ?_) fun p b => ?_
    · show content d₀ h bio.disk b = _
      rw [← hdisk]
      by_cases hb : Outside b
      · rw [content_outside hb, hdurable.eq_base hempty hb]
        unfold History.now
        rw [hr.current]
        rfl
      · rw [content_inside hb]
    · exact iff_of_false (fun hb => absurd hb List.not_mem_nil) And.left
    · show s.phase p = .logWrite b ↔ False
      rw [hphase]
      simp
  · intro p b hp
    have hp' : s.phase p = .logWrite b := hp
    rw [hphase] at hp'
    exact absurd hp' (by simp)
  · exact fun b hb => absurd hb List.not_mem_nil
  · exact fun i b hi => absurd hi (Nat.not_lt_zero i)
  · exact fun hlt => absurd hlt (Nat.not_lt_zero 0)
  · exact fun q hq => absurd hq (by simp)
  · exact fun q hq => absurd hq (by simp)

/-! ### All runs -/

/-- The invariant of all runs. -/
structure Inv (d₀ : Disk) (h : History) (s : State) : Prop where
  durable : Durable d₀ h s.bio.disk
  running : s.mode = .running → ∃ stage, Running d₀ h s stage
  recovering : ∀ pc, s.mode = .recovering pc → Recovering h s pc

/-- A running machine goes on running. -/
theorem Inv.of_running (hd : Durable d₀ h s.bio.disk) (hmode : s.mode = .running)
    (hr : ∃ stage, Running d₀ h s stage) : Inv d₀ h s where
  durable := hd
  running := fun _ => hr
  recovering := fun pc hpc => absurd (hmode.symm.trans hpc) (by simp)

theorem Inv.of_recovering {pc : RecoverPc} (hd : Durable d₀ h s.bio.disk)
    (hmode : s.mode = .recovering pc) (hr : Recovering h s pc) : Inv d₀ h s where
  durable := hd
  running := fun hrun => absurd (hmode.symm.trans hrun) (by simp)
  recovering := fun pc' hpc => by
    obtain rfl := Mode.recovering.inj (hmode.symm.trans hpc)
    exact hr

theorem Inv.of_panicked (hd : Durable d₀ h s.bio.disk) {panic : Panic}
    (hmode : s.mode = .panicked panic) : Inv d₀ h s where
  durable := hd
  running := fun hrun => absurd (hmode.symm.trans hrun) (by simp)
  recovering := fun pc hpc => absurd (hmode.symm.trans hpc) (by simp)

/-- Only the committed groups matter to the disk. -/
theorem Durable.of_committed {h' : History} (hd : Durable d₀ h disk)
    (hh : h'.committed = h.committed) : Durable d₀ h' disk := by
  refine { hd with contents := fun b hb => ?_ }
  rw [hd.contents b hb]
  unfold History.base
  rw [hh]

theorem Inv.initial (h₀ : d₀ logstart 0 = 0) : Inv d₀ History.empty (boot d₀) :=
  .of_recovering (Durable.initial h₀) rfl (Recovering.initial d₀ rfl)

/-- Every step keeps the invariant. -/
theorem Inv.step (hi : Inv d₀ h s) {l : Label} {s' : State} (hl : (Event.step l).Home)
    (hstep : Step s l s') : Inv d₀ (h.next (.step l)) s' := by
  have hd := hi.durable
  cases hstep with
  | crash => exact .of_recovering (hd.of_committed rfl) rfl (Recovering.initial _ rfl)
  | beginOp p hmode hp hidle hroom =>
    obtain ⟨stage, hr⟩ := hi.running hmode
    exact .of_running hd hmode ⟨_, hr.beginOp hp hidle⟩
  | bget p b bio hmode hp hbio =>
    obtain ⟨stage, hr⟩ := hi.running hmode
    have hbio' := Bio.bget_coherent hr.coherent hbio
    exact .of_running (hbio'.1 ▸ hd) hmode ⟨_, hr.useCache hbio'⟩
  | acquire p b bio hmode hp hbio =>
    obtain ⟨stage, hr⟩ := hi.running hmode
    have hbio' := Bio.acquire_coherent hr.coherent hbio
    exact .of_running (hbio'.1 ▸ hd) hmode ⟨_, hr.useCache hbio'⟩
  | brelse p b bio hmode hp hbio =>
    obtain ⟨stage, hr⟩ := hi.running hmode
    have hcold : ¬ Hot s p b := by
      intro hhot
      have hhot' : s.phase p = .logWrite b := hhot
      rw [hhot'] at hp
      exact hp
    have hbio' := Bio.brelse_coherent hr.coherent hcold hbio
    exact .of_running (hbio'.1 ▸ hd) hmode ⟨_, hr.useCache hbio'⟩
  | logWrite p b data hmode hp hheld hroom =>
    obtain ⟨stage, hr⟩ := hi.running hmode
    exact .of_running (hd.of_committed rfl) hmode ⟨_, hr.logWrite hp hheld hl data⟩
  | record p b hmode hp =>
    obtain ⟨stage, hr⟩ := hi.running hmode
    exact .of_running hd hmode ⟨_, hr.record hp⟩
  | endOp p hmode hp hlast =>
    obtain ⟨stage, hr⟩ := hi.running hmode
    exact .of_running hd hmode ⟨_, hr.endOp hp⟩
  | endLast p hmode hp hlast =>
    obtain ⟨stage, hr⟩ := hi.running hmode
    exact .of_running hd hmode ⟨_, hr.endLast hp hlast⟩
  | writeLog p tail b bio hmode hp hb hbio =>
    obtain ⟨stage, hr⟩ := hi.running hmode
    obtain ⟨hd', hr'⟩ := hr.writeLog hd hp hb hbio
    exact .of_running hd' hmode hr'
  | writeHead p bio hmode hp hbio =>
    obtain ⟨stage, hr⟩ := hi.running hmode
    obtain ⟨hd', hr'⟩ := hr.writeHead hp hbio
    exact .of_running hd' hmode hr'
  | installTrans p tail b bio hmode hp hb hbio =>
    obtain ⟨stage, hr⟩ := hi.running hmode
    obtain ⟨hd', hr'⟩ := hr.installTrans hd hp hb hbio
    exact .of_running hd' hmode hr'
  | clearHead p bio hmode hp hbio =>
    obtain ⟨stage, hr⟩ := hi.running hmode
    obtain ⟨hd', hr'⟩ := hr.clearHead hd hp hbio
    exact .of_running hd' hmode hr'
  | finish p hmode hp =>
    obtain ⟨stage, hr⟩ := hi.running hmode
    exact .of_running hd hmode ⟨_, hr.finish hp⟩
  | readHead bio bio' lh hmode hread hlh hbio =>
    obtain ⟨hdisk, hr⟩ := (hi.recovering _ hmode).readHead hd hread hlh hbio
    exact .of_recovering (hdisk ▸ hd) rfl (hr _)
  | recoverInstall tail b bio hmode hb hbio =>
    obtain ⟨hd', hr⟩ := (hi.recovering _ hmode).install hd hb hbio
    exact .of_recovering hd' rfl (hr _)
  | recoverClear bio hmode hbio =>
    obtain ⟨⟨hd', -⟩, hr⟩ := (hi.recovering _ hmode).finish hd hbio
    exact .of_running hd' rfl ⟨_, hr _⟩

theorem Inv.next (hi : Inv d₀ h s) {e : Event} {s' : State} (he : e.Home)
    (hnext : s.next e = some s') : Inv d₀ (h.next e) s' := by
  cases e with
  | step l => exact hi.step he (step_of_next hnext)
  | panic l =>
    obtain ⟨panic, -, rfl⟩ := panic_of_next hnext
    exact .of_panicked hi.durable rfl

/-- Every run keeps the invariant. -/
theorem inv_of_run (h₀ : d₀ logstart 0 = 0) {events : List Event}
    (hhome : ∀ e ∈ events, e.Home) (hrun : run State.next (boot d₀) events = some s) :
    Inv d₀ (history events) s := by
  have hstep : ∀ done s e s', Inv d₀ (history done) s → e.Home → State.next s e = some s' →
      Inv d₀ (history (done ++ [e])) s' := by
    intro done s e s' hi he hnext
    rw [history_concat]
    exact hi.next he hnext
  have halong : Along State.next (fun _ e => e.Home) (boot d₀) events :=
    (along_iff _ _).mpr fun done e rest _ hsplit _ => hhome e (by rw [hsplit]; simp)
  exact run_preserves_history hstep (Inv.initial h₀) halong hrun

/-- **Crash atomicity.** Start with an empty log. After any run, with crashes at any moment and
during recoveries, a recovery that completes leaves outside the log exactly the committed groups,
applied in order, and an empty log header. -/
theorem crash_atomic (d₀ : Disk) (h₀ : d₀ logstart 0 = 0) (events : List Event)
    (hhome : ∀ e ∈ events, e.Home) (s : State)
    (hrun : run State.next (boot d₀) (events ++ [.step .recoverClear]) = some s) :
    (∀ b, Outside b → s.bio.disk b = RedoLog.applyGroups d₀ (history events).committed b) ∧
      s.bio.disk logstart 0 = 0 := by
  obtain ⟨t, ht, hnext⟩ := run_concat.mp hrun
  have hi := inv_of_run h₀ hhome ht
  cases step_of_next hnext with
  | recoverClear bio hmode hbio =>
    obtain ⟨⟨hd, hempty, hzero⟩, -⟩ := (hi.recovering _ hmode).finish hi.durable hbio
    exact ⟨fun b hb => hd.eq_base hempty hb, hzero⟩

/-- Block 40 is changed and committed; the power fails after the header is written, and once more
during the recovery. -/
def crashTwice : List Event :=
  [.step .readHead, .step .recoverClear, .step (.beginOp 5), .step (.bget 5 40),
    .step (.acquire 5 40), .step (.logWrite 5 40 fun _ => 7), .step (.record 5 40),
    .step (.brelse 5 40), .step (.endOp 5), .step (.writeLog 5), .step (.writeHead 5),
    .step .crash, .step .readHead, .step .crash, .step .readHead, .step .recoverInstall]

theorem crash_atomic_crashTwice :
    ∃ s, run State.next (boot fun _ _ => 0) (crashTwice ++ [.step .recoverClear]) = some s ∧
      (s.bio.disk 40 = fun _ => 7) ∧ s.bio.disk logstart 0 = 0 := by
  have hsome : (run State.next (boot fun _ _ => 0)
      (crashTwice ++ [.step .recoverClear])).isSome = true := by decide +kernel
  obtain ⟨s, hs⟩ := Option.isSome_iff_exists.mp hsome
  have hhome : ∀ e ∈ crashTwice, e.Home := by
    unfold crashTwice
    simp [Event.Home]
    decide
  obtain ⟨hdisk, hheader⟩ := crash_atomic (fun _ _ => 0) rfl crashTwice hhome s hs
  exact ⟨s, hs, hdisk 40 (by decide), hheader⟩

end Xv6.Log
