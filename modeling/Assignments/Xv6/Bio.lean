import Assignments.Framework.Run

/-!
# The buffer cache of xv6

`bio.c` keeps the contents of `NBUF` disk blocks in memory. The model is the MRU list of the
buffers, most recently used first; `bget` looks for a block from its front and, if it is not there,
recycles from its back the first buffer that nobody uses and that is not dirty.

`Bcache` carries what never changes: there are `NBUF` buffers and no two are for one block. A
process that has called `bget` and not yet `brelse` is in `refs`, whose length is the `refcnt` of
the source; the one of them that has the sleep lock is `lock`. Taking the lock and, when the buffer
is not valid, reading the block is one step (`acquire`); every access to the disk is atomic.

`Bio.Coherent` says what the cache stands for: a block device with given contents, some of which
are not on the disk yet. Each operation keeps it (`bget_coherent`, `acquire_coherent`, ...), and
`length_lt_of_bget` is the limit that the number of buffers sets: a `bget` of a block that is not
dirty needs a buffer that is not dirty.
-/

namespace Xv6

/-- Max number of blocks a file system operation writes. -/
def MAXOPBLOCKS : ℕ := 10

/-- Max number of data blocks in the on-disk log. -/
def LOGSIZE : ℕ := MAXOPBLOCKS * 3

/-- Size of the disk block cache. -/
def NBUF : ℕ := MAXOPBLOCKS * 3

/-- Size of the file system in blocks. -/
def FSSIZE : ℕ := 1000

abbrev BlockNo : Type := ℕ

abbrev Pid : Type := ℕ

/-- The `BSIZE` = 512 bytes of a block, as `int`s. -/
abbrev Block : Type := Fin 128 → BitVec 32

abbrev Disk : Type := BlockNo → Block

/-- `struct buf`. The block number of a buffer that was never used is `none`: its `dev` is 0. -/
structure Buf where
  blockno : Option BlockNo
  valid : Bool
  dirty : Bool
  refs : List Pid
  lock : Option Pid
  data : Block

namespace Buf

/-- `bget` may recycle the buffer. -/
def Free (x : Buf) : Prop := x.refs = [] ∧ x.dirty = false

instance (x : Buf) : Decidable x.Free := inferInstanceAs (Decidable (_ ∧ _))

/-- The buffer as `bget` recycles it for block `b`; nobody has it, so its lock is free. -/
def recycled (x : Buf) (p : Pid) (b : BlockNo) : Buf :=
  { x with blockno := some b, valid := false, dirty := false, refs := [p], lock := none }

end Buf

/-! ### The list of buffers -/

/-- The buffers, the most recently used one first. -/
structure Bcache where
  bufs : List Buf
  length_eq : bufs.length = NBUF
  unique : (bufs.filterMap Buf.blockno).Nodup

namespace Bcache

def binit : Bcache where
  bufs := List.replicate NBUF ⟨none, false, false, [], none, fun _ => 0⟩
  length_eq := List.length_replicate
  unique := by
    rw [List.filterMap_replicate]
    exact List.nodup_nil

/-- The buffer of a block. -/
def get? (c : Bcache) (b : BlockNo) : Option Buf :=
  c.bufs.find? fun x => x.blockno = some b

/-- Changing the buffer of block `b`, but not which block it is for. -/
def update (c : Bcache) (b : BlockNo) (f : Buf → Buf) (hf : ∀ x, (f x).blockno = x.blockno) :
    Bcache where
  bufs := c.bufs.map fun x => if x.blockno = some b then f x else x
  length_eq := by rw [List.length_map, c.length_eq]
  unique := by
    have hsame : ∀ x, (if x.blockno = some b then f x else x).blockno = x.blockno := by
      intro x
      split_ifs
      · exact hf x
      · rfl
    rw [List.filterMap_map, show Buf.blockno ∘ _ = Buf.blockno from funext hsame]
    exact c.unique

theorem toFront_perm (bufs : List Buf) (b : BlockNo) :
    (bufs.filter (fun x => x.blockno = some b) ++
      bufs.filter (fun x => !decide (x.blockno = some b))).Perm bufs :=
  List.filter_append_perm _ bufs

/-- Moving the buffer of block `b` to the front of the list. -/
def toFront (c : Bcache) (b : BlockNo) : Bcache where
  bufs := c.bufs.filter (fun x => x.blockno = some b) ++
    c.bufs.filter (fun x => !decide (x.blockno = some b))
  length_eq := by rw [(toFront_perm c.bufs b).length_eq, c.length_eq]
  unique := ((toFront_perm c.bufs b).filterMap _).nodup_iff.mpr c.unique

/-- Recycling the last free buffer of the list for block `b`. -/
def recycleLast (p : Pid) (b : BlockNo) : List Buf → Option (List Buf)
  | [] => none
  | x :: xs =>
    match recycleLast p b xs with
    | some xs' => some (x :: xs')
    | none => if x.Free then some (x.recycled p b :: xs) else none

variable {b : BlockNo} {c : Bcache} {p : Pid} {x : Buf}

theorem recycleLast_eq_some {bufs bufs' : List Buf} (h : recycleLast p b bufs = some bufs') :
    ∃ front x back, bufs = front ++ x :: back ∧ x.Free ∧
      bufs' = front ++ x.recycled p b :: back := by
  induction bufs generalizing bufs' with
  | nil => exact absurd h (by simp [recycleLast])
  | cons x xs ih =>
    unfold recycleLast at h
    split at h
    · next xs' hxs =>
      obtain ⟨front, y, back, rfl, hfree, rfl⟩ := ih hxs
      exact ⟨x :: front, y, back, rfl, hfree, (Option.some.inj h).symm⟩
    · split_ifs at h with hfree
      exact ⟨[], x, xs, rfl, hfree, (Option.some.inj h).symm⟩

theorem mem_filterMap_blockno {bufs : List Buf} :
    b ∈ bufs.filterMap Buf.blockno ↔ ∃ x ∈ bufs, x.blockno = some b :=
  List.mem_filterMap

theorem get?_eq_none_iff : c.get? b = none ↔ ∀ x ∈ c.bufs, x.blockno ≠ some b := by
  unfold get?
  rw [List.find?_eq_none]
  simp

/-- The block of a buffer has no other one. -/
theorem blockno_ne_of_unique {front back : List Buf}
    (hunique : ((front ++ x :: back).filterMap Buf.blockno).Nodup) (hx : x.blockno = some b) :
    ∀ y ∈ front ++ back, y.blockno ≠ some b := by
  rw [List.filterMap_append, List.filterMap_cons_some hx, List.nodup_middle, List.nodup_cons,
    ← List.filterMap_append, mem_filterMap_blockno] at hunique
  exact fun y hy hyb => hunique.1 ⟨y, hy, hyb⟩

theorem recycleLast_unique {bufs bufs' : List Buf} (h : recycleLast p b bufs = some bufs')
    (hb : ∀ x ∈ bufs, x.blockno ≠ some b) (hunique : (bufs.filterMap Buf.blockno).Nodup) :
    (bufs'.filterMap Buf.blockno).Nodup := by
  obtain ⟨front, x, back, rfl, -, rfl⟩ := recycleLast_eq_some h
  -- the old block number of the recycled buffer, if it has one, is dropped
  have hsub : (front.filterMap Buf.blockno ++ back.filterMap Buf.blockno).Nodup := by
    refine hunique.sublist ?_
    rw [List.filterMap_append]
    exact (List.Sublist.refl _).append ((List.sublist_cons_self x back).filterMap _)
  have hnew : b ∉ front.filterMap Buf.blockno ++ back.filterMap Buf.blockno := by
    rw [← List.filterMap_append, mem_filterMap_blockno]
    rintro ⟨y, hy, hyb⟩
    refine hb y ?_ hyb
    rw [List.mem_append] at hy ⊢
    exact hy.imp_right (List.mem_cons_of_mem x)
  have hrecycled : (x.recycled p b).blockno = some b := rfl
  rw [List.filterMap_append, List.filterMap_cons_some hrecycled]
  exact List.nodup_middle.mpr (List.nodup_cons.mpr ⟨hnew, hsub⟩)

/-- Recycling a buffer for a block that has none. -/
def recycle (c : Bcache) (p : Pid) (b : BlockNo) (h : c.get? b = none) : Option Bcache :=
  match hbufs : recycleLast p b c.bufs with
  | none => none
  | some bufs => some {
      bufs := bufs
      length_eq := by
        obtain ⟨front, x, back, heq, -, rfl⟩ := recycleLast_eq_some hbufs
        rw [← c.length_eq, heq, List.length_append, List.length_append]
        rfl
      unique := recycleLast_unique hbufs (get?_eq_none_iff.mp h) c.unique }

/-! ### Which buffer a block has -/

theorem get?_eq_some_iff : c.get? b = some x ↔ x ∈ c.bufs ∧ x.blockno = some b := by
  unfold get?
  constructor
  · intro h
    exact ⟨List.mem_of_find?_eq_some h, by simpa using List.find?_some h⟩
  · rintro ⟨hx, hxb⟩
    cases hfind : c.bufs.find? fun x => x.blockno = some b with
    | none => exact absurd hxb (get?_eq_none_iff.mp hfind x hx)
    | some y =>
      have hyb : y.blockno = some b := by simpa using List.find?_some hfind
      obtain ⟨front, back, heq⟩ := List.append_of_mem (List.mem_of_find?_eq_some hfind)
      have hunique := blockno_ne_of_unique (heq ▸ c.unique) hyb
      rw [heq, List.mem_append, List.mem_cons] at hx
      rcases hx with hx | rfl | hx
      · exact absurd hxb (hunique x (List.mem_append_left _ hx))
      · rfl
      · exact absurd hxb (hunique x (List.mem_append_right _ hx))

theorem get?_blockno (h : c.get? b = some x) : x.blockno = some b :=
  (get?_eq_some_iff.mp h).2

@[simp] theorem get?_binit (b : BlockNo) : binit.get? b = none := by
  rw [get?_eq_none_iff]
  intro x hx
  rw [List.eq_of_mem_replicate hx]
  simp

theorem get?_update (c : Bcache) (b : BlockNo) (f : Buf → Buf)
    (hf : ∀ x, (f x).blockno = x.blockno) (b' : BlockNo) :
    (c.update b f hf).get? b' = if b' = b then (c.get? b').map f else c.get? b' := by
  have hsame : ∀ x : Buf, (if x.blockno = some b then f x else x).blockno = x.blockno := by
    intro x
    split_ifs
    · exact hf x
    · rfl
  have hmap : (c.update b f hf).get? b' =
      (c.get? b').map fun x => if x.blockno = some b then f x else x := by
    show (c.bufs.map _).find? _ = _
    rw [List.find?_map]
    congr 2
    funext x
    exact congrArg (fun o => decide (o = some b')) (hsame x)
  rw [hmap]
  cases hget : c.get? b' with
  | none => simp
  | some x =>
    rw [Option.map_some, get?_blockno hget]
    split_ifs with h₁ h₂ h₂
    · rfl
    · exact absurd (Option.some.inj h₁) h₂
    · exact absurd (congrArg some h₂) h₁
    · rfl

@[simp] theorem get?_toFront (c : Bcache) (b b' : BlockNo) : (c.toFront b).get? b' = c.get? b' := by
  ext x
  rw [get?_eq_some_iff, get?_eq_some_iff]
  exact and_congr_left fun _ => (toFront_perm c.bufs b).mem_iff

/-- Recycling gives the block a buffer, and takes a free one from at most one other block. -/
theorem get?_recycle {c c' : Bcache} {h : c.get? b = none} (hc : c.recycle p b h = some c') :
    ∃ x ∈ c.bufs, x.Free ∧ c'.get? b = some (x.recycled p b) ∧
      ∀ b' ≠ b, c'.get? b' = if x.blockno = some b' then none else c.get? b' := by
  unfold recycle at hc
  split at hc
  · exact absurd hc (by simp)
  · next bufs hbufs =>
    obtain ⟨front, x, back, heq, hfree, hnew⟩ := recycleLast_eq_some hbufs
    obtain rfl := Option.some.inj hc
    refine ⟨x, by rw [heq]; simp, hfree, ?_, ?_⟩
    · exact get?_eq_some_iff.mpr ⟨by simp [hnew], rfl⟩
    · intro b' hne
      ext y
      rw [get?_eq_some_iff]
      have hmem : y ∈ bufs ↔ y ∈ front ++ back ∨ y = x.recycled p b := by
        rw [hnew]
        simp only [List.mem_append, List.mem_cons]
        tauto
      have hmem' : y ∈ c.bufs ↔ y ∈ front ++ back ∨ y = x := by
        rw [heq]
        simp only [List.mem_append, List.mem_cons]
        tauto
      have hother : y.blockno = some b' → y ≠ x.recycled p b := by
        rintro hy rfl
        exact hne (Option.some.inj hy).symm
      split_ifs with hx
      · have hunique := blockno_ne_of_unique (heq ▸ c.unique) hx
        refine iff_of_false (fun hy => ?_) (by simp)
        rcases hmem.mp hy.1 with hy' | hy'
        · exact hunique y hy' hy.2
        · exact hother hy.2 hy'
      · rw [get?_eq_some_iff]
        refine and_congr_left fun hy => ?_
        have hyx : y ≠ x := fun heq => hx (heq ▸ hy)
        rw [show y ∈ bufs ↔ _ from hmem, hmem', or_iff_left (hother hy), or_iff_left hyx]

end Bcache

/-! ### The operations -/

/-- The panics of the buffer cache and the disk driver. -/
inductive BioPanic where
  | noBuffers
  | incorrectBlockno
  | bwrite
  | brelse
  deriving DecidableEq, Repr

/-- Why a routine does not go on. -/
inductive Stop where
  /-- It waits for another process. -/
  | blocked
  | panic (panic : BioPanic)
  deriving DecidableEq, Repr

/-- The disk and the buffer cache in front of it. -/
structure Bio where
  disk : Disk
  cache : Bcache

namespace Bio

/-- The process that holds the sleep lock of the buffer of `b`. -/
def holder (s : Bio) (b : BlockNo) : Option Pid := (s.cache.get? b).bind Buf.lock

/-- `b->data`. -/
def data (s : Bio) (b : BlockNo) : Block :=
  match s.cache.get? b with
  | some x => x.data
  | none => fun _ => 0

/-- The part of `bget` under `bcache.lock`. -/
def bget (s : Bio) (p : Pid) (b : BlockNo) : Except Stop Bio :=
  match h : s.cache.get? b with
  | some _ => .ok { s with
      cache := s.cache.update b (fun x => { x with refs := p :: x.refs }) fun _ => rfl }
  | none =>
    match s.cache.recycle p b h with
    | some cache => .ok { s with cache := cache }
    | none => .error (.panic .noBuffers)

/-- `acquiresleep`, and the `iderw` of `bread` when the buffer is not valid. -/
def acquire (s : Bio) (p : Pid) (b : BlockNo) : Except Stop Bio :=
  match s.cache.get? b with
  | none => .error .blocked
  | some x =>
    if p ∈ x.refs ∧ x.lock = none then
      if x.valid then
        .ok { s with cache := s.cache.update b (fun x => { x with lock := some p }) fun _ => rfl }
      else if FSSIZE ≤ b then .error (.panic .incorrectBlockno)
      else .ok { s with
        cache := s.cache.update b
          (fun x => { x with lock := some p, valid := true, data := s.disk b }) fun _ => rfl }
    else .error .blocked

def bread (s : Bio) (p : Pid) (b : BlockNo) : Except Stop Bio := do
  let s ← s.bget p b
  s.acquire p b

/-- The holder of the buffer changes `b->data`. -/
def setData (s : Bio) (b : BlockNo) (data : Block) : Bio :=
  { s with cache := s.cache.update b (fun x => { x with data := data }) fun _ => rfl }

/-- `b->flags |= B_DIRTY`. -/
def setDirty (s : Bio) (b : BlockNo) : Bio :=
  { s with cache := s.cache.update b (fun x => { x with dirty := true }) fun _ => rfl }

def bwrite (s : Bio) (p : Pid) (b : BlockNo) : Except Stop Bio :=
  if s.holder b = some p then
    .ok {
      disk := Function.update s.disk b (s.data b)
      cache := s.cache.update b (fun x => { x with valid := true, dirty := false }) fun _ => rfl }
  else .error (.panic .bwrite)

/-- Giving up the lock and the reference. -/
def unref (c : Bcache) (p : Pid) (b : BlockNo) : Bcache :=
  c.update b (fun x => { x with lock := none, refs := x.refs.erase p }) fun _ => rfl

def brelse (s : Bio) (p : Pid) (b : BlockNo) : Except Stop Bio :=
  if s.holder b = some p then
    -- the buffer moves to the front when its last reference goes
    match (unref s.cache p b).get? b with
    | some x =>
      .ok { s with
        cache := if x.refs = [] then (unref s.cache p b).toFront b else unref s.cache p b }
    | none => .error (.panic .brelse)
  else .error (.panic .brelse)

/-! ### What the cache stands for -/

/-- A buffer `x` of block `b`, whose contents are `content`. These are not on the disk yet when the
block is pinned (`P`), as the log does with dirty buffers, or hot (`H`), that is, just changed by a
process that still holds the buffer. -/
structure Backs (x : Buf) (b : BlockNo) (content disk : Block) (P : Prop) (H : Pid → Prop) :
    Prop where
  data : x.valid = true → x.data = content ∧ b < FSSIZE
  dirty : x.dirty = true → P
  pinned : P → x.valid = true ∧ x.dirty = true
  locked : ∀ p, x.lock = some p → p ∈ x.refs ∧ x.valid = true
  held : ∀ p, H p → x.lock = some p
  clean : ¬ P → (∀ p, ¬ H p) → content = disk

/-- What holds of a block with the buffer `o`, or with none. -/
def Entry (b : BlockNo) (o : Option Buf) (content disk : Block) (P : Prop) (H : Pid → Prop) :
    Prop :=
  match o with
  | some x => Backs x b content disk P H
  | none => content = disk ∧ ¬ P ∧ ∀ p, ¬ H p

/-- The cache and the disk stand for a block device with contents `content`. -/
def Coherent (s : Bio) (content : BlockNo → Block) (pinned : BlockNo → Prop)
    (hot : Pid → BlockNo → Prop) : Prop :=
  ∀ b, Entry b (s.cache.get? b) (content b) (s.disk b) (pinned b) fun p => hot p b

variable {s s' : Bio} {content : BlockNo → Block} {pinned : BlockNo → Prop}
  {hot : Pid → BlockNo → Prop} {p : Pid} {b : BlockNo} {x : Buf}

theorem holder_eq_some_iff : s.holder b = some p ↔ ∃ x, s.cache.get? b = some x ∧ x.lock = some p :=
  Option.bind_eq_some_iff

/-- The holders after a change of one buffer. -/
theorem holder_update (disk : Disk) (b : BlockNo) (f : Buf → Buf)
    (hf : ∀ x, (f x).blockno = x.blockno) (b' : BlockNo) :
    (Bio.mk disk (s.cache.update b f hf)).holder b' =
      if b' = b then (s.cache.get? b').bind fun x => (f x).lock else s.holder b' := by
  show ((s.cache.update b f hf).get? b').bind Buf.lock = _
  rw [Bcache.get?_update]
  split_ifs
  · cases s.cache.get? b' with
    | none => rfl
    | some x => rfl
  · rfl

theorem data_of_get? (h : s.cache.get? b = some x) : s.data b = x.data := by
  unfold data
  rw [h]

/-- A fresh cache. -/
theorem Coherent.initial (disk : Disk) :
    Coherent ⟨disk, Bcache.binit⟩ disk (fun _ => False) fun _ _ => False := by
  intro b
  rw [Bcache.get?_binit]
  exact ⟨rfl, id, fun _ => id⟩

section

variable (h : s.Coherent content pinned hot)

include h

theorem Coherent.congr {content' : BlockNo → Block} {pinned' : BlockNo → Prop}
    {hot' : Pid → BlockNo → Prop} (hcontent : ∀ b, content' b = content b)
    (hpinned : ∀ b, pinned' b ↔ pinned b) (hhot : ∀ p b, hot' p b ↔ hot p b) :
    s.Coherent content' pinned' hot' := by
  intro b
  rw [hcontent b, propext (hpinned b),
    show (fun p => hot' p b) = fun p => hot p b from funext fun p => propext (hhot p b)]
  exact h b

theorem Coherent.backs (hx : s.cache.get? b = some x) :
    Backs x b (content b) (s.disk b) (pinned b) fun p => hot p b := by
  have hb := h b
  rw [hx] at hb
  exact hb

/-- The holder of a buffer reads the contents. -/
theorem Coherent.data_eq (hp : s.holder b = some p) : s.data b = content b := by
  obtain ⟨x, hx, hlock⟩ := holder_eq_some_iff.mp hp
  rw [data_of_get? hx]
  exact ((h.backs hx).data ((h.backs hx).locked p hlock).2).1

theorem Coherent.holder_of_hot (hp : hot p b) : s.holder b = some p := by
  cases hx : s.cache.get? b with
  | none =>
    have hb := h b
    rw [hx] at hb
    exact absurd hp (hb.2.2 p)
  | some x => exact holder_eq_some_iff.mpr ⟨x, hx, (h.backs hx).held p hp⟩

/-- A change of the buffer of one block, and perhaps of the block on the disk. -/
theorem Coherent.update (hx : s.cache.get? b = some x) {f : Buf → Buf}
    {hf : ∀ x, (f x).blockno = x.blockno} {disk : Disk} {content' : BlockNo → Block}
    {pinned' : BlockNo → Prop} {hot' : Pid → BlockNo → Prop}
    (hb : Backs (f x) b (content' b) (disk b) (pinned' b) fun p => hot' p b)
    (hcontent : ∀ b' ≠ b, content' b' = content b') (hdisk : ∀ b' ≠ b, disk b' = s.disk b')
    (hpinned : ∀ b' ≠ b, (pinned' b' ↔ pinned b')) (hhot : ∀ b' ≠ b, ∀ p, (hot' p b' ↔ hot p b')) :
    Coherent ⟨disk, s.cache.update b f hf⟩ content' pinned' hot' := by
  intro b'
  show Entry b' ((s.cache.update b f hf).get? b') _ (disk b') _ _
  rw [Bcache.get?_update]
  split_ifs with heq
  · rw [heq, hx]
    exact hb
  · rw [hcontent b' heq, hdisk b' heq, propext (hpinned b' heq),
      show (fun p => hot' p b') = fun p => hot p b' from funext fun p => propext (hhot b' heq p)]
    exact h b'

/-- A change of one buffer that leaves the contents as they are. -/
theorem Coherent.update_same (hx : s.cache.get? b = some x) {f : Buf → Buf}
    {hf : ∀ x, (f x).blockno = x.blockno}
    (hb : Backs (f x) b (content b) (s.disk b) (pinned b) fun p => hot p b) :
    Coherent { s with cache := s.cache.update b f hf } content pinned hot :=
  h.update hx hb (fun _ _ => rfl) (fun _ _ => rfl) (fun _ _ => Iff.rfl) fun _ _ _ => Iff.rfl

end

/-! ### `bget` -/

/-- Nothing is known only to a buffer that can be recycled. -/
theorem Backs.evict {y disk : Block} {P : Prop} {H : Pid → Prop} (h : Backs x b y disk P H)
    (hfree : x.Free) : y = disk ∧ ¬ P ∧ ∀ p, ¬ H p := by
  have hpinned : ¬ P := by
    intro hP
    have hdirty := (h.pinned hP).2
    rw [hfree.2] at hdirty
    exact absurd hdirty (by simp)
  have hhot : ∀ q, ¬ H q := by
    intro q hq
    have hmem := (h.locked q (h.held q hq)).1
    rw [hfree.1] at hmem
    exact absurd hmem List.not_mem_nil
  exact ⟨h.clean hpinned hhot, hpinned, hhot⟩

section

variable (h : s.Coherent content pinned hot)

include h

theorem bget_coherent (hs : s.bget p b = .ok s') :
    s'.disk = s.disk ∧ s'.Coherent content pinned hot := by
  unfold bget at hs
  split at hs
  · next x hx =>
    obtain rfl := Except.ok.inj hs
    have hb := h.backs hx
    refine ⟨rfl, h.update_same hx { hb with locked := fun q hq => ?_ }⟩
    exact ⟨List.mem_cons_of_mem p (hb.locked q hq).1, (hb.locked q hq).2⟩
  · next hnone =>
    split at hs
    · next cache hcache =>
      obtain rfl := Except.ok.inj hs
      obtain ⟨x, hx, hfree, hnew, hother⟩ := Bcache.get?_recycle hcache
      refine ⟨rfl, fun b' => ?_⟩
      show Entry b' (cache.get? b') _ _ _ _
      by_cases heq : b' = b
      · -- the block had no buffer, so it is on the disk, and the new buffer knows nothing
        subst heq
        have hb := h b'
        rw [hnone] at hb
        rw [hnew]
        exact ⟨fun hv => absurd hv (by simp [Buf.recycled]),
          fun hd => absurd hd (by simp [Buf.recycled]),
          fun hP => absurd hP hb.2.1, fun q hq => absurd hq (by simp [Buf.recycled]),
          fun q hq => absurd hq (hb.2.2 q), fun _ _ => hb.1⟩
      · rw [hother b' heq]
        split_ifs with hxb
        · exact (h.backs (Bcache.get?_eq_some_iff.mpr ⟨hx, hxb⟩)).evict hfree
        · exact h b'
    · exact absurd hs (by simp)

/-- The holders of the other buffers keep them. -/
theorem bget_holder (hs : s.bget p b = .ok s') {q : Pid} {b' : BlockNo}
    (hq : s.holder b' = some q) : s'.holder b' = some q := by
  obtain ⟨y, hy, hlock⟩ := holder_eq_some_iff.mp hq
  unfold bget at hs
  split at hs
  · next x hx =>
    obtain rfl := Except.ok.inj hs
    rw [holder_update]
    split_ifs
    · rw [hy]
      exact hlock
    · exact hq
  · next hnone =>
    split at hs
    · next cache hcache =>
      obtain rfl := Except.ok.inj hs
      obtain ⟨x, hx, hfree, hnew, hother⟩ := Bcache.get?_recycle hcache
      have hne : b' ≠ b := by
        rintro rfl
        rw [hnone] at hy
        exact absurd hy (by simp)
      -- a buffer that is held is not free
      have hxb : x.blockno ≠ some b' := by
        intro hxb
        have hxy : x = y := by
          rw [Bcache.get?_eq_some_iff.mpr ⟨hx, hxb⟩] at hy
          exact Option.some.inj hy
        have hmem := ((h.backs hy).locked q hlock).1
        rw [← hxy, hfree.1] at hmem
        exact absurd hmem List.not_mem_nil
      refine holder_eq_some_iff.mpr ⟨y, ?_, hlock⟩
      show cache.get? b' = some y
      rw [hother b' hne, if_neg hxb]
      exact hy
    · exact absurd hs (by simp)

theorem Coherent.present (hb : pinned b) :
    ∃ x, s.cache.get? b = some x ∧ x.valid = true ∧ x.dirty = true := by
  cases hx : s.cache.get? b with
  | none =>
    have hentry := h b
    rw [hx] at hentry
    exact absurd hb hentry.2.1
  | some x => exact ⟨x, rfl, (h.backs hx).pinned hb⟩

theorem Coherent.clean (hpinned : ¬ pinned b) (hhot : ∀ p, ¬ hot p b) : content b = s.disk b := by
  cases hx : s.cache.get? b with
  | none =>
    have hentry := h b
    rw [hx] at hentry
    exact hentry.1
  | some x => exact (h.backs hx).clean hpinned hhot

/-- **The cache is never full of pinned blocks** when `bget` finds a buffer for another one. -/
theorem length_lt_of_bget (hs : s.bget p b = .ok s') (hb : ¬ pinned b) {bs : List BlockNo}
    (hnodup : bs.Nodup) (hbs : ∀ b ∈ bs, pinned b) : bs.length < NBUF := by
  -- a buffer that is not dirty
  have hclean : ∃ y ∈ s.cache.bufs, ¬ y.dirty = true := by
    unfold bget at hs
    split at hs
    · next x hx =>
      exact ⟨x, (Bcache.get?_eq_some_iff.mp hx).1, fun hd => hb ((h.backs hx).dirty hd)⟩
    · next hnone =>
      split at hs
      · next cache hcache =>
        obtain ⟨x, hx, hfree, -⟩ := Bcache.get?_recycle hcache
        exact ⟨x, hx, by rw [hfree.2]; simp⟩
      · exact absurd hs (by simp)
  have hsub : bs.map some ⊆ (s.cache.bufs.filter Buf.dirty).map Buf.blockno := by
    intro o ho
    obtain ⟨b', hb', rfl⟩ := List.mem_map.mp ho
    obtain ⟨x, hx, -, hdirty⟩ := h.present (hbs b' hb')
    obtain ⟨hmem, hblock⟩ := Bcache.get?_eq_some_iff.mp hx
    exact List.mem_map.mpr ⟨x, List.mem_filter.mpr ⟨hmem, hdirty⟩, hblock⟩
  have hmap : (bs.map some).Nodup := hnodup.map fun _ _ => Option.some.inj
  calc bs.length = (bs.map some).length := (List.length_map _).symm
    _ ≤ ((s.cache.bufs.filter Buf.dirty).map Buf.blockno).length := (hmap.subperm hsub).length_le
    _ = (s.cache.bufs.filter Buf.dirty).length := List.length_map _
    _ < s.cache.bufs.length := List.length_filter_lt_length_iff_exists.mpr hclean
    _ = NBUF := s.cache.length_eq

/-! ### `acquiresleep` and the read -/

theorem acquire_coherent (hs : s.acquire p b = .ok s') :
    s'.disk = s.disk ∧ s'.Coherent content pinned hot := by
  unfold acquire at hs
  split at hs
  · exact absurd hs (by simp)
  · next x hx =>
    have hb := h.backs hx
    split_ifs at hs with hfree hvalid hsize
    · obtain rfl := Except.ok.inj hs
      refine ⟨rfl, h.update_same hx { hb with locked := fun q hq => ?_, held := fun q hq => ?_ }⟩
      · exact Option.some.inj hq ▸ ⟨hfree.1, hvalid⟩
      · exact absurd (hb.held q hq) (by rw [hfree.2]; simp)
    · -- a buffer that is not valid is neither pinned nor hot, so the block is on the disk
      obtain rfl := Except.ok.inj hs
      have hpinned : ¬ pinned b := fun hP => hvalid (hb.pinned hP).1
      have hhot : ∀ q, ¬ hot q b := fun q hq => absurd (hb.held q hq) (by rw [hfree.2]; simp)
      have hdisk := hb.clean hpinned hhot
      refine ⟨rfl, h.update_same hx ⟨fun _ => ⟨hdisk.symm, Nat.lt_of_not_le hsize⟩, hb.dirty,
        fun hP => absurd hP hpinned, fun q hq => ?_, fun q hq => absurd hq (hhot q), hb.clean⟩⟩
      exact Option.some.inj hq ▸ ⟨hfree.1, rfl⟩

end

theorem acquire_holder (hs : s.acquire p b = .ok s') (b' : BlockNo) :
    s'.holder b' = if b' = b then some p else s.holder b' := by
  unfold acquire at hs
  split at hs
  · exact absurd hs (by simp)
  · next x hx =>
    split_ifs at hs with hfree hvalid hsize
    · obtain rfl := Except.ok.inj hs
      rw [holder_update]
      split_ifs with heq
      · rw [heq, hx]
        rfl
      · rfl
    · obtain rfl := Except.ok.inj hs
      rw [holder_update]
      split_ifs with heq
      · rw [heq, hx]
        rfl
      · rfl

/-- A lock is taken only when nobody holds it. -/
theorem holder_of_acquire (hs : s.acquire p b = .ok s') : s.holder b = none := by
  unfold acquire at hs
  split at hs
  · exact absurd hs (by simp)
  · next x hx =>
    split_ifs at hs with hfree
    all_goals
      unfold holder
      rw [hx]
      exact hfree.2

variable (h : s.Coherent content pinned hot)

include h

theorem bread_coherent (hs : s.bread p b = .ok s') :
    s'.disk = s.disk ∧ s'.Coherent content pinned hot := by
  obtain ⟨t, ht, hs⟩ := Framework.except_bind_eq_ok.mp hs
  obtain ⟨hdisk, hcoh⟩ := bget_coherent h ht
  obtain ⟨hdisk', hcoh'⟩ := acquire_coherent hcoh hs
  exact ⟨hdisk'.trans hdisk, hcoh'⟩

theorem bread_holder (hs : s.bread p b = .ok s') :
    s'.holder b = some p ∧ ∀ b' q, s.holder b' = some q → b' ≠ b ∧ s'.holder b' = some q := by
  obtain ⟨t, ht, hs⟩ := Framework.except_bind_eq_ok.mp hs
  refine ⟨by rw [acquire_holder hs, if_pos rfl], fun b' q hq => ?_⟩
  have hq' := bget_holder h ht hq
  have hne : b' ≠ b := by
    rintro rfl
    rw [holder_of_acquire hs] at hq'
    exact absurd hq' (by simp)
  exact ⟨hne, by rw [acquire_holder hs, if_neg hne, hq']⟩

/-! ### Writing a buffer -/

/-- The process that holds a buffer changes it: the block is hot. -/
theorem setData_coherent (hp : s.holder b = some p) (data : Block) :
    (s.setData b data).Coherent (Function.update content b data) pinned
      fun q b' => hot q b' ∨ q = p ∧ b' = b := by
  obtain ⟨x, hx, hlock⟩ := holder_eq_some_iff.mp hp
  have hb := h.backs hx
  refine h.update hx ⟨fun hv => ?_, hb.dirty, hb.pinned, hb.locked, ?_, ?_⟩ ?_ (fun _ _ => rfl)
    (fun _ _ => Iff.rfl) ?_
  · rw [Function.update_self]
    exact ⟨rfl, (hb.data hv).2⟩
  · rintro q (hq | ⟨rfl, -⟩)
    · exact hb.held q hq
    · exact hlock
  · intro _ hnone
    exact absurd (Or.inr ⟨rfl, rfl⟩) (hnone p)
  · intro b' hne
    exact Function.update_of_ne hne _ _
  · intro b' hne q
    simp [hne]

/-- `log_write` pins a hot block. -/
theorem setDirty_coherent (hp : s.holder b = some p) {hot' : Pid → BlockNo → Prop}
    (hhot : ∀ q, hot' q b → hot q b) (hother : ∀ b' ≠ b, ∀ q, (hot' q b' ↔ hot q b')) :
    (s.setDirty b).Coherent content (fun b' => pinned b' ∨ b' = b) hot' := by
  obtain ⟨x, hx, hlock⟩ := holder_eq_some_iff.mp hp
  have hb := h.backs hx
  refine h.update hx ⟨hb.data, fun _ => Or.inr rfl,
    fun _ => ⟨(hb.locked p hlock).2, rfl⟩, hb.locked,
    fun q hq => hb.held q (hhot q hq), fun hP => absurd (Or.inr rfl) hP⟩ (fun _ _ => rfl)
    (fun _ _ => rfl) ?_ hother
  intro b' hne
  simp [hne]

theorem bwrite_coherent (hs : s.bwrite p b = .ok s') {hot' : Pid → BlockNo → Prop}
    (hhot : ∀ q, hot' q b → hot q b) (hother : ∀ b' ≠ b, ∀ q, (hot' q b' ↔ hot q b')) :
    s'.disk = Function.update s.disk b (content b) ∧
      s'.Coherent content (fun b' => pinned b' ∧ b' ≠ b) hot' := by
  unfold bwrite at hs
  split_ifs at hs with hp
  obtain rfl := Except.ok.inj hs
  obtain ⟨x, hx, hlock⟩ := holder_eq_some_iff.mp hp
  have hb := h.backs hx
  rw [h.data_eq hp]
  refine ⟨rfl, h.update hx ⟨?_, ?_, ?_, ?_, ?_, ?_⟩ (fun _ _ => rfl) ?_ ?_ hother⟩
  · exact fun _ => hb.data (hb.locked p hlock).2
  · exact fun hd => absurd hd (by simp)
  · exact fun hP => absurd rfl hP.2
  · exact fun q hq => ⟨(hb.locked q hq).1, rfl⟩
  · exact fun q hq => hb.held q (hhot q hq)
  · intro _ _
    rw [Function.update_self]
  · intro b' hne
    exact Function.update_of_ne hne _ _
  · intro b' hne
    simp [hne]

/-! ### `brelse` -/

theorem toFront_coherent (b : BlockNo) :
    Coherent { s with cache := s.cache.toFront b } content pinned hot := by
  intro b'
  rw [Bcache.get?_toFront]
  exact h b'

theorem brelse_coherent (hp : ¬ hot p b) (hs : s.brelse p b = .ok s') :
    s'.disk = s.disk ∧ s'.Coherent content pinned hot := by
  unfold brelse at hs
  split_ifs at hs with hholder
  obtain ⟨x, hx, hlock⟩ := holder_eq_some_iff.mp hholder
  have hb := h.backs hx
  have hunref : Coherent { s with cache := unref s.cache p b } content pinned hot := by
    refine h.update_same hx { hb with
      locked := fun q hq => absurd hq (by simp), held := fun q hq => ?_ }
    -- the process that gives up the buffer has not left a change in it
    have hqp : some q = some p := (hb.held q hq).symm.trans hlock
    exact absurd (Option.some.inj hqp ▸ hq) hp
  split at hs
  · next y hy =>
    obtain rfl := Except.ok.inj hs
    split_ifs
    · exact ⟨rfl, toFront_coherent hunref b⟩
    · exact ⟨rfl, hunref⟩
  · exact absurd hs (by simp)

end Bio

end Xv6
