import Assignments.Xv6.Directories

/-!
# Runs of the inode layer

The operations on inodes, one after another and in any order, on any image. An operation may be
called when its caller has what it needs (`State.Allowed`): a reference to an inode that it gives
back or duplicates, and the lock of an inode that it reads, writes or truncates.

* `State.blocks_owned` — every block is owned by at most one inode, whatever is done to the inodes,
  and no free block is freed;
* `State.released_written` — whenever a lock is released, the inode in memory is the one on the
  disk, and no inode has a hole; `released_overwritten` is an image without holes on which this
  fails, because the blocks are not owned: a file has a block of inodes as its own.
-/

namespace Xv6.OnDisk

open Framework

inductive Op where
  | iget (inum : ℕ)
  | idup (ip : Ip)
  | ialloc (type : BitVec 16)
  | ilock (ip : Ip)
  | iunlock (ip : Ip)
  | iput (ip : Ip)
  | readi (ip : Ip) (off n : ℕ)
  | writei (ip : Ip) (off : ℕ) (src : List Byte)
  | itrunc (ip : Ip)
  | dirlink (dp : Ip) (name : List Byte) (inum : ℕ)
  | create (cwd : Ip) (path : List Byte) (type major minor : BitVec 16)
  | link (cwd : Ip) (old new : List Byte)
  | unlink (cwd : Ip) (path : List Byte)

namespace State

/-- The state after mounting an image: no inode is in memory. -/
def boot (img : Image) : State := ⟨img, fun _ => ⟨0, 0, false, false, emptyDinode 0⟩, []⟩

/-- The caller has the reference or the lock that the operation needs. -/
def Allowed (s : State) : Op → Prop
  | .iget _ | .ialloc _ | .ilock _ | .iunlock _ => True
  | .idup ip | .iput ip => 0 < (s.icache ip).ref
  | .readi ip _ _ | .writei ip _ _ | .itrunc ip | .dirlink ip _ _ => (s.icache ip).locked = true
  | .create cwd _ _ _ _ | .link cwd _ _ | .unlink cwd _ => 0 < (s.icache cwd).ref

instance (s : State) (op : Op) : Decidable (s.Allowed op) := by
  cases op <;> unfold Allowed <;> infer_instance

def exec (s : State) : Op → Except Stop State
  | .iget inum => Prod.fst <$> OnDisk.iget s inum
  | .idup ip => .ok (OnDisk.idup s ip)
  | .ialloc type => Prod.fst <$> OnDisk.ialloc s type
  | .ilock ip => OnDisk.ilock s ip
  | .iunlock ip => OnDisk.iunlock s ip
  | .iput ip => OnDisk.iput s ip
  | .readi ip off n => Prod.fst <$> s.readi ip off n
  | .writei ip off src => Prod.fst <$> s.writei ip off src
  | .itrunc ip => Prod.fst <$> s.itrunc ip
  | .dirlink dp name inum => Prod.fst <$> OnDisk.dirlink s dp name inum
  | .create cwd path type major minor => Prod.fst <$> OnDisk.create s cwd path type major minor
  | .link cwd old new => Prod.fst <$> sysLink s cwd old new
  | .unlink cwd path => Prod.fst <$> sysUnlink s cwd path

/-- One operation; there is no next state after a panic. -/
def next (s : State) (op : Op) : Option State :=
  if s.Allowed op then (s.exec op).toOption else none

end State

/-! ### Every operation keeps the invariant -/

variable {s s' : State} {op : Op} {ip : Ip} {img : Image}

/-- Nothing is held when an image has just been mounted. -/
theorem holds_boot (h : Consistent img) : Holds (State.boot img) 0 ∅ where
  sound :=
    { consistent := h
      unique := fun _ _ hk => absurd hk (Int.lt_irrefl 0)
      synced := fun _ hk => absurd hk (Int.lt_irrefl 0)
      locked := fun _ hk => absurd hk Bool.false_ne_true
      released := fun _ hr => absurd hr List.not_mem_nil }
  ref _ := Int.le_refl 0
  lock _ hk := absurd hk (Finset.notMem_empty _)

namespace Holds

variable {refs : Multiset Ip} {locks : Finset Ip}

/-- Between two operations no more is known than that the references are not negative. -/
theorem forget (h : Holds s refs locks) : Holds s 0 ∅ where
  sound := h.sound
  ref k := Int.le_trans (Int.natCast_nonneg _) (h.ref k)
  lock _ hk := absurd hk (Finset.notMem_empty _)

theorem of_ref (h : Holds s 0 ∅) (hpos : 0 < (s.icache ip).ref) : Holds s {ip} ∅ where
  sound := h.sound
  ref k := by
    rw [Multiset.count_singleton]
    split
    next hk => exact hk ▸ hpos
    next => exact h.ref k
  lock := h.lock

theorem of_lock (h : Holds s refs ∅) (hlock : (s.icache ip).locked = true) : Holds s refs {ip} where
  sound := h.sound
  ref := h.ref
  lock k hk := by
    rw [Finset.mem_singleton.mp hk]
    exact hlock

/-- **Each operation** keeps the invariant, and does not free a free block. -/
theorem exec (h : Holds s 0 ∅) (hop : s.Allowed op) :
    Ensures Fine (s.exec op) fun s' => Holds s' 0 ∅ := by
  cases op with
  | iget inum => exact ((iget_spec h inum).mono fun _ hr => hr.forget).map
  | idup ip => exact Ensures.ok (h.incref hop).forget
  | ialloc type => exact ((ialloc_spec h type).mono fun _ hr => hr.forget).map
  | ilock ip => exact (ilock_spec h ip).mono fun _ hr => hr.2.forget
  | iunlock ip => exact (iunlock_spec h ip).mono fun _ hr => hr.forget
  | iput ip => exact iput_spec (h.of_ref hop)
  | readi ip off n =>
    have hlock := h.of_lock hop
    exact ((State.readi_spec hlock (Finset.mem_singleton_self ip) off n).mono
      fun _ hr => hr.forget).map
  | writei ip off src =>
    have hlock := h.of_lock hop
    exact ((State.writei_spec hlock (Finset.mem_singleton_self ip) off src).mono
      fun _ hr => hr.forget).map
  | itrunc ip =>
    have hlock := h.of_lock hop
    exact ((State.itrunc_spec hlock (Finset.mem_singleton_self ip)).mono fun _ hr => hr.forget).map
  | dirlink dp name inum =>
    have hlock := h.of_lock hop
    exact ((dirlink_spec hlock (Finset.mem_singleton_self dp) name inum).mono
      fun _ hr => hr.forget).map
  | create cwd path type major minor =>
    have href := h.of_ref hop
    exact ((create_spec href (Multiset.mem_singleton_self cwd) path type major minor).mono
      fun _ hr => hr.forget).map
  | link cwd old new =>
    have href := h.of_ref hop
    exact ((sysLink_spec href (Multiset.mem_singleton_self cwd) old new).mono
      fun _ hr => hr.forget).map
  | unlink cwd path =>
    have href := h.of_ref hop
    exact ((sysUnlink_spec href (Multiset.mem_singleton_self cwd) path).mono
      fun _ hr => hr.forget).map

theorem next (h : Holds s 0 ∅) (hstep : s.next op = some s') : Holds s' 0 ∅ := by
  unfold State.next at hstep
  split at hstep
  next hop =>
    cases hexec : s.exec op with
    | ok t =>
      rw [hexec] at hstep
      cases hstep
      exact (h.exec hop).of_eq_ok hexec
    | error e =>
      rw [hexec] at hstep
      cases hstep
  next => cases hstep

/-- The invariant holds in every run. -/
theorem of_run (h : Consistent img) {ops : List Op}
    (hrun : run State.next (State.boot img) ops = some s) : Holds s 0 ∅ := by
  have hpreserved : ∀ (s : State) op s', Holds s 0 ∅ → True → s.next op = some s' → Holds s' 0 ∅ :=
    fun _ _ _ h _ hstep => h.next hstep
  exact run_preserves hpreserved (holds_boot h) (along_true _ ops) hrun

end Holds

/-! ### Block ownership -/

/-- A block returned by `balloc` was free, and is zero-filled. -/
theorem balloc_free {img' : Image} {b : ℕ} (h : balloc img = .ok (img', b)) :
    img.bit b = false ∧ img' b = fun _ => 0 := by
  unfold balloc at h
  split at h
  next c hfind =>
    cases h
    have hfree := List.find?_some hfind
    exact ⟨by simpa using hfree, Function.update_self ..⟩
  next => cases h

/-- **Disk block ownership.** On any image whose blocks are owned and whose inodes have no holes,
after any operations on inodes each block is referenced from at most one place, and marked iff it is
referenced; the blocks of metadata are marked. A block that `balloc` returns was free and is
zero-filled, and no operation ends in the panic of `bfree`. -/
theorem State.blocks_owned (howned : Owned img img.dinode)
    (hholes : ∀ i, (img.dinode i).type ≠ 0 → NoHole img (img.dinode i)) {ops : List Op}
    (hrun : run State.next (State.boot img) ops = some s) :
    Owned s.img s.img.dinode ∧
      (∀ op, s.Allowed op → s.exec op ≠ .error .freeingFreeBlock) ∧
      ∀ img img' b, balloc img = .ok (img', b) → img.bit b = false ∧ img' b = fun _ => 0 := by
  have hholds := Holds.of_run ⟨howned, hholes⟩ hrun
  refine ⟨hholds.sound.consistent.owned, ?_, fun _ _ _ => balloc_free⟩
  intro op hop hpanic
  exact (hholds.exec hop).of_eq_error hpanic rfl

/-! ### An empty disk -/

/-- A disk on which all inodes and all blocks of data are free: the bits of the first 59 blocks are
set. -/
def blank : Image :=
  Function.update (fun _ _ => 0) bmapstart fun k => if k < 7 then 255 else if k = 7 then 7 else 0

theorem blank_free (i : Inum) : (blank.dinode i).type = 0 := by
  revert i
  decide +kernel

theorem blank_consistent : Consistent blank :=
  consistent_of_free blank_free (by decide +kernel)

/-- A file is made, written and given up again. -/
def writeAndDrop : List Op :=
  [.ialloc T_FILE, .ilock 0, .writei 0 0 [1, 2, 3], .iunlock 0, .iput 0]

theorem State.blocks_owned_writeAndDrop :
    ∃ s, run State.next (State.boot blank) writeAndDrop = some s ∧ Owned s.img s.img.dinode := by
  have hsome : (run State.next (State.boot blank) writeAndDrop).isSome = true := by decide +kernel
  obtain ⟨s, hrun⟩ := Option.isSome_iff_exists.mp hsome
  exact ⟨s, hrun, (State.blocks_owned blank_consistent.owned blank_consistent.noHole hrun).1⟩

/-! ### Write-through -/

/-- **The inode cache is write-through.** On any image whose blocks are owned and whose inodes have
no holes, whenever the lock of a valid inode is released, the inode in memory is the one on the
disk, and no inode has a hole. So an inode that is in use can be read again at any time. -/
theorem State.released_written (howned : Owned img img.dinode)
    (hholes : ∀ i, (img.dinode i).type ≠ 0 → NoHole img (img.dinode i)) {ops : List Op}
    (hrun : run State.next (State.boot img) ops = some s) :
    (∀ r ∈ s.releases,
      (r.valid = true → ∃ h : r.inum < NINODES, r.din = r.img.dinode ⟨r.inum, h⟩) ∧
        ∀ i, (r.img.dinode i).type ≠ 0 → NoHole r.img (r.img.dinode i)) ∧
      ∀ k, 0 < (s.icache k).ref → (s.icache k).valid = true →
        ∃ h : (s.icache k).inum < NINODES,
          (s.icache k).din = s.img.dinode ⟨(s.icache k).inum, h⟩ := by
  have hholds := Holds.of_run ⟨howned, hholes⟩ hrun
  constructor
  · intro r hr
    have hwrite := hholds.sound.released r hr
    exact ⟨hwrite.synced, hwrite.consistent.noHole⟩
  · intro k hk hvalid
    obtain ⟨hlt, hdin, -⟩ := hholds.sound.synced k hk hvalid
    exact ⟨hlt, hdin⟩

theorem State.released_written_writeAndDrop :
    ∃ s, run State.next (State.boot blank) writeAndDrop = some s ∧ s.releases.length = 2 ∧
      ∀ r ∈ s.releases, ∀ i, (r.img.dinode i).type ≠ 0 → NoHole r.img (r.img.dinode i) := by
  have hlength : (run State.next (State.boot blank) writeAndDrop).map
      (fun s => s.releases.length) = some 2 := by decide +kernel
  obtain ⟨s, hrun, hlen⟩ := Option.map_eq_some_iff.mp hlength
  refine ⟨s, hrun, hlen, fun r hr => ?_⟩
  exact ((State.released_written blank_consistent.owned blank_consistent.noHole hrun).1 r hr).2

/-- A disk with two files. The first has a block, which is the one that the inodes are in. -/
def crossed : Image :=
  let img := blank.setDinode 2
    ⟨T_FILE, 0, 0, 1, 512, fun k => if k.val = 0 then IBLOCK 2 else 0, 0⟩
  img.setDinode 3 ⟨T_FILE, 0, 0, 1, 0, fun _ => 0, 0⟩

theorem crossed_noHole (i : Inum) (hi : (crossed.dinode i).type ≠ 0) :
    NoHole crossed (crossed.dinode i) := by
  have hfiles : ∀ i : Inum, (crossed.dinode i).type ≠ 0 → i = 2 ∨ i = 3 := by decide +kernel
  have hsize : (crossed.dinode 2).size = 512 ∧ (crossed.dinode 3).size = 0 := by decide +kernel
  have hblock : blockAt crossed (crossed.dinode 2) 0 ≠ 0 := by decide +kernel
  intro bn hbn
  rcases hfiles i hi with rfl | rfl
  · rw [hsize.1] at hbn
    have hzero : bn = 0 := by
      have hB : BSIZE = 512 := rfl
      rw [hB] at hbn
      omega
    rwa [hzero]
  · rw [hsize.2] at hbn
    exact absurd hbn (Nat.not_lt_zero _)

/-- Both files are opened, and the type of the second one is overwritten by a write to the first. -/
def overwriteInode : List Op :=
  [.iget 3, .ilock 0, .iget 2, .ilock 1, .writei 1 192 [0, 0], .iunlock 0]

/-- Where a block has two uses, no inode need have a hole, and yet the inode in memory is not the
one on the disk when its lock is released. -/
theorem released_overwritten :
    ∃ (img : Image) (ops : List Op) (s : State),
      (∀ i, (img.dinode i).type ≠ 0 → NoHole img (img.dinode i)) ∧
        run State.next (State.boot img) ops = some s ∧
          ∃ r ∈ s.releases, r.valid = true ∧
            ∀ h : r.inum < NINODES, r.din ≠ r.img.dinode ⟨r.inum, h⟩ := by
  have hresult : (run State.next (State.boot crossed) overwriteInode).map
      (fun s => s.releases.map fun r => (r.valid, r.inum, r.din.type, (r.img.dinode 3).type))
        = some [(true, 3, 2, 0)] := by decide +kernel
  obtain ⟨s, hrun, hreleases⟩ := Option.map_eq_some_iff.mp hresult
  refine ⟨crossed, overwriteInode, s, crossed_noHole, hrun, ?_⟩
  obtain ⟨r, hr, hdata⟩ := List.mem_map.mp (hreleases ▸ List.mem_singleton_self _)
  simp only [Prod.mk.injEq] at hdata
  obtain ⟨hvalid, hinum, htype, hdisk⟩ := hdata
  refine ⟨r, hr, hvalid, fun hlt heq => ?_⟩
  have hself : (⟨r.inum, hlt⟩ : Inum) = 3 := Fin.ext hinum
  rw [hself] at heq
  rw [heq, hdisk] at htype
  cases htype

end Xv6.OnDisk
