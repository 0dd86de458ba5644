import Assignments.Xv6.InodeContent

/-!
# The inode cache

`iget`, `ilock`, `iput` and their relatives of `fs.c`, and the operations on an inode as they are
called, with a pointer into the cache. The copy of an inode in the cache is what the routines work
on. A process that has to wait for a lock does not come back here (`Stop.deadlock`).

A routine is judged by what its caller holds: references to inodes, which it took with `iget` or
`idup` and will give back with `iput`, and locks. `Holds s refs locks` says that in the state `s`
there are these references and these locks, next to the invariant of the cache (`Sound`): an inode
in memory that is referenced and valid is the one on the disk, and the image is consistent. For each
routine there is a rule that says what is held before and after it:

* `iget_spec`, `idup_spec`, `iput_spec` — references;
* `ilock_spec`, `iunlock_spec` — locks;
* `ialloc_spec`, `onInode_spec` — a new inode, and an operation on a locked one.

Each release of a lock is recorded in the state, and `Sound` says of each record that the inode in
memory was the one on the disk (`Release.WriteThrough`).
-/

namespace Xv6.OnDisk

open Framework Function

/-! ### The state -/

abbrev NINODE : ℕ := 50

/-- A pointer to an inode in memory. -/
abbrev Ip : Type := Fin NINODE

/-- `struct inode`, without the device, of which there is one. -/
structure Inode where
  inum : ℕ
  ref : ℤ
  locked : Bool
  valid : Bool
  din : Dinode

/-- What is there when the lock of an inode is released. -/
structure Release where
  img : Image
  inum : ℕ
  valid : Bool
  din : Dinode

structure State where
  img : Image
  icache : Ip → Inode
  /-- The releases of locks so far. No routine reads them. -/
  releases : List Release

def State.set (s : State) (ip : Ip) (e : Inode) : State :=
  { s with icache := update s.icache ip e }

/-! ### References and locks -/

/-- The entry of the cache that inode number `inum` is in. -/
def State.cached (s : State) (inum : ℕ) : Option Ip :=
  (List.finRange NINODE).find? fun ip => 0 < (s.icache ip).ref ∧ (s.icache ip).inum = inum

/-- The first entry of the cache that is not in use. -/
def State.empty (s : State) : Option Ip :=
  (List.finRange NINODE).find? fun ip => (s.icache ip).ref = 0

def iget (s : State) (inum : ℕ) : Except Stop (State × Ip) :=
  match s.cached inum with
  | some ip => .ok (s.set ip { s.icache ip with ref := (s.icache ip).ref + 1 }, ip)
  | none =>
    match s.empty with
    | some ip => .ok (s.set ip { s.icache ip with inum := inum, ref := 1, valid := false }, ip)
    | none => .error .igetNoInodes

def idup (s : State) (ip : Ip) : State :=
  s.set ip { s.icache ip with ref := (s.icache ip).ref + 1 }

def ilock (s : State) (ip : Ip) : Except Stop State :=
  let e := s.icache ip
  if e.ref < 1 then .error .ilock
  else if e.locked then .error .deadlock
  else if e.valid then .ok (s.set ip { e with locked := true })
  else if h : e.inum < NINODES then
    let din := s.img.dinode ⟨e.inum, h⟩
    if din.type = 0 then .error .ilockNoType
    else .ok (s.set ip { e with locked := true, valid := true, din := din })
  else .error .noSuchInode

/-- `releasesleep(&ip->lock)` -/
def releasesleep (s : State) (ip : Ip) : State :=
  let e := s.icache ip
  { s.set ip { e with locked := false } with
    releases := s.releases ++ [⟨s.img, e.inum, e.valid, e.din⟩] }

def iunlock (s : State) (ip : Ip) : Except Stop State :=
  if (s.icache ip).locked = false ∨ (s.icache ip).ref < 1 then .error .iunlock
  else .ok (releasesleep s ip)

/-! ### Operations on an inode -/

/-- An operation on the disk and the copy of an inode in memory. -/
def State.onInode {α : Type} (s : State) (ip : Ip)
    (f : Image → Inum → Dinode → Except Stop (Image × Dinode × α)) : Except Stop (State × α) :=
  let e := s.icache ip
  if h : e.inum < NINODES then do
    let (img, din, a) ← f s.img ⟨e.inum, h⟩ e.din
    .ok ({ s.set ip { e with din := din } with img := img }, a)
  else .error .noSuchInode

def State.readi (s : State) (ip : Ip) (off n : ℕ) : Except Stop (State × Count × List Byte) :=
  s.onInode ip fun img _ din => OnDisk.readi img din off n

def State.writei (s : State) (ip : Ip) (off : ℕ) (src : List Byte) : Except Stop (State × Count) :=
  s.onInode ip fun img i din => OnDisk.writei img i din off src

def State.itrunc (s : State) (ip : Ip) : Except Stop (State × Unit) :=
  s.onInode ip fun img i din => do
    let (img, din) ← OnDisk.itrunc img i din
    .ok (img, din, ())

/-- Fields of the inode are set, and `iupdate`. -/
def State.modify (s : State) (ip : Ip) (g : Dinode → Dinode) : Except Stop (State × Unit) :=
  s.onInode ip fun img i din => .ok (OnDisk.iupdate img i (g din), g din, ())

/-- An inode is truncated and freed. -/
def discard (img : Image) (i : Inum) (din : Dinode) : Except Stop (Image × Dinode × Unit) := do
  let (img, din) ← OnDisk.itrunc img i din
  let din := { din with type := 0 }
  .ok (OnDisk.iupdate img i din, din, ())

/-- The branch of `iput` for the last reference to an inode without links. -/
def ifree (s : State) (ip : Ip) : Except Stop State := do
  let (s, _) ← s.onInode ip discard
  .ok (s.set ip { s.icache ip with valid := false })

def iput (s : State) (ip : Ip) : Except Stop State :=
  let e := s.icache ip
  if e.locked then .error .deadlock
  else do
    let s := s.set ip { e with locked := true }
    let s ← if e.valid ∧ e.din.nlink = 0 ∧ e.ref = 1 then ifree s ip else .ok s
    let s := releasesleep s ip
    .ok (s.set ip { s.icache ip with ref := (s.icache ip).ref - 1 })

def iunlockput (s : State) (ip : Ip) : Except Stop State := do
  let s ← iunlock s ip
  iput s ip

/-- An inode of this type, with no links and no blocks. -/
def emptyDinode (type : BitVec 16) : Dinode := ⟨type, 0, 0, 0, 0, fun _ => 0, 0⟩

/-- The first free inode on the disk, from number 1 on. -/
def State.freeInode (s : State) : Option Inum :=
  (List.finRange NINODES).find? fun i => 0 < (i : ℕ) ∧ (s.img.dinode i).type = 0

def ialloc (s : State) (type : BitVec 16) : Except Stop (State × Ip) :=
  match s.freeInode with
  | some i => iget { s with img := s.img.setDinode i (emptyDinode type) } i
  | none => .error .iallocNoInodes

/-! ### What is held -/

/-- **Write-through**, at a release: a valid inode in memory is the one on the disk, and the image
is consistent. -/
structure Release.WriteThrough (r : Release) : Prop where
  synced : r.valid = true → ∃ h : r.inum < NINODES, r.din = r.img.dinode ⟨r.inum, h⟩
  consistent : Consistent r.img

/-- The entry is a copy of an allocated inode of the disk. -/
def Inode.Synced (img : Image) (e : Inode) : Prop :=
  ∃ h : e.inum < NINODES, e.din = img.dinode ⟨e.inum, h⟩ ∧ e.din.type ≠ 0

/-- The invariant of the inode cache. -/
structure Sound (s : State) : Prop where
  consistent : Consistent s.img
  unique : ∀ k l, 0 < (s.icache k).ref → 0 < (s.icache l).ref →
    (s.icache k).inum = (s.icache l).inum → k = l
  synced : ∀ k, 0 < (s.icache k).ref → (s.icache k).valid = true → (s.icache k).Synced s.img
  locked : ∀ k, (s.icache k).locked = true → 0 < (s.icache k).ref ∧ (s.icache k).valid = true
  released : ∀ r ∈ s.releases, r.WriteThrough

/-- A process has these references and these locks. -/
structure Holds (s : State) (refs : Multiset Ip) (locks : Finset Ip) : Prop where
  sound : Sound s
  ref : ∀ k, (refs.count k : ℤ) ≤ (s.icache k).ref
  lock : ∀ k ∈ locks, (s.icache k).locked = true

variable {s : State} {refs : Multiset Ip} {locks : Finset Ip} {ip k : Ip}

namespace State

variable {e : Inode}

@[simp] theorem set_icache_self : (s.set k e).icache k = e := update_self ..

theorem set_icache_of_ne {l : Ip} (h : l ≠ k) : (s.set k e).icache l = s.icache l :=
  update_of_ne h ..

@[simp] theorem set_img : (s.set k e).img = s.img := rfl

theorem set_set {e' : Inode} : (s.set k e).set k e' = s.set k e' := by
  simp [set]

end State

/-- **One entry and the disk change.** The other entries have to be copies still. -/
theorem Sound.change (h : Sound s) {img' : Image} {e' : Inode} (hconsistent : Consistent img')
    (hunique : 0 < e'.ref → ∀ l ≠ k, 0 < (s.icache l).ref → (s.icache l).inum ≠ e'.inum)
    (hsynced : 0 < e'.ref → e'.valid = true → e'.Synced img')
    (hlocked : e'.locked = true → 0 < e'.ref ∧ e'.valid = true)
    (hother : ∀ l ≠ k, 0 < (s.icache l).ref → (s.icache l).valid = true →
      (s.icache l).Synced img') : Sound { s.set k e' with img := img' } := by
  have hself : (s.set k e').icache k = e' := State.set_icache_self
  have hne : ∀ l, l ≠ k → (s.set k e').icache l = s.icache l := fun l =>
    State.set_icache_of_ne
  refine ⟨hconsistent, ?_, ?_, ?_, h.released⟩
  · intro l m hl hm heq
    dsimp only at hl hm heq
    by_cases hlk : l = k
    · by_cases hmk : m = k
      · exact hlk.trans hmk.symm
      · subst hlk
        rw [hself] at hl heq
        rw [hne m hmk] at hm heq
        exact absurd heq.symm (hunique hl m hmk hm)
    · rw [hne l hlk] at hl heq
      by_cases hmk : m = k
      · subst hmk
        rw [hself] at hm heq
        exact absurd heq (hunique hm l hlk hl)
      · rw [hne m hmk] at hm heq
        exact h.unique l m hl hm heq
  · intro l hl hvalid
    dsimp only at hl hvalid ⊢
    by_cases hlk : l = k
    · subst hlk
      rw [hself] at hl hvalid ⊢
      exact hsynced hl hvalid
    · rw [hne l hlk] at hl hvalid ⊢
      exact hother l hlk hl hvalid
  · intro l hl
    dsimp only at hl ⊢
    by_cases hlk : l = k
    · subst hlk
      rw [hself] at hl ⊢
      exact hlocked hl
    · rw [hne l hlk] at hl ⊢
      exact h.locked l hl

/-- One entry changes, for the same inode. -/
theorem Sound.set (h : Sound s) {e' : Inode} (hinum : e'.inum = (s.icache k).inum)
    (href : 0 < e'.ref → 0 < (s.icache k).ref)
    (hsynced : 0 < e'.ref → e'.valid = true → e'.Synced s.img)
    (hlocked : e'.locked = true → 0 < e'.ref ∧ e'.valid = true) : Sound (s.set k e') := by
  apply h.change h.consistent _ hsynced hlocked fun l _ hl hvalid => h.synced l hl hvalid
  intro hpos l hl hlpos heq
  exact hl (h.unique l k hlpos (href hpos) (heq.trans hinum))

/-- What is held of an entry that has changed, and of the others. -/
theorem Holds.of_change (h : Holds s refs locks) {s' : State} (hsound : Sound s')
    (hother : ∀ l ≠ k, s'.icache l = s.icache l) {refs' : Multiset Ip} {locks' : Finset Ip}
    (href : (refs'.count k : ℤ) ≤ (s'.icache k).ref) (hrefs : ∀ l ≠ k, refs'.count l = refs.count l)
    (hlock : k ∈ locks' → (s'.icache k).locked = true) (hlocks : ∀ l ≠ k, l ∈ locks' → l ∈ locks) :
    Holds s' refs' locks' := by
  refine ⟨hsound, fun l => ?_, fun l hl => ?_⟩
  · by_cases hlk : l = k
    · exact hlk ▸ href
    · rw [hother l hlk, hrefs l hlk]
      exact h.ref l
  · by_cases hlk : l = k
    · exact hlk ▸ hlock (hlk ▸ hl)
    · rw [hother l hlk]
      exact h.lock l (hlocks l hlk hl)

/-! ### The rules for references -/

theorem State.cached_eq {inum : ℕ} (h : s.cached inum = some ip) :
    0 < (s.icache ip).ref ∧ (s.icache ip).inum = inum := by
  have hfound := List.find?_some h
  simpa using hfound

theorem State.cached_eq_none {inum : ℕ} (h : s.cached inum = none) (k : Ip)
    (hk : 0 < (s.icache k).ref) : (s.icache k).inum ≠ inum := by
  have hnone := List.find?_eq_none.mp h k (List.mem_finRange k)
  simpa [hk] using hnone

theorem State.empty_eq (h : s.empty = some ip) : (s.icache ip).ref = 0 := by
  have hfound := List.find?_some h
  simpa using hfound

/-- One more reference to an inode that is in use. -/
theorem Holds.incref (h : Holds s refs locks) (hpos : 0 < (s.icache ip).ref) :
    Holds (s.set ip { s.icache ip with ref := (s.icache ip).ref + 1 }) (ip ::ₘ refs) locks := by
  have hpos' : 0 < (s.icache ip).ref + 1 := Int.lt_add_one_of_le (Int.le_of_lt hpos)
  have hsound : Sound (s.set ip { s.icache ip with ref := (s.icache ip).ref + 1 }) :=
    h.sound.set rfl (fun _ => hpos) (fun _ hvalid => h.sound.synced ip hpos hvalid)
      fun hlock => ⟨hpos', (h.sound.locked ip hlock).2⟩
  apply h.of_change hsound fun l => State.set_icache_of_ne
  · have hle := h.ref ip
    rw [State.set_icache_self, Multiset.count_cons_self]
    push_cast
    omega
  · exact fun l hl => Multiset.count_cons_of_ne hl refs
  · intro hmem
    rw [State.set_icache_self]
    exact h.lock ip hmem
  · exact fun l _ hl => hl

/-- **`iget`** takes a reference. -/
theorem iget_spec (h : Holds s refs locks) (inum : ℕ) :
    Ensures Fine (iget s inum) fun r => Holds r.1 (r.2 ::ₘ refs) locks := by
  unfold iget
  split
  next ip hcached => exact Ensures.ok (h.incref (State.cached_eq hcached).1)
  next hnone =>
    split
    next ip hempty =>
      have hzero : (s.icache ip).ref = 0 := State.empty_eq hempty
      have hunlocked : (s.icache ip).locked ≠ true := by
        intro hlock
        have hpos := (h.sound.locked ip hlock).1
        omega
      apply Ensures.ok
      have hsound : Sound (s.set ip { s.icache ip with inum := inum, ref := 1, valid := false }) :=
        h.sound.change h.sound.consistent
          (fun _ l _ hl => State.cached_eq_none hnone l hl)
          (fun _ hvalid => absurd hvalid Bool.false_ne_true)
          (fun hlock => absurd hlock hunlocked)
          fun l _ hl hvalid => h.sound.synced l hl hvalid
      apply h.of_change hsound fun l => State.set_icache_of_ne
      · have hle := h.ref ip
        rw [State.set_icache_self, Multiset.count_cons_self]
        push_cast
        omega
      · exact fun l hl => Multiset.count_cons_of_ne hl refs
      · exact fun hmem => absurd (h.lock ip hmem) hunlocked
      · exact fun l _ hl => hl
    next => exact Ensures.error Stop.noConfusion

/-! ### The rules for locks -/

/-- **`ilock`** takes a lock that nobody has. -/
theorem ilock_spec (h : Holds s refs locks) (ip : Ip) :
    Ensures Fine (ilock s ip) fun s' => ip ∉ locks ∧ Holds s' refs (insert ip locks) := by
  unfold ilock
  apply Ensures.ite
  · exact fun _ => Ensures.error Stop.noConfusion
  intro href
  have hpos : 0 < (s.icache ip).ref := by omega
  apply Ensures.ite
  · exact fun _ => Ensures.error Stop.noConfusion
  intro hunlocked
  have hfree : ip ∉ locks := fun hmem => hunlocked (h.lock ip hmem)
  -- the entry is locked now; in the second case it has been read from the disk
  have hresult : ∀ e' : Inode, e'.inum = (s.icache ip).inum → e'.ref = (s.icache ip).ref →
      e'.locked = true → e'.valid = true → e'.Synced s.img →
      Holds (s.set ip e') refs (insert ip locks) := by
    intro e' hinum href' hlocked hvalid hsynced
    have hsound : Sound (s.set ip e') :=
      h.sound.set hinum (fun _ => hpos) (fun _ _ => hsynced) fun _ => ⟨href' ▸ hpos, hvalid⟩
    apply h.of_change hsound fun l => State.set_icache_of_ne
    · rw [State.set_icache_self, href']
      exact h.ref ip
    · exact fun _ _ => rfl
    · intro _
      rw [State.set_icache_self]
      exact hlocked
    · intro l hl hmem
      exact (Finset.mem_insert.mp hmem).resolve_left hl
  apply Ensures.ite
  · intro hvalid
    exact Ensures.ok ⟨hfree, hresult _ rfl rfl rfl hvalid (h.sound.synced ip hpos hvalid)⟩
  intro _
  split
  next hlt =>
    apply Ensures.ite
    · exact fun _ => Ensures.error Stop.noConfusion
    · exact fun htype => Ensures.ok ⟨hfree, hresult _ rfl rfl rfl rfl ⟨hlt, rfl, htype⟩⟩
  next => exact Ensures.error Stop.noConfusion

/-- The record of a release. -/
theorem Sound.release (h : Sound s) {r : Release} (hr : r.WriteThrough) :
    Sound { s with releases := s.releases ++ [r] } where
  consistent := h.consistent
  unique := h.unique
  synced := h.synced
  locked := h.locked
  released r' hr' := by
    rcases List.mem_append.mp hr' with hold | hnew
    · exact h.released r' hold
    · rw [List.mem_singleton.mp hnew]
      exact hr

/-- What a lock protects. -/
theorem Sound.synced_of_locked (h : Sound s) (hk : (s.icache k).locked = true) :
    (s.icache k).Synced s.img :=
  h.synced k (h.locked k hk).1 (h.locked k hk).2

/-- **`iunlock`** gives a lock back, and the inode is on the disk as it is in memory. -/
theorem iunlock_spec (h : Holds s refs locks) (ip : Ip) :
    Ensures Fine (iunlock s ip) fun s' => Holds s' refs (locks.erase ip) := by
  unfold iunlock
  apply Ensures.ite
  · exact fun _ => Ensures.error Stop.noConfusion
  intro hguard
  have hlocked : (s.icache ip).locked = true := by
    rw [not_or] at hguard
    exact Bool.of_not_eq_false hguard.1
  obtain ⟨hpos, hvalid⟩ := h.sound.locked ip hlocked
  obtain ⟨hlt, hdin, htype⟩ := h.sound.synced_of_locked hlocked
  apply Ensures.ok
  have hset : Sound (s.set ip { s.icache ip with locked := false }) :=
    h.sound.set rfl (fun _ => hpos) (fun _ _ => ⟨hlt, hdin, htype⟩)
      fun hlock => absurd hlock Bool.false_ne_true
  have hwrite : Release.WriteThrough
      ⟨s.img, (s.icache ip).inum, (s.icache ip).valid, (s.icache ip).din⟩ :=
    ⟨fun _ => ⟨hlt, hdin⟩, h.sound.consistent⟩
  have hsound : Sound (releasesleep s ip) := hset.release hwrite
  apply h.of_change hsound fun l => State.set_icache_of_ne
  · rw [releasesleep, State.set_icache_self]
    exact h.ref ip
  · exact fun _ _ => rfl
  · exact fun hmem => absurd rfl (Finset.ne_of_mem_erase hmem)
  · exact fun l _ hmem => Finset.mem_of_mem_erase hmem

/-! ### The rules for operations -/

/-- Other entries are copies of other inodes. -/
theorem Sound.synced_other (h : Sound s) {l : Ip} {i : Inum} {img' : Image} {din : Dinode}
    (hu : Updated s.img i img' din) (hi : (s.icache k).inum = i) (hk : 0 < (s.icache k).ref)
    (hl : l ≠ k) (hpos : 0 < (s.icache l).ref) (hvalid : (s.icache l).valid = true) :
    (s.icache l).Synced img' := by
  obtain ⟨hlt, hdin, htype⟩ := h.synced l hpos hvalid
  refine ⟨hlt, hdin.trans (hu.dinode_other _ ?_).symm, htype⟩
  intro heq
  exact hl (h.unique l k hpos hk ((congrArg Fin.val heq).trans hi.symm))

/-- What an operation on a locked inode does to the state, from what it does to the inode. -/
theorem onInode_cases {α : Type} {f : Image → Inum → Dinode → Except Stop (Image × Dinode × α)}
    (post : Inum → Image × Dinode × α → Prop) (h : Sound s) (hlocked : (s.icache ip).locked = true)
    (hf : ∀ i, (s.img.dinode i).type ≠ 0 → Ensures Fine (f s.img i (s.img.dinode i)) fun r =>
      Updated s.img i r.1 r.2.1 ∧ post i r) :
    Ensures Fine (s.onInode ip f) fun r => ∃ (i : Inum) (img' : Image) (din : Dinode),
      (s.icache ip).inum = i ∧ Updated s.img i img' din ∧ post i (img', din, r.2) ∧
        r.1 = { s.set ip { s.icache ip with din := din } with img := img' } := by
  obtain ⟨hlt, hdin, htype⟩ := h.synced_of_locked hlocked
  unfold State.onInode
  simp only [dif_pos hlt]
  rw [hdin] at htype ⊢
  apply (hf _ htype).bind
  rintro ⟨img', din, a⟩ ⟨hu, hpost⟩
  exact Ensures.ok ⟨_, img', din, rfl, hu, hpost, rfl⟩

section

variable (h : Holds s refs locks)

include h

/-- An operation on a locked inode leaves it locked, and on the disk as it is in memory. -/
theorem Holds.updated (hlocked : (s.icache ip).locked = true) {i : Inum} {img' : Image}
    {din : Dinode} (hi : (s.icache ip).inum = i) (hu : Updated s.img i img' din)
    (htype : din.type ≠ 0) :
    Holds { s.set ip { s.icache ip with din := din } with img := img' } refs locks := by
  obtain ⟨hpos, hvalid⟩ := h.sound.locked ip hlocked
  have hsound : Sound { s.set ip { s.icache ip with din := din } with img := img' } := by
    apply h.sound.change hu.consistent
    · intro _ l hl hlpos heq
      exact hl (h.sound.unique l ip hlpos hpos heq)
    · intro _ _
      have hlt : (s.icache ip).inum < NINODES := hi ▸ i.isLt
      have hself : (⟨(s.icache ip).inum, hlt⟩ : Inum) = i := Fin.ext hi
      exact ⟨hlt, by rw [hself, hu.dinode_self], htype⟩
    · exact fun _ => ⟨hpos, hvalid⟩
    · exact fun l hl => h.sound.synced_other hu hi hpos hl
  apply h.of_change hsound fun l => State.set_icache_of_ne
  · simp only [State.set_icache_self]
    exact h.ref ip
  · exact fun _ _ => rfl
  · intro _
    simp only [State.set_icache_self]
    exact hlocked
  · exact fun l _ hl => hl

/-- **An operation on a locked inode** that leaves it on the disk as it is in memory. -/
theorem onInode_spec {α : Type} {f : Image → Inum → Dinode → Except Stop (Image × Dinode × α)}
    (hip : ip ∈ locks)
    (hf : ∀ i, (s.img.dinode i).type ≠ 0 → Ensures Fine (f s.img i (s.img.dinode i)) fun r =>
      Updated s.img i r.1 r.2.1 ∧ r.2.1.type ≠ 0) :
    Ensures Fine (s.onInode ip f) fun r => Holds r.1 refs locks := by
  have hlocked := h.lock ip hip
  apply (onInode_cases (fun _ r => r.2.1.type ≠ 0) h.sound hlocked hf).mono
  rintro ⟨s', a⟩ ⟨i, img', din, hi, hu, htype, rfl⟩
  exact h.updated hlocked hi hu htype

theorem State.readi_spec (hip : ip ∈ locks) (off n : ℕ) :
    Ensures Fine (s.readi ip off n) fun r => Holds r.1 refs locks := by
  apply onInode_spec h hip
  intro i htype
  obtain ⟨count, bytes, hread, -⟩ := OnDisk.readi_spec (h.sound.consistent.noHole i htype) off n
  rw [hread]
  exact Ensures.ok ⟨⟨h.sound.consistent, rfl, fun _ _ => rfl⟩, htype⟩

theorem State.writei_spec (hip : ip ∈ locks) (off : ℕ) (src : List Byte) :
    Ensures Fine (s.writei ip off src) fun r => Holds r.1 refs locks := by
  apply onInode_spec h hip
  intro i htype
  apply (OnDisk.writei_spec h.sound.consistent htype off src).mono
  rintro r ⟨hu, htype', -⟩
  exact ⟨hu, htype' ▸ htype⟩

theorem State.itrunc_spec (hip : ip ∈ locks) :
    Ensures Fine (s.itrunc ip) fun r => Holds r.1 refs locks := by
  apply onInode_spec h hip
  intro i htype
  apply ((h.sound.consistent.itrunc htype).weaken fun _ => False.elim).bind
  rintro ⟨img', din⟩ ⟨hdin, hu⟩
  refine Ensures.ok ⟨hu, ?_⟩
  dsimp only at hdin ⊢
  rw [hdin]
  exact htype

/-- The link count and the device numbers may be set. -/
theorem State.modify_spec (hip : ip ∈ locks) (major minor nlink : Dinode → BitVec 16) :
    Ensures Fine (s.modify ip fun din =>
        { din with major := major din, minor := minor din, nlink := nlink din })
      fun r => Holds r.1 refs locks := by
  apply onInode_spec h hip
  intro i htype
  have hfits : (s.img.dinode i).Fits := Image.fits_dinode
  refine Ensures.ok ⟨?_, htype⟩
  exact h.sound.consistent.setHeader ⟨hfits.size, hfits.addrs, hfits.indirect⟩ rfl rfl rfl rfl

end

/-! ### `iput` and `ialloc` -/

theorem Updated.trans {img img₁ img₂ : Image} {i : Inum} {din₁ din₂ : Dinode}
    (h₁ : Updated img i img₁ din₁) (h₂ : Updated img₁ i img₂ din₂) : Updated img i img₂ din₂ :=
  ⟨h₂.consistent, h₂.dinode_self, fun j hj => (h₂.dinode_other j hj).trans (h₁.dinode_other j hj)⟩

theorem discard_spec {img : Image} {i : Inum} (h : Consistent img)
    (htype : (img.dinode i).type ≠ 0) :
    Ensures Fine (discard img i (img.dinode i)) fun r => Updated img i r.1 r.2.1 := by
  apply ((h.itrunc htype).weaken fun _ => False.elim).bind
  rintro ⟨img₁, din₁⟩ ⟨hdin, hu⟩
  dsimp only at hdin hu ⊢
  refine Ensures.ok (hu.trans ?_)
  have hempty : ∀ s, addrAt img₁ (img₁.dinode i) s = 0 := by
    intro s
    rw [hu.dinode_self, hdin]
    cases s <;> simp [addrAt]
  apply hu.consistent.setEmpty
  · intro s
    rw [refs, hempty]
    split <;> rfl
  · rw [hdin]
  · rw [hdin]
  · rw [hdin]

section

variable (h : Holds s (ip ::ₘ refs) locks)

include h

/-- The end of `iput`: the lock is released and the reference dropped. -/
theorem Holds.drop {img' : Image} (e' : Inode) (hunlocked : (s.icache ip).locked = false)
    (hinum : e'.inum = (s.icache ip).inum) (href : e'.ref = (s.icache ip).ref)
    (hconsistent : Consistent img') (hsynced : e'.valid = true → e'.Synced img')
    (hother : ∀ l ≠ ip, 0 < (s.icache l).ref → (s.icache l).valid = true →
      (s.icache l).Synced img') :
    Holds { s.set ip { e' with locked := false, ref := e'.ref - 1 } with
      img := img', releases := s.releases ++ [⟨img', e'.inum, e'.valid, e'.din⟩] } refs locks := by
  have hcount := h.ref ip
  rw [Multiset.count_cons_self] at hcount
  push_cast at hcount
  have hpos : 0 < (s.icache ip).ref := by omega
  have hunique : ∀ l ≠ ip, 0 < (s.icache l).ref → (s.icache l).inum ≠ e'.inum :=
    fun l hl hlpos heq => hl (h.sound.unique l ip hlpos hpos (heq.trans hinum))
  have hchange : Sound { s.set ip { e' with locked := false, ref := e'.ref - 1 } with
      img := img' } :=
    h.sound.change hconsistent (fun _ => hunique) (fun _ hvalid => hsynced hvalid)
      (fun hlock => absurd hlock Bool.false_ne_true) hother
  have hwrite : Release.WriteThrough ⟨img', e'.inum, e'.valid, e'.din⟩ := by
    refine ⟨fun hvalid => ?_, hconsistent⟩
    obtain ⟨hlt, hdin, -⟩ := hsynced hvalid
    exact ⟨hlt, hdin⟩
  apply h.of_change (hchange.release hwrite) fun l => State.set_icache_of_ne
  · simp only [State.set_icache_self, href]
    omega
  · exact fun l hl => (Multiset.count_cons_of_ne hl refs).symm
  · intro hmem
    have hlock := h.lock ip hmem
    rw [hunlocked] at hlock
    cases hlock
  · exact fun l _ hl => hl

/-- The inode that is locked by `iput`, if it is valid. -/
theorem Holds.acquire (hvalid : (s.icache ip).valid = true) :
    Holds (s.set ip { s.icache ip with locked := true }) (ip ::ₘ refs) locks := by
  have hcount := h.ref ip
  rw [Multiset.count_cons_self] at hcount
  push_cast at hcount
  have hpos : 0 < (s.icache ip).ref := by omega
  have hsound : Sound (s.set ip { s.icache ip with locked := true }) :=
    h.sound.set rfl (fun _ => hpos) (fun _ _ => h.sound.synced ip hpos hvalid)
      fun _ => ⟨hpos, hvalid⟩
  apply h.of_change hsound fun l => State.set_icache_of_ne
  · rw [State.set_icache_self]
    exact h.ref ip
  · exact fun _ _ => rfl
  · intro _
    rw [State.set_icache_self]
  · exact fun l _ hl => hl

theorem ifree_spec (hvalid : (s.icache ip).valid = true) :
    Ensures Fine (ifree (s.set ip { s.icache ip with locked := true }) ip) fun t =>
      ∃ (i : Inum) (img' : Image) (din : Dinode), (s.icache ip).inum = i ∧
        Updated s.img i img' din ∧
          t = { s.set ip { s.icache ip with locked := true, valid := false, din := din } with
            img := img' } := by
  have hlocked : ((s.set ip { s.icache ip with locked := true }).icache ip).locked = true := by
    rw [State.set_icache_self]
  have hsound := (h.acquire hvalid).sound
  unfold ifree
  have hdiscard := onInode_cases (f := discard) (fun _ _ => True) hsound hlocked
    fun i htype => (discard_spec hsound.consistent htype).mono fun _ hu => ⟨hu, trivial⟩
  apply hdiscard.bind
  rintro ⟨t, a⟩ ⟨i, img', din, hi, hu, -, rfl⟩
  rw [State.set_icache_self] at hi
  refine Ensures.ok ⟨i, img', din, hi, hu, ?_⟩
  simp [State.set, update_idem]

/-- **`iput`** drops a reference; the inode is freed with the last one, if it has no links. -/
theorem iput_spec : Ensures Fine (iput s ip) fun s' => Holds s' refs locks := by
  have hcount := h.ref ip
  rw [Multiset.count_cons_self] at hcount
  push_cast at hcount
  have hpos : 0 < (s.icache ip).ref := by omega
  unfold iput
  apply Ensures.ite
  · exact fun _ => Ensures.error Stop.noConfusion
  intro hlock
  have hunlocked : (s.icache ip).locked = false := Bool.eq_false_of_not_eq_true hlock
  by_cases hlast : (s.icache ip).valid = true ∧ (s.icache ip).din.nlink = 0 ∧ (s.icache ip).ref = 1
  · simp only [if_pos hlast]
    apply (ifree_spec h hlast.1).bind
    rintro t ⟨i, img', din, hi, hu, rfl⟩
    apply Ensures.ok
    have hdrop := h.drop { s.icache ip with locked := true, valid := false, din := din }
      hunlocked rfl rfl hu.consistent (fun hvalid => absurd hvalid Bool.false_ne_true)
      fun l hl => h.sound.synced_other hu hi hpos hl
    simpa [releasesleep, State.set, update_idem] using hdrop
  · simp only [if_neg hlast]
    apply Ensures.ok
    have hdrop := h.drop (s.icache ip) hunlocked rfl rfl h.sound.consistent
      (fun hvalid => h.sound.synced ip hpos hvalid) fun l _ hl hvalid => h.sound.synced l hl hvalid
    simpa [releasesleep, State.set, update_idem] using hdrop

theorem iunlockput_spec :
    Ensures Fine (iunlockput s ip) fun s' => Holds s' refs (locks.erase ip) := by
  apply (iunlock_spec h ip).bind
  intro s' h'
  exact iput_spec h'

end

theorem State.freeInode_eq {i : Inum} (h : s.freeInode = some i) : (s.img.dinode i).type = 0 := by
  have hfound := List.find?_some h
  simp only [decide_eq_true_eq] at hfound
  exact hfound.2

/-- **`ialloc`** takes a free inode, of which there is no copy in memory. -/
theorem ialloc_spec (h : Holds s refs locks) (type : BitVec 16) :
    Ensures Fine (ialloc s type) fun r => Holds r.1 (r.2 ::ₘ refs) locks := by
  unfold ialloc
  split
  next i hfree =>
    have htype := State.freeInode_eq hfree
    have hu : Updated s.img i (s.img.setDinode i (emptyDinode type)) (emptyDinode type) := by
      apply h.sound.consistent.setEmpty _ rfl rfl rfl
      exact fun t => if_pos htype
    apply iget_spec
    refine ⟨⟨hu.consistent, h.sound.unique, ?_, h.sound.locked, h.sound.released⟩, h.ref, h.lock⟩
    intro k hk hvalid
    obtain ⟨hlt, hdin, hne⟩ := h.sound.synced k hk hvalid
    refine ⟨hlt, hdin.trans (hu.dinode_other _ ?_).symm, hne⟩
    rintro rfl
    rw [hdin] at hne
    exact hne htype
  next => exact Ensures.error Stop.noConfusion

end Xv6.OnDisk
