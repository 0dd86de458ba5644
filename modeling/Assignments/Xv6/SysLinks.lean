import Assignments.Xv6.InodeRefs

/-!
# Links: what the system calls leave behind

Specifications of the calls that make and remove links, from the specifications of the inode layer
and the changes of the directory tree. Each starts and ends between calls, where the file system is
consistent and nothing is locked: `Leaves` says that it is so again. `sysUnlink_spec` has a
condition, that the call does not remove a directory somebody holds: such a directory stays
allocated, and its entry `..` remains although the parent no longer counts it.

* `sysLink_spec`, `sysUnlink_spec` — one link more, one link less;
* `create_spec` — a new inode, locked, unless a file is there already;
* `openInode_spec`, `createOnly_spec` — the calls that use it.
-/

namespace Xv6.Fs

open Framework Function

/-- **Consistent again**, with the references `loc` and the locks `locks`. -/
def Leaves (env : Env) (loc : Multiset (Ip × Inum)) (locks : Finset Ip) (s : State) : Prop :=
  ∃ T, Tree T ∧ Busy env T loc locks s

section Dropped

variable {env : Env} {s : State} {T : Inum → Dinode} {loc : Multiset (Ip × Inum)}
  {locks : Finset Ip} {ip : Ip} {i : Inum}

theorem Tree.dropped (h : Tree T) (ref : ℤ) : Tree (dropped T i ref) := by
  unfold Fs.dropped
  split
  · next hzero => exact h.free hzero.1
  · exact h

theorem Leaves.iunlockput (h : Leaves env ((ip, i) ::ₘ loc) locks s) (hlock : ip ∈ locks) :
    Safely (iunlockput s ip) (Leaves env loc (locks.erase ip)) := by
  obtain ⟨T, hT, hs⟩ := h
  exact (iunlockput_spec hs hlock).mono fun s' hs' => ⟨_, hT.dropped _, hs'⟩

theorem Busy.beginOp (h : Busy env T loc locks s) : Busy env T loc locks (beginOp s) := { h with }

theorem Busy.endOp (h : Busy env T loc locks s) : Busy env T loc locks (endOp s) := { h with }

theorem Leaves.endOp (h : Leaves env loc locks s) : Leaves env loc locks (endOp s) := by
  obtain ⟨T, hT, hs⟩ := h
  exact ⟨T, hT, hs.endOp⟩

end Dropped

/-! ### Link counts -/

section Counts

variable {T : Inum → Dinode} {i : Inum}

theorem short_of_range {n : ℤ} (hlo : -2 ^ 15 ≤ n) (hhi : n < 2 ^ 15) : short n = n :=
  Int.bmod_eq_of_le hlo hhi

theorem Tree.nlink_nonneg (h : Tree T) (hi : (T i).type ≠ .free) : 0 ≤ (T i).nlink := by
  rw [h.nlink i hi]
  exact Int.natCast_nonneg _

/-- One link more or less does not wrap around. -/
theorem Tree.addLinks (h : Tree T) (hi : (T i).type ≠ .free) {n : ℤ} (hn : -2 ≤ n ∧ n ≤ 2) :
    ((T i).addLinks n).nlink = (T i).nlink + n := by
  have hle := h.nlink_le hi
  have hge := h.nlink_nonneg hi
  have hblocks : nblocks = 941 := by decide
  exact short_of_range (by omega) (by omega)

theorem Tree.ne_zero_of_alloc (h : Tree T) (hi : (T i).type ≠ .free) : i ≠ 0 := by
  rintro rfl
  exact hi h.zero

/-- A name that is not in a directory is not that of its first entry. -/
theorem Tree.name_ne_dot (h : Tree T) {dp : Inum} (hdp : (T dp).type = .dir) {name : Name}
    (hfind : (T dp).find name = none) : name ≠ dot := by
  have hmem : (⟨dp, dot⟩ : Dirent) ∈ (T dp).dirents := by
    rw [(h.dirs dp hdp).dots]
    exact List.mem_cons_self
  exact (find_eq_none hfind _ hmem (h.ne_zero_of_dir hdp)).symm

/-- A change that takes no block. -/
theorem used_update {x : Dinode} (hx : x.blocks = (T i).blocks) : used (update T i x) = used T := by
  have heq : used (update T i x) + (T i).blocks = used T + x.blocks :=
    total_update _ T i x
  omega

/-- Raising a count and lowering it again. -/
theorem Tree.addLinks_undo (h : Tree T) (hi : (T i).type ≠ .free) :
    ((T i).addLinks 1).addLinks (-1) = T i := by
  have hle := h.nlink_le hi
  have hge := h.nlink_nonneg hi
  have hblocks : nblocks = 941 := by decide
  have hone := h.addLinks hi (n := 1) (by omega)
  have hback : short (((T i).addLinks 1).nlink + -1) = (T i).nlink := by
    rw [hone, short_of_range (by omega) (by omega)]
    omega
  show { T i with nlink := short (((T i).addLinks 1).nlink + -1) } = T i
  rw [hback]

/-- A path lookup goes through while one count is raised. -/
theorem Tree.sound_addLinks (h : Tree T) (hi : (T i).type ≠ .free) :
    Sound (update T i ((T i).addLinks 1)) := by
  have hsound := h.sound
  have hone := h.addLinks hi (n := 1) (by omega)
  have hge := h.nlink_nonneg hi
  have htype : ∀ j, (update T i ((T i).addLinks 1) j).type = (T j).type := by
    intro j
    by_cases hj : j = i
    · rw [hj, update_self]
      rfl
    · rw [update_of_ne hj]
  have hdirents : ∀ j, (update T i ((T i).addLinks 1) j).dirents = (T j).dirents := by
    intro j
    by_cases hj : j = i
    · rw [hj, update_self]
      rfl
    · rw [update_of_ne hj]
  have hnlink : ∀ j, (T j).nlink ≠ 0 →
      (update T i ((T i).addLinks 1) j).nlink ≠ 0 := by
    intro j hne
    by_cases hj : j = i
    · rw [hj, update_self, hone]
      omega
    · rw [update_of_ne hj]
      exact hne
  exact {
    root := by
      rw [htype]
      exact hsound.root
    dir := by
      intro d hd
      rw [htype] at hd
      exact hnlink d (hsound.dir d hd)
    named := by
      intro d hd e he hinum
      rw [htype] at hd
      rw [hdirents] at he
      obtain ⟨halloc, hne⟩ := hsound.named d hd e he hinum
      exact ⟨htype e.inum ▸ halloc, hnlink e.inum hne⟩ }

end Counts

/-! ### Link -/

section Link

variable {env : Env} {s : State} {T : Inum → Dinode} {ip : Ip} {i : Inum} {pr : Proc}

/-- The inodes after one more link to a file. -/
theorem Tree.addLink (h : Tree T) (hi : (T i).type ≠ .free) (hnotdir : (T i).type ≠ .dir)
    {d : Inum} (hd : (T d).type = .dir) {name : Name} (hfind : (T d).find name = none)
    {T' : Inum → Dinode}
    (hT' : T' = update (update T i ((T i).addLinks 1)) d
      ((T d).addEntry ⟨i, name⟩))
    (hfits : used (update T i ((T i).addLinks 1)) ≤ nblocks → used T' ≤ nblocks) :
    Tree T' ∧ (T' d).type = .dir ∧ (T' i).nlink ≠ 0 := by
  have hne : i ≠ d := by
    rintro rfl
    exact hnotdir hd
  have hself : T' i = (T i).addLinks 1 := by
    rw [hT', update_of_ne hne, update_self]
  have hone : (T' i).nlink = (T i).nlink + 1 := by
    rw [hself]
    exact h.addLinks hi (by omega)
  have hd' : T' d = (T d).addEntry ⟨i, name⟩ := by rw [hT', update_self]
  have hagree : ∀ j, j ≠ i → j ≠ d → T' j = T j := by
    intro j hji hjd
    rw [hT', update_of_ne hjd, update_of_ne hji]
  refine ⟨?_, ?_, ?_⟩
  · refine h.addFile hd (h.ne_zero_of_alloc hi) hnotdir (h.name_ne_dot hd hfind) hd' ?_ ?_ ?_
      hagree (hfits ?_)
    · rw [hself]
      exact hnotdir
    · rw [hself]
      exact hi
    · rw [hone, h.nlink i hi]
    · exact (used_update (x := (T i).addLinks 1) rfl).trans_le h.fits
  · rw [hd']
    exact hd
  · have hge := h.nlink_nonneg hi
    rw [hone]
    omega

/-- The count that was raised is lowered again. -/
theorem undoLink_spec (hT : Tree T) (hi : (T i).type ≠ .free)
    (h : Busy env (update T i ((T i).addLinks 1)) {(ip, i)} ∅ s) :
    Safely (undoLink s ip) fun r => Leaves env 0 ∅ r.1 := by
  have hmem : (ip, i) ∈ ({(ip, i)} : Multiset (Ip × Inum)) := Multiset.mem_singleton_self _
  have hlock : ip ∈ insert ip (∅ : Finset Ip) := by simp
  unfold undoLink
  refine (ilock_spec h).bind fun s hs => ?_
  obtain ⟨-, hs⟩ := hs
  rw [hs.inode hmem, update_self, hT.addLinks_undo hi]
  have hback := hs.iupdate (x := T i) hmem hlock hi fun hdir => by
    rw [update_self] at hdir
    exact hdir
  rw [update_idem, update_eq_self] at hback
  have hput : Safely _ (Leaves env 0 _) := Leaves.iunlockput ⟨T, hT, hback⟩ hlock
  refine hput.bind fun s' hs' => .ok ?_
  rw [insert_erase_empty] at hs'
  exact hs'.endOp

/-- **`link`.** -/
theorem sysLink_spec (hT : Tree T) (hcwd : env.cwd pr.cwd) (h : Busy env T 0 ∅ s)
    (old new : Path) : Safely (sysLink s pr old new) fun r => Leaves env 0 ∅ r.1 := by
  unfold sysLink
  refine (namei_spec hT.sound h.beginOp hcwd).bind ?_
  rintro ⟨s, _ | ip⟩ hfound
  · exact .ok ⟨T, hT, hfound.endOp⟩
  obtain ⟨i, hs, hnlink⟩ := hfound
  have hmem : (ip, i) ∈ (ip, i) ::ₘ (0 : Multiset (Ip × Inum)) := Multiset.mem_cons_self ..
  have hlock : ip ∈ insert ip (∅ : Finset Ip) := by simp
  have hi := hs.alloc hmem
  refine (ilock_spec hs).bind fun s hs => ?_
  obtain ⟨-, hs⟩ := hs
  rw [hs.inode hmem]
  refine .ite (fun _ => ?_) fun hnotdir => ?_
  · -- a directory gets no second link
    refine (iunlockput_linked hs hlock hnlink).bind fun s' hs' => .ok ⟨T, hT, ?_⟩
    rw [insert_erase_empty] at hs'
    exact hs'.endOp
  have hraised := hs.iupdate (x := (T i).addLinks 1) hmem hlock hi id
  refine (iunlock_spec hraised).bind fun s hs => ?_
  rw [insert_erase_empty] at hs
  have hsound := hT.sound_addLinks hi
  have hrest : ∀ j, j ≠ i → update T i ((T i).addLinks 1) j = T j := fun j hj =>
    update_of_ne hj ..
  refine (nameiparent_spec hsound hs hcwd).bind ?_
  rintro ⟨s, _ | ⟨dp, name⟩⟩ hparent
  · exact undoLink_spec hT hi hparent
  obtain ⟨d, hs, hd, -⟩ := hparent
  have hne : d ≠ i := by
    intro heq
    rw [heq, update_self] at hd
    exact hnotdir hd
  have hd' : (T d).type = .dir := by
    rw [hrest d hne] at hd
    exact hd
  have hmemd : (dp, d) ∈ (dp, d) ::ₘ (ip, i) ::ₘ (0 : Multiset (Ip × Inum)) :=
    Multiset.mem_cons_self ..
  have hlockd : dp ∈ insert dp (∅ : Finset Ip) := by simp
  refine (ilock_spec hs).bind fun s hs => ?_
  obtain ⟨-, hs⟩ := hs
  have hinum : s.inum ip = i := hs.inum (Multiset.mem_cons_of_mem (Multiset.mem_cons_self ..))
  rw [hinum]
  by_cases hfind : (update T i ((T i).addLinks 1) d).find name = none
  · -- the name is new: the entry is written
    refine (dirlink_absent hs hmemd hlockd hfind).bind ?_
    rintro ⟨s, linked⟩ ⟨hlinked, -, hfits, hs⟩
    obtain rfl : linked = true := hlinked
    dsimp only at hs ⊢
    rw [hrest d hne] at hfind hfits hs
    obtain ⟨htree, hdir, hlinked⟩ := hT.addLink hi hnotdir hd' hfind rfl hfits
    refine (iunlockput_linked hs hlockd (htree.sound.dir d hdir)).bind fun s hs => ?_
    rw [insert_erase_empty] at hs
    exact (iput_linked hs hlinked).bind fun s hs => .ok ⟨_, htree, hs.endOp⟩
  · refine (dirlink_present hs hmemd hfind hsound hd).bind ?_
    rintro ⟨s, linked⟩ ⟨hlinked, hs⟩
    obtain rfl : linked = false := hlinked
    dsimp only at hs ⊢
    refine (iunlockput_linked hs hlockd (hsound.dir d hd)).bind fun s hs => ?_
    rw [insert_erase_empty] at hs
    exact undoLink_spec hT hi hs

end Link

/-! ### Unlink -/

/-- The inode whose entry `unlink` would clear: the one that the path leads to, unless its last
name is `.` or `..`. -/
def unlinkTarget (s : State) (cwd : Ip) (path : Path) : Option Inum :=
  match (elements '/' path).getLast? with
  | none => none
  | some name =>
    if name = dot ∨ name = dotdot then none
    else walk s.inodes (start s cwd path) (elements '/' path)

section Unlink

variable {env : Env} {s : State} {T : Inum → Dinode} {dp ip : Ip} {d i : Inum} {pr : Proc}
  {name : Name} {off : ℕ}

/-- The inodes after the entry for a file is cleared, and the count lowered. -/
theorem Tree.unlinkFile (h : Tree T) (hd : (T d).type = .dir) (hi : (T i).type ≠ .dir)
    (hfind : (T d).find name = some (i, off)) (hdot : ¬(name = dot ∨ name = dotdot)) :
    Tree (update (update T d (withoutEntry (T d) (T i) off)) i
      ((T i).addLinks (-1))) ∧ (withoutEntry (T d) (T i) off).nlink ≠ 0 := by
  obtain ⟨hoff, hi0⟩ := find_eq_some hfind
  obtain ⟨hdot, hdotdot⟩ := not_or.mp hdot
  have halloc := (h.named hd (List.mem_of_getElem? hoff) hi0).1
  have hne : d ≠ i := by
    rintro rfl
    exact hi hd
  have hentry : withoutEntry (T d) (T i) off = (T d).clearEntry off := if_neg hi
  have hlinks : (T i).addLinks (-1) = { T i with nlink := (T i).nlink - 1 } := by
    show { T i with nlink := ((T i).addLinks (-1)).nlink } = _
    rw [h.addLinks halloc (by omega)]
    rfl
  rw [hentry]
  refine ⟨?_, h.sound.dir d hd⟩
  refine h.removeFile hd hi0 hi hoff hdot hdotdot ?_ ?_ fun j hji hjd => ?_
  · rw [update_of_ne hne, update_self]
  · rw [update_self, hlinks]
  · rw [update_of_ne hji, update_of_ne hjd]

/-- The inodes after the entry for an empty directory is cleared, and the directory freed. -/
theorem Tree.unlinkDir (h : Tree T) (hd : (T d).type = .dir) (hi : (T i).type = .dir)
    (hempty : (T i).isdirempty = true) (hfind : (T d).find name = some (i, off))
    (hdot : ¬(name = dot ∨ name = dotdot)) :
    d ≠ i ∧ ((T i).addLinks (-1)).nlink = 0 ∧ (withoutEntry (T d) (T i) off).nlink ≠ 0 ∧
      Tree (update (update T d (withoutEntry (T d) (T i) off)) i
        ((T i).addLinks (-1)).freed) := by
  obtain ⟨hoff, hi0⟩ := find_eq_some hfind
  obtain ⟨hdot, hdotdot⟩ := not_or.mp hdot
  obtain ⟨k, -, hk⟩ := mem_children h hd hoff hdot hdotdot
  have hmem : (⟨i, name⟩ : Dirent) ∈ (T d).children := List.mem_of_getElem? hk
  have hne : d ≠ i := by
    rintro rfl
    have hpos : 0 < holding d (T d).children := holding_pos_iff.mpr ⟨_, hmem, rfl⟩
    rw [holding_of_isdirempty hempty hi0] at hpos
    cases hpos
  have halloc : ∀ {j : Inum}, (T j).type = .dir → (T j).type ≠ .free := by
    intro j hj
    rw [hj]
    decide
  have hentry : withoutEntry (T d) (T i) off = ((T d).clearEntry off).addLinks (-1) := if_pos hi
  have hnlink : (((T d).clearEntry off).addLinks (-1)).nlink = (T d).nlink - 1 :=
    h.addLinks (halloc hd) (by omega)
  have hself : (update (update T d (withoutEntry (T d) (T i) off)) i
      ((T i).addLinks (-1)).freed) d = ((T d).clearEntry off).addLinks (-1) := by
    rw [update_of_ne hne, update_self, hentry]
  have htree : Tree (update (update T d (withoutEntry (T d) (T i) off)) i
      ((T i).addLinks (-1)).freed) := by
    refine h.removeDir hd hi hempty hoff hdot hdotdot ?_ ?_ ?_ ?_ ?_ fun j hji hjd => ?_
    · rw [hself]
      exact hd
    · rw [hself]
      rfl
    · rw [hself]
      rfl
    · rw [hself, hnlink]
    · rw [update_self]
      rfl
    · rw [update_of_ne hji, update_of_ne hjd]
  refine ⟨hne, ?_, ?_, htree⟩
  · rw [h.addLinks (halloc hi) (by omega), h.nlink i (halloc hi),
      h.links_of_isdirempty hd hi hmem rfl hempty]
    rfl
  · -- the parent still has its own entry
    have hdir := htree.sound.dir d
    rw [hself] at hdir
    rw [hentry]
    exact hdir hd

theorem unlinkFails_spec (hT : Tree T) (h : Busy env T {(dp, d)} {dp} s)
    (hd : (T d).type = .dir) : Safely (unlinkFails s dp) fun r => Leaves env 0 ∅ r.1 := by
  have hheld : Busy env T ((dp, d) ::ₘ 0) {dp} s := h
  refine (iunlockput_linked hheld (by simp) (hT.sound.dir d hd)).bind fun s' hs' => .ok ⟨T, hT, ?_⟩
  rw [Finset.erase_singleton] at hs'
  exact hs'.endOp

/-- **`unlink`**, of a file or of a directory that is not in use. -/
theorem sysUnlink_spec (hT : Tree T) (hcwd : env.cwd pr.cwd) (h : Busy env T 0 ∅ s) (path : Path)
    (hquiet : ∀ i, unlinkTarget s pr.cwd path = some i → (T i).type = .dir →
      (T i).isdirempty = true → ¬env.inUse i) :
    Safely (sysUnlink s pr path) fun r => Leaves env 0 ∅ r.1 := by
  have hinodes := h.inodes
  unfold sysUnlink
  refine (nameiparent_spec hT.sound h.beginOp hcwd).bind ?_
  rintro ⟨s₁, _ | ⟨dp, name⟩⟩ hparent
  · exact .ok ⟨T, hT, hparent.endOp⟩
  obtain ⟨d, hs, hd, pre, hnames, hwalk⟩ := hparent
  have hmemd : (dp, d) ∈ (dp, d) ::ₘ (0 : Multiset (Ip × Inum)) := Multiset.mem_cons_self ..
  refine (ilock_spec hs).bind fun s₂ hs => ?_
  obtain ⟨-, hs⟩ := hs
  refine .ite (fun _ => unlinkFails_spec hT hs hd) fun hdot => ?_
  refine (dirlookup_spec hs hmemd fun j off hsome => (hT.sound.find hd hsome).1).bind ?_
  rintro ⟨s₃, _ | ⟨ip, off⟩⟩ ⟨-, hlooked⟩
  · exact unlinkFails_spec hT hlooked.2 hd
  obtain ⟨i, hfind, hs⟩ := hlooked
  -- this is the inode that the whole path leads to
  have htarget : unlinkTarget s pr.cwd path = some i := by
    have hlast : (elements '/' path).getLast? = some name := by
      rw [hnames]
      exact List.getLast?_concat
    have hstep : walk T d [name] = some i := (walk_cons [] hd hfind).trans rfl
    unfold unlinkTarget
    rw [hlast]
    dsimp only
    rw [if_neg hdot, hinodes, hnames, walk_append]
    exact (congrArg (·.bind fun j => walk T j [name]) hwalk).trans hstep
  have hmem : (ip, i) ∈ (ip, i) ::ₘ (dp, d) ::ₘ (0 : Multiset (Ip × Inum)) :=
    Multiset.mem_cons_self ..
  have hmemd' : (dp, d) ∈ (ip, i) ::ₘ (dp, d) ::ₘ (0 : Multiset (Ip × Inum)) :=
    Multiset.mem_cons_of_mem hmemd
  refine (ilock_spec hs).bind fun s₄ hs => ?_
  obtain ⟨hip, hs⟩ := hs
  have hipdp : ip ≠ dp := by
    rintro rfl
    exact hip (by simp)
  have hlock : ip ∈ insert ip (insert dp (∅ : Finset Ip)) := by simp
  have hlockd : dp ∈ insert ip (insert dp (∅ : Finset Ip)) := by simp
  have herase : (insert ip (insert dp (∅ : Finset Ip))).erase ip = {dp} := by
    rw [Finset.erase_insert]
    · rfl
    · simpa using hipdp
  have herased : (insert ip (insert dp (∅ : Finset Ip))).erase dp = {ip} := by
    rw [Finset.erase_insert_of_ne hipdp]
    simp
  rw [hs.inode hmem]
  refine .ite (fun _ => .error (by decide)) fun _ => .ite (fun hfull => ?_) fun hgo => ?_
  · -- the directory is not empty
    refine (iunlockput_linked hs hlock (hT.sound.dir i hfull.1)).bind fun s₅ hs => ?_
    rw [herase] at hs
    exact unlinkFails_spec hT hs hd
  rw [hs.inode hmemd']
  have hnlinkd : (withoutEntry (T d) (T i) off).nlink ≠ 0 := by
    by_cases hi : (T i).type = .dir
    · have hempty : (T i).isdirempty = true := by simpa [hi] using hgo
      exact (hT.unlinkDir hd hi hempty hfind hdot).2.2.1
    · exact (hT.unlinkFile hd hi hfind hdot).2
  have hwithout : (withoutEntry (T d) (T i) off).type = .dir := by
    unfold withoutEntry
    split <;> exact hd
  have hne : d ≠ i := by
    by_cases hi : (T i).type = .dir
    · have hempty : (T i).isdirempty = true := by simpa [hi] using hgo
      exact (hT.unlinkDir hd hi hempty hfind hdot).1
    · rintro rfl
      exact hi hd
  have hcleared := hs.iupdate (x := withoutEntry (T d) (T i) off) hmemd' hlockd
    (by rw [hwithout]; decide) fun _ => hwithout
  rw [Multiset.cons_swap] at hcleared
  refine (iunlockput_linked hcleared hlockd (by rw [update_self]; exact hnlinkd)).bind
    fun s₅ hs => ?_
  rw [herased] at hs
  have hmem' : (ip, i) ∈ (ip, i) ::ₘ (0 : Multiset (Ip × Inum)) := Multiset.mem_cons_self ..
  have hlock' : ip ∈ ({ip} : Finset Ip) := by simp
  rw [hs.inode hmem', update_of_ne hne.symm]
  have halloc : (T i).type ≠ .free := by
    have halloc := hs.alloc hmem'
    rw [update_of_ne hne.symm] at halloc
    exact halloc
  have hlowered := hs.iupdate (x := (T i).addLinks (-1)) hmem' hlock' halloc fun hdir => by
    rw [update_of_ne hne.symm] at hdir
    exact hdir
  refine (iunlockput_spec hlowered hlock').bind fun s₆ hs => .ok ?_
  rw [Finset.erase_singleton] at hs
  by_cases hi : (T i).type = .dir
  · -- nobody else holds the directory, so it is freed here
    have hempty : (T i).isdirempty = true := by simpa [hi] using hgo
    obtain ⟨-, hzero, -, htree⟩ := hT.unlinkDir hd hi hempty hfind hdot
    have hold := hlowered.entry ip
    rw [refs_cons_self, refs_zero] at hold
    have hcount := hold.count
    have href : ((s₅.iupdate ip ((T i).addLinks (-1))).icache ip).ref = 1 := by
      by_contra hmore
      have huse := (hold.others (by push_cast at hcount ⊢; omega)).1
      have hinum : ((s₅.iupdate ip ((T i).addLinks (-1))).icache ip).inum = i :=
        hlowered.inum hmem'
      rw [hinum] at huse
      exact hquiet i htarget hi hempty huse
    rw [dropped, update_self, href, if_pos ⟨hzero, rfl⟩, update_idem] at hs
    exact ⟨_, htree, hs.endOp⟩
  · exact ⟨_, (hT.unlinkFile hd hi hfind hdot).1.dropped _, hs.endOp⟩

end Unlink

/-! ### New inodes -/

section Create

variable {env : Env} {s : State} {T : Inum → Dinode} {loc : Multiset (Ip × Inum)}
  {locks : Finset Ip} {dp ip cwd : Ip} {d i : Inum} {pr : Proc} {type : IType} {major minor : ℤ}

/-- A new inode of the type, before its entry is written: the tables agree elsewhere. -/
structure Initialised (T T' : Inum → Dinode) (d i : Inum) (type : IType) : Prop where
  rest : ∀ j, j ≠ i → j ≠ d → T' j = T j
  fits : used T ≤ nblocks → used T' ≤ nblocks
  itype : (T' i).type = type
  nlink : (T' i).nlink = 1
  file : type ≠ .dir → T' d = T d
  dots : type = .dir → (T' i).dirents = [⟨i, dot⟩, ⟨d, dotdot⟩]
  parent : type = .dir → T' d = (T d).addLinks 1

/-- The entries of a new directory. -/
theorem linkDots_spec (h : Busy env T loc locks s) (hmem : (ip, i) ∈ loc) (hmemd : (dp, d) ∈ loc)
    (hlock : ip ∈ locks) (hlockd : dp ∈ locks) (hne : i ≠ d) (hi0 : i ≠ 0)
    (hi : (T i).type = .dir) (hnlink : (T i).nlink = 1) (hdirents : (T i).dirents = []) :
    Safely (linkDots s dp ip) fun s' =>
      ∃ T', Initialised T T' d i .dir ∧ Busy env T' loc locks s' := by
  unfold linkDots
  rw [h.inode hmemd, h.inum hmem]
  have hraised := h.iupdate (x := (T d).addLinks 1) hmemd hlockd (h.alloc hmemd) id
  set T₁ := update T d ((T d).addLinks 1) with hT₁
  have hself₁ : T₁ i = T i := update_of_ne hne ..
  have hfind₁ : (T₁ i).find dot = none := by
    rw [hself₁, Dinode.find, hdirents]
    rfl
  refine (dirlink_absent hraised hmem hlock hfind₁).bind ?_
  rintro ⟨s, linked⟩ ⟨hlinked, -, hfits₁, hs⟩
  obtain rfl : linked = true := hlinked
  dsimp only at hs ⊢
  rw [hself₁] at hs hfits₁
  rw [if_pos rfl, hs.inum hmemd]
  set T₂ := update T₁ i ((T i).addEntry ⟨i, dot⟩) with hT₂
  have hself₂ : T₂ i = (T i).addEntry ⟨i, dot⟩ := update_self ..
  have hdirents₂ : (T₂ i).dirents = [⟨i, dot⟩] := by
    rw [hself₂, Dinode.addEntry, hdirents]
    rfl
  have hfind₂ : (T₂ i).find dotdot = none := by
    rw [Dinode.find, hdirents₂]
    have hne : dot ≠ dotdot := by decide
    simp [Dirent.named, hne]
  refine (dirlink_absent hs hmem hlock hfind₂).bind ?_
  rintro ⟨s, linked⟩ ⟨hlinked, -, hfits₂, hs⟩
  obtain rfl : linked = true := hlinked
  dsimp only at hs ⊢
  rw [if_pos rfl]
  refine .ok ⟨_, ?_, hs⟩
  have hd' : update T₂ i ((T₂ i).addEntry ⟨d, dotdot⟩) d = (T d).addLinks 1 := by
    rw [update_of_ne hne.symm, hT₂, update_of_ne hne.symm, hT₁,
      update_self]
  exact {
    rest := fun j hji hjd => by
      rw [update_of_ne hji, hT₂, update_of_ne hji, hT₁,
        update_of_ne hjd]
    fits := fun hfits => hfits₂ (hfits₁ ((used_update (x := (T d).addLinks 1) rfl).trans_le hfits))
    itype := by
      rw [update_self, hself₂]
      exact hi
    nlink := by
      rw [update_self, hself₂]
      exact hnlink
    file := fun hnot => absurd rfl hnot
    dots := fun _ => by
      rw [update_self]
      show place ⟨d, dotdot⟩ (T₂ i).dirents = _
      rw [hdirents₂, place, if_neg hi0]
      rfl
    parent := fun _ => hd' }

theorem initInode_spec (h : Busy env T loc locks s) (hmem : (ip, i) ∈ loc) (hmemd : (dp, d) ∈ loc)
    (hlock : ip ∈ locks) (hlockd : dp ∈ locks) (hne : i ≠ d) (hi0 : i ≠ 0)
    (hi : T i = ⟨type, 0, 0, 0, [], 0⟩) :
    Safely (initInode s dp ip type major minor) fun s' =>
      ∃ T', Initialised T T' d i type ∧ Busy env T' loc locks s' := by
  have hdir : (T i).type = type := by rw [hi]
  unfold initInode
  rw [h.inode hmem]
  have hset := h.iupdate
    (x := { T i with major := short major, minor := short minor, nlink := 1 }) hmem hlock
    (h.alloc hmem) id
  have hself := update_self i
    ({ T i with major := short major, minor := short minor, nlink := 1 } : Dinode) T
  set T₁ := update T i
    ({ T i with major := short major, minor := short minor, nlink := 1 } : Dinode) with hT₁
  have hused : used T₁ = used T := used_update rfl
  have hrest : ∀ j, j ≠ i → T₁ j = T j := fun j hj => update_of_ne hj ..
  dsimp only
  refine .ite (fun htype => ?_) fun htype => .ok ⟨T₁, ?_, hset⟩
  · subst htype
    refine (linkDots_spec hset hmem hmemd hlock hlockd hne hi0 ?_ ?_ ?_).mono ?_
    · rw [hself]
      exact hdir
    · rw [hself]
    · rw [hself, hi]
    rintro s' ⟨T', hinit, hs'⟩
    refine ⟨T', ?_, hs'⟩
    exact {
      rest := fun j hji hjd => (hinit.rest j hji hjd).trans (hrest j hji)
      fits := fun hfits => hinit.fits (hused.trans_le hfits)
      itype := hinit.itype
      nlink := hinit.nlink
      file := fun hnot => absurd rfl hnot
      dots := hinit.dots
      parent := fun hdir => by rw [hinit.parent hdir, hrest d hne.symm] }
  · exact {
      rest := fun j hji _ => hrest j hji
      fits := fun hfits => hused.trans_le hfits
      itype := by
        rw [hself]
        exact hdir
      nlink := by rw [hself]
      file := fun _ => hrest d hne.symm
      dots := fun hdir => absurd hdir htype
      parent := fun hdir => absurd hdir htype }

/-- The new inode gets its entry. -/
theorem Tree.create {T' : Inum → Dinode} {name : Name} (h : Tree T) (hd : (T d).type = .dir)
    (hi0 : i ≠ 0) (hi : (T i).type = .free) (htype : type ≠ .free)
    (hfind : (T d).find name = none)
    (hinit : Initialised (update T i ⟨type, 0, 0, 0, [], 0⟩) T' d i type)
    (hfits : used T' ≤ nblocks →
      used (update T' d ((T' d).addEntry ⟨i, name⟩)) ≤ nblocks) :
    Tree (update T' d ((T' d).addEntry ⟨i, name⟩)) := by
  have hne : i ≠ d := by
    rintro rfl
    rw [hi] at hd
    cases hd
  have hdot := h.name_ne_dot hd hfind
  have hblank : used (update T i ⟨type, 0, 0, 0, [], 0⟩) ≤ nblocks := by
    rw [used_update]
    · exact h.fits
    · rw [Dinode.blocks, Dinode.blocks, hi]
      cases type <;> rfl
  have hagree : ∀ j, j ≠ i → j ≠ d →
      update T' d ((T' d).addEntry ⟨i, name⟩) j = T j := by
    intro j hji hjd
    rw [update_of_ne hjd, hinit.rest j hji hjd, update_of_ne hji]
  have hself : update T' d ((T' d).addEntry ⟨i, name⟩) i = T' i :=
    update_of_ne hne ..
  have hselfd : update T' d ((T' d).addEntry ⟨i, name⟩) d =
      (T' d).addEntry ⟨i, name⟩ := update_self ..
  have hold : update T i ⟨type, 0, 0, 0, [], 0⟩ d = T d :=
    update_of_ne hne.symm ..
  have halloc : (T d).type ≠ .free := by
    rw [hd]
    decide
  by_cases hdir : type = .dir
  · have hd' : T' d = (T d).addLinks 1 := (hinit.parent hdir).trans (by rw [hold])
    refine h.addDir hd hi0 hi hdot ?_ ?_ ?_ ?_ ?_ ?_ hagree (hfits (hinit.fits hblank))
    · rw [hselfd, hd']
      exact hd
    · rw [hselfd, hd']
      rfl
    · rw [hselfd, hd']
      exact h.addLinks halloc (by omega)
    · rw [hself, hinit.itype, hdir]
    · rw [hself]
      exact hinit.dots hdir
    · rw [hself]
      exact hinit.nlink
  · have hd' : T' d = T d := (hinit.file hdir).trans hold
    refine h.addFile hd hi0 (by rw [hi]; decide) hdot ?_ ?_ ?_ ?_ hagree (hfits (hinit.fits hblank))
    · rw [hselfd, hd']
    · rw [hself, hinit.itype]
      exact hdir
    · rw [hself, hinit.itype]
      exact htype
    · rw [hself, hinit.nlink, h.links_free hi0 hi]
      rfl

/-- What `create` and the first part of `sys_open` return: nothing, or an inode with links, which is
locked. -/
def Opened (env : Env) (r : State × Option Ip) : Prop :=
  match r.2 with
  | none => Leaves env 0 ∅ r.1
  | some ip => ∃ T i, Tree T ∧ (T i).nlink ≠ 0 ∧ Busy env T {(ip, i)} {ip} r.1

/-- **`create`.** -/
theorem create_spec (hT : Tree T) (hcwd : env.cwd cwd) (h : Busy env T 0 ∅ s) (path : Path)
    (htype : type ≠ .free) : Safely (create s cwd path type major minor) (Opened env) := by
  unfold create
  refine (nameiparent_spec hT.sound h hcwd).bind ?_
  rintro ⟨s, _ | ⟨dp, name⟩⟩ hparent
  · exact .ok ⟨T, hT, hparent⟩
  obtain ⟨d, hs, hd, -⟩ := hparent
  have hmemd : (dp, d) ∈ (dp, d) ::ₘ (0 : Multiset (Ip × Inum)) := Multiset.mem_cons_self ..
  have hlockd : dp ∈ insert dp (∅ : Finset Ip) := by simp
  refine (ilock_spec hs).bind fun s hs => ?_
  obtain ⟨-, hs⟩ := hs
  refine (dirlookup_spec hs hmemd fun j off hsome => (hT.sound.find hd hsome).1).bind ?_
  rintro ⟨s, _ | ⟨ip, off⟩⟩ ⟨-, hlooked⟩
  · -- a new inode
    obtain ⟨hfind, hs⟩ := hlooked
    refine (ialloc_spec hs htype).bind ?_
    rintro ⟨s, ip⟩ ⟨i, hi0, hi, hs⟩
    have hne : i ≠ d := by
      rintro rfl
      rw [hi] at hd
      cases hd
    have hmem : (ip, i) ∈ (ip, i) ::ₘ (dp, d) ::ₘ (0 : Multiset (Ip × Inum)) :=
      Multiset.mem_cons_self ..
    have hmemd' : (dp, d) ∈ (ip, i) ::ₘ (dp, d) ::ₘ (0 : Multiset (Ip × Inum)) :=
      Multiset.mem_cons_of_mem hmemd
    refine (ilock_spec hs).bind fun s hs => ?_
    obtain ⟨hip, hs⟩ := hs
    have hipdp : ip ≠ dp := by
      rintro rfl
      exact hip (by simp)
    have hlock : ip ∈ insert ip (insert dp (∅ : Finset Ip)) := by simp
    have hlockd' : dp ∈ insert ip (insert dp (∅ : Finset Ip)) := by simp
    refine (initInode_spec hs hmem hmemd' hlock hlockd' hne hi0
      (update_self ..)).bind ?_
    rintro s ⟨T', hinit, hs⟩
    -- the entries of the parent are those that were searched
    have hfind' : (T' d).find name = none := by
      have hold : update T i ⟨type, 0, 0, 0, [], 0⟩ d = T d :=
        update_of_ne hne.symm ..
      by_cases hdir : type = .dir
      · rw [hinit.parent hdir, hold]
        exact hfind
      · rw [hinit.file hdir, hold]
        exact hfind
    rw [hs.inum hmem]
    refine (dirlink_absent hs hmemd' hlockd' hfind').bind ?_
    rintro ⟨s, linked⟩ ⟨hlinked, hd', hfits, hs⟩
    obtain rfl : linked = true := hlinked
    dsimp only at hs ⊢
    rw [if_pos rfl]
    have htree := hT.create hd hi0 hi htype hfind hinit hfits
    rw [Multiset.cons_swap] at hs
    refine (iunlockput_linked hs hlockd' (htree.sound.dir d ?_)).bind fun s hs => .ok ?_
    · rw [update_self]
      exact hd'
    have herase : (insert ip (insert dp (∅ : Finset Ip))).erase dp = {ip} := by
      rw [Finset.erase_insert_of_ne hipdp]
      simp
    rw [herase] at hs
    refine ⟨_, i, htree, ?_, hs⟩
    rw [update_of_ne hne, hinit.nlink]
    decide
  · -- an inode of that name
    obtain ⟨i, hfind, hs⟩ := hlooked
    have hnlink := (hT.sound.find hd hfind).2
    dsimp only at hs ⊢
    rw [Multiset.cons_swap] at hs
    refine (iunlockput_linked hs hlockd (hT.sound.dir d hd)).bind fun s hs => ?_
    rw [insert_erase_empty] at hs
    refine (ilock_spec hs).bind fun s hs => ?_
    obtain ⟨-, hs⟩ := hs
    refine .ite (fun _ => .ok ⟨T, i, hT, hnlink, hs⟩) fun _ => ?_
    refine (iunlockput_linked hs (by simp) hnlink).bind fun s hs => .ok ⟨T, hT, ?_⟩
    rw [insert_erase_empty] at hs
    exact hs

/-- **`mkdir` and `mknod`.** -/
theorem createOnly_spec (hT : Tree T) (hcwd : env.cwd pr.cwd) (h : Busy env T 0 ∅ s) (path : Path)
    (htype : type ≠ .free) :
    Safely (createOnly s pr path type major minor) fun r => Leaves env 0 ∅ r.1 := by
  unfold createOnly
  refine (create_spec hT hcwd h.beginOp path htype).bind ?_
  rintro ⟨s, _ | ip⟩ hopened
  · exact .ok (Leaves.endOp hopened)
  · obtain ⟨T', i, hT', -, hs⟩ := hopened
    have hput : Safely _ (Leaves env 0 _) := Leaves.iunlockput ⟨T', hT', hs⟩ (by simp)
    refine hput.bind fun s hs => .ok ?_
    rw [Finset.erase_singleton] at hs
    exact hs.endOp

/-- **The inode that `open` opens.** -/
theorem openInode_spec (hT : Tree T) (hcwd : env.cwd cwd) (h : Busy env T 0 ∅ s) (path : Path)
    (omode : BitVec 32) : Safely (openInode s cwd path omode) (Opened env) := by
  unfold openInode
  refine .ite (fun _ => create_spec hT hcwd h path (by decide)) fun _ => ?_
  refine (namei_spec hT.sound h hcwd).bind ?_
  rintro ⟨s, _ | ip⟩ hfound
  · exact .ok ⟨T, hT, hfound⟩
  obtain ⟨i, hs, hnlink⟩ := hfound
  refine (ilock_spec hs).bind fun s hs => ?_
  obtain ⟨-, hs⟩ := hs
  refine .ite (fun _ => ?_) fun _ => .ok ⟨T, i, hT, hnlink, hs⟩
  refine (iunlockput_linked hs (by simp) hnlink).bind fun s hs => .ok ⟨T, hT, ?_⟩
  rw [insert_erase_empty] at hs
  exact hs

end Create

end Xv6.Fs
