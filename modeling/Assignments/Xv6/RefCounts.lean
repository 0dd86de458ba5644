import Assignments.Xv6.SysFile

/-!
# References to inodes

Every reference that a function of the file system takes to an inode is dropped again, or returned
to its caller, on every path through it. The functions are followed by what is held: `Counted` says
that the reference count of each entry of the inode cache is `held`, and a function that takes a
reference adds one to it.

* `iget_counted`, `iput_counted` — a reference taken and dropped;
* `namex_counted` — a path lookup holds at most the inode it returns;
* `create_counted` — so does the creation of an inode;
* `sysLink_counted`, `sysUnlink_counted`, `createOnly_counted`, `exec_counted` — calls that hold
  nothing in the end.
-/

namespace Xv6.Fs

open Framework

/-! ### What a call holds -/

/-- One reference. -/
def one {ι : Type} [DecidableEq ι] (i : ι) : ι → ℕ := Pi.single i 1

@[simp] theorem one_self {ι : Type} [DecidableEq ι] (i : ι) : one i i = 1 :=
  Pi.single_eq_same i 1

@[simp] theorem one_of_ne {ι : Type} [DecidableEq ι] {i j : ι} (h : j ≠ i) : one i j = 0 :=
  Pi.single_eq_of_ne h 1

theorem one_apply {ι : Type} [DecidableEq ι] (i j : ι) : one i j = if i = j then 1 else 0 := by
  by_cases h : i = j
  · rw [if_pos h, h, one_self]
  · rw [if_neg h, one_of_ne (Ne.symm h)]

/-- The reference that a function returns, if it returns one. -/
def taken : Option Ip → Ip → ℕ
  | none => 0
  | some ip => one ip

@[simp] theorem add_taken_none (held : Ip → ℕ) : held + taken none = held := add_zero held

/-- **Inside a call** that began with the files and processes of `s₀`: every entry of the inode
cache has `held` references, and no two of those in use are for one inode. -/
structure Counted (s₀ : State) (held : Ip → ℕ) (ops : ℤ) (s : State) : Prop where
  files : s.files = s₀.files
  procs : s.procs = s₀.procs
  outstanding : s.outstanding = ops
  ref : ∀ ip, (s.icache ip).ref = held ip
  unique : ∀ ip ip', 0 < held ip → 0 < held ip' → s.inum ip = s.inum ip' → ip = ip'

/-- The result has `post`, whatever else may stop the kernel. -/
abbrev Returns {α : Type} (x : Except Stop α) (post : α → Prop) : Prop :=
  Ensures (fun _ => True) x post

namespace Counted

variable {s₀ s : State} {held held' : Ip → ℕ} {ops : ℤ} {ip : Ip}

section

variable (h : Counted s₀ held ops s)

include h

/-- An entry of the cache is replaced; it may only be for another inode if it was not in use. -/
theorem setEntry {e : Entry} (href : e.ref = held' ip) (hheld : ∀ q, q ≠ ip → held' q = held q)
    (hunique : ∀ q, q ≠ ip → 0 < held' ip → 0 < held q → e.inum ≠ s.inum q) :
    Counted s₀ held' ops (s.setEntry ip e) := by
  have hself : (s.setEntry ip e).icache ip = e := Function.update_self ..
  have hrest : ∀ q, q ≠ ip → (s.setEntry ip e).icache q = s.icache q := fun q hq =>
    Function.update_of_ne hq ..
  exact {
    files := h.files
    procs := h.procs
    outstanding := h.outstanding
    ref := by
      intro q
      by_cases hq : q = ip
      · rw [hq, hself, href]
      · rw [hrest q hq, hheld q hq, h.ref q]
    unique := by
      intro q q' hpos hpos' heq
      simp only [State.inum] at heq
      by_cases hq : q = ip <;> by_cases hq' : q' = ip
      · rw [hq, hq']
      · rw [hq, hself, hrest q' hq'] at heq
        rw [hheld q' hq'] at hpos'
        exact absurd heq (hunique q' hq' (hq ▸ hpos) hpos')
      · rw [hq', hself, hrest q hq] at heq
        rw [hheld q hq] at hpos
        exact absurd heq.symm (hunique q hq (hq' ▸ hpos') hpos)
      · rw [hrest q hq, hrest q' hq'] at heq
        rw [hheld q hq] at hpos
        rw [hheld q' hq'] at hpos'
        exact h.unique q q' hpos hpos' heq }

/-- The entry stays for the inode it is for. -/
theorem setCount {e : Entry} (href : e.ref = held' ip) (hheld : ∀ q, q ≠ ip → held' q = held q)
    (hinum : e.inum = s.inum ip) (hpos : 0 < held' ip → 0 < held ip) :
    Counted s₀ held' ops (s.setEntry ip e) :=
  h.setEntry href hheld fun q hq hip hheldq heq =>
    hq (h.unique ip q (hpos hip) hheldq (hinum.symm.trans heq)).symm

theorem setInode (i : Inum) (x : Dinode) :
    Counted s₀ held ops (s.setInode i x) :=
  { h with }

theorem beginOp : Counted s₀ held (ops + 1) (beginOp s) :=
  { h with outstanding := by rw [Fs.beginOp, h.outstanding] }

end

theorem endOp (h : Counted s₀ held (ops + 1) s) : Counted s₀ held ops (endOp s) :=
  { h with outstanding := by rw [Fs.endOp, h.outstanding, add_sub_cancel_right] }

end Counted

/-! ### The inode cache -/

section Cache

variable {s₀ s : State} {held : Ip → ℕ} {ops : ℤ} {ip : Ip} {i : Inum}

theorem cached_eq_some (h : s.cached i = some ip) : 0 < (s.icache ip).ref ∧ s.inum ip = i := by
  simpa using List.find?_some h

theorem cached_eq_none (h : s.cached i = none) (ip : Ip) (hpos : 0 < (s.icache ip).ref) :
    s.inum ip ≠ i := by
  have hnone := List.find?_eq_none.mp h ip (List.mem_finRange ip)
  intro heq
  exact hnone (decide_eq_true ⟨hpos, heq⟩)

theorem empty_eq_some (h : s.empty = some ip) : (s.icache ip).ref = 0 := by
  simpa using List.find?_some h

section

variable (h : Counted s₀ held ops s)

include h

theorem iget_counted :
    Returns (iget s i) fun r => Counted s₀ (held + one r.2) ops r.1 := by
  have hrest : ∀ {ip : Ip} (q : Ip), q ≠ ip → (held + one ip) q = held q := fun q hq => by
    simp [hq]
  unfold iget
  cases hcached : s.cached i with
  | some ip =>
    have hip := cached_eq_some hcached
    have href := h.ref ip
    refine .ok (h.setCount ?_ hrest rfl fun _ => by omega)
    show (s.icache ip).ref + 1 = _
    simp [href]
  | none =>
    dsimp only
    cases hempty : s.empty with
    | none => exact .error trivial
    | some ip =>
      have hzero := empty_eq_some hempty
      have href := h.ref ip
      have hheld : held ip = 0 := by omega
      refine .ok (h.setEntry ?_ hrest ?_)
      · simp [hheld]
      · -- no entry in use is for `i`
        intro q _ _ hpos heq
        have hrefq := h.ref q
        exact cached_eq_none hcached q (by omega) heq.symm

theorem idup_counted (hpos : 0 < held ip) :
    Counted s₀ (held + one ip) ops (idup s ip) := by
  refine h.setCount ?_ (fun q hq => by simp [hq]) rfl fun _ => hpos
  show (s.icache ip).ref + 1 = _
  simp [h.ref ip]

theorem ilock_counted : Returns (ilock s ip) (Counted s₀ held ops) := by
  unfold ilock
  refine .ite (fun _ => .error trivial) fun _ => .ite (fun _ => .error trivial) fun _ =>
    .ite (fun _ => .error trivial) fun _ => .ok ?_
  exact h.setCount (h.ref ip) (fun _ _ => rfl) rfl id

theorem iunlock_counted :
    Returns (iunlock s ip) (Counted s₀ held ops) := by
  unfold iunlock
  refine .ite (fun _ => .error trivial) fun _ => .ok ?_
  exact h.setCount (h.ref ip) (fun _ _ => rfl) rfl id

end

theorem iput_counted (h : Counted s₀ (held + one ip) ops s) :
    Returns (iput s ip) (Counted s₀ held ops) := by
  have href : (s.icache ip).ref = held ip + 1 := by
    rw [h.ref ip]
    simp
  have hrest : ∀ q, q ≠ ip → held q = (held + one ip) q := fun q hq => by simp [hq]
  unfold iput
  refine .ite (fun _ => .error trivial) fun _ => .ite (fun _ => .ok ?_) fun _ => .ok ?_
  · refine (h.setInode _ _).setCount ?_ hrest rfl fun _ => by simp
    show (s.icache ip).ref - 1 = _
    omega
  · refine h.setCount ?_ hrest rfl fun _ => by simp
    show (s.icache ip).ref - 1 = _
    omega

theorem iunlockput_counted (h : Counted s₀ (held + one ip) ops s) :
    Returns (iunlockput s ip) (Counted s₀ held ops) :=
  (iunlock_counted h).bind fun _ hs => iput_counted hs

theorem ialloc_counted (h : Counted s₀ held ops s) (type : IType) :
    Returns (ialloc s type) fun r => Counted s₀ (held + one r.2) ops r.1 := by
  unfold ialloc
  split
  · exact .error trivial
  · exact iget_counted (h.setInode _ _)

end Cache

/-! ### Directories and paths -/

section Paths

variable {s₀ s : State} {held : Ip → ℕ} {ops : ℤ} {dp ip cwd : Ip} {name : Name}

theorem dirlookup_counted (h : Counted s₀ held ops s) :
    Returns (dirlookup s dp name) fun r =>
      Counted s₀ (held + taken (r.2.map Prod.fst)) ops r.1 := by
  unfold dirlookup
  refine .ite (fun _ => .error trivial) fun _ => ?_
  split
  · exact .ok h
  · exact (iget_counted h).bind fun r hr => .ok hr

theorem writeDir_counted (h : Counted s₀ held ops s) (x : Dinode) :
    Returns (writeDir s dp x) (Counted s₀ held ops) := by
  unfold writeDir
  exact .ite (fun _ => .error trivial) fun _ => .ite (fun _ => .error trivial) fun _ =>
    .ok (h.setInode _ _)

theorem dirlink_counted (h : Counted s₀ held ops s) (i : Inum) :
    Returns (dirlink s dp name i) fun r => Counted s₀ held ops r.1 := by
  unfold dirlink
  refine (dirlookup_counted h).bind ?_
  rintro ⟨s, _ | ⟨ip, off⟩⟩ hs
  · exact (writeDir_counted hs _).bind fun s hs => .ok hs
  · exact (iput_counted hs).bind fun s hs => .ok hs

theorem namexLoop_counted {parent : Bool} {names : List Name}
    (h : Counted s₀ (held + one ip) ops s) :
    Returns (namexLoop parent s ip names) fun r =>
      Counted s₀ (held + taken (r.2.map Prod.fst)) ops r.1 := by
  induction names generalizing s ip with
  | nil =>
    unfold namexLoop
    refine .ite (fun _ => ?_) fun _ => .ok h
    exact (iput_counted h).bind fun s hs => .ok hs
  | cons name rest ih =>
    unfold namexLoop
    refine (ilock_counted h).bind fun s hs => ?_
    refine .ite (fun _ => ?_) fun _ => .ite (fun _ => ?_) fun _ => ?_
    · exact (iunlockput_counted hs).bind fun s hs => .ok hs
    · exact (iunlock_counted hs).bind fun s hs => .ok hs
    -- the reference to the next inode is taken before the one to this inode is dropped
    refine (dirlookup_counted hs).bind ?_
    rintro ⟨s, next⟩ hs
    dsimp only at hs ⊢
    rw [add_right_comm] at hs
    refine (iunlockput_counted hs).bind fun s hs => ?_
    cases next with
    | none => exact .ok hs
    | some next => exact ih hs

theorem namex_counted {path : Path} {parent : Bool} (h : Counted s₀ held ops s)
    (hcwd : 0 < held cwd) :
    Returns (namex s cwd path parent) fun r =>
      Counted s₀ (held + taken (r.2.map Prod.fst)) ops r.1 := by
  unfold namex
  refine .ite (fun _ => ?_) fun _ => namexLoop_counted (idup_counted h hcwd)
  exact (iget_counted h).bind fun r hr => namexLoop_counted hr

theorem namei_counted {path : Path} (h : Counted s₀ held ops s) (hcwd : 0 < held cwd) :
    Returns (namei s cwd path) fun r => Counted s₀ (held + taken r.2) ops r.1 :=
  (namex_counted h hcwd).bind fun _ hr => .ok hr

end Paths

/-! ### Links -/

section Links

variable {s₀ s : State} {held : Ip → ℕ} {ops : ℤ} {dp ip cwd : Ip}

theorem undoLink_counted (h : Counted s₀ (held + one ip) (ops + 1) s) :
    Returns (undoLink s ip) fun r => Counted s₀ held ops r.1 := by
  unfold undoLink
  refine (ilock_counted h).bind fun s hs => ?_
  exact (iunlockput_counted (hs.setInode _ _)).bind fun s hs => .ok hs.endOp

theorem sysLink_counted {pr : Proc} (h : Counted s₀ held ops s) (hcwd : 0 < held pr.cwd)
    (old new : Path) : Returns (sysLink s pr old new) fun r => Counted s₀ held ops r.1 := by
  unfold sysLink
  refine (namei_counted h.beginOp hcwd).bind ?_
  rintro ⟨s, _ | ip⟩ hs
  · exact .ok hs.endOp
  have hcwd' : 0 < (held + one ip) pr.cwd := Nat.add_pos_left hcwd _
  refine (ilock_counted hs).bind fun s hs => .ite (fun _ => ?_) fun _ => ?_
  · exact (iunlockput_counted hs).bind fun s hs => .ok hs.endOp
  refine (iunlock_counted (hs.setInode _ _)).bind fun s hs => ?_
  refine (namex_counted hs hcwd').bind ?_
  rintro ⟨s, _ | ⟨dp, name⟩⟩ hs
  · exact undoLink_counted hs
  refine (ilock_counted hs).bind fun s hs => (dirlink_counted hs _).bind ?_
  rintro ⟨s, linked⟩ hs
  refine (iunlockput_counted hs).bind fun s hs => .ite (fun _ => ?_) fun _ => undoLink_counted hs
  exact (iput_counted hs).bind fun s hs => .ok hs.endOp

theorem unlinkFails_counted (h : Counted s₀ (held + one dp) (ops + 1) s) :
    Returns (unlinkFails s dp) fun r => Counted s₀ held ops r.1 :=
  (iunlockput_counted h).bind fun _ hs => .ok hs.endOp

variable (h : Counted s₀ held ops s)

include h

theorem sysUnlink_counted {pr : Proc} (hcwd : 0 < held pr.cwd) (path : Path) :
    Returns (sysUnlink s pr path) fun r => Counted s₀ held ops r.1 := by
  unfold sysUnlink
  refine (namex_counted h.beginOp hcwd).bind ?_
  rintro ⟨s, _ | ⟨dp, name⟩⟩ hs
  · exact .ok hs.endOp
  refine (ilock_counted hs).bind fun s hs => .ite (fun _ => unlinkFails_counted hs) fun _ => ?_
  refine (dirlookup_counted hs).bind ?_
  rintro ⟨s, _ | ⟨ip, off⟩⟩ hs
  · exact unlinkFails_counted hs
  refine (ilock_counted hs).bind fun s hs => .ite (fun _ => .error trivial) fun _ =>
    .ite (fun _ => ?_) fun _ => ?_
  · exact (iunlockput_counted hs).bind fun s hs => unlinkFails_counted hs
  -- here the parent is given back first
  have hs : Counted s₀ (held + one ip + one dp) (ops + 1) s := by
    rw [add_right_comm]
    exact hs
  refine (iunlockput_counted (hs.setInode _ _)).bind fun s hs => ?_
  exact (iunlockput_counted (hs.setInode _ _)).bind fun s hs => .ok hs.endOp

theorem linkDots_counted : Returns (linkDots s dp ip) (Counted s₀ held ops) := by
  unfold linkDots
  refine (dirlink_counted (h.setInode _ _) _).bind ?_
  rintro ⟨s, linked⟩ hs
  refine .ite (fun _ => ?_) fun _ => .error trivial
  refine (dirlink_counted hs _).bind ?_
  rintro ⟨s, linked⟩ hs
  exact .ite (fun _ => .ok hs) fun _ => .error trivial

theorem initInode_counted {type : IType} {major minor : ℤ} :
    Returns (initInode s dp ip type major minor) (Counted s₀ held ops) := by
  unfold initInode
  exact .ite (fun _ => linkDots_counted (h.setInode _ _)) fun _ => .ok (h.setInode _ _)

theorem create_counted (hcwd : 0 < held cwd) {path : Path} {type : IType} {major minor : ℤ} :
    Returns (create s cwd path type major minor) fun r =>
      Counted s₀ (held + taken r.2) ops r.1 := by
  unfold create
  refine (namex_counted h hcwd).bind ?_
  rintro ⟨s, _ | ⟨dp, name⟩⟩ hs
  · exact .ok hs
  refine (ilock_counted hs).bind fun s hs => (dirlookup_counted hs).bind ?_
  rintro ⟨s, _ | ⟨ip, off⟩⟩ hs
  · -- a new inode
    refine (ialloc_counted hs type).bind ?_
    rintro ⟨s, ip⟩ hs
    refine (ilock_counted hs).bind fun s hs => ?_
    refine (initInode_counted hs).bind fun s hs => (dirlink_counted hs _).bind ?_
    rintro ⟨s, linked⟩ hs
    have hs : Counted s₀ (held + one ip + one dp) ops s := by
      rw [add_right_comm]
      exact hs
    refine .ite (fun _ => ?_) fun _ => .error trivial
    exact (iunlockput_counted hs).bind fun s hs => .ok hs
  · have hs : Counted s₀ (held + one ip + one dp) ops s := by
      rw [add_right_comm]
      exact hs
    refine (iunlockput_counted hs).bind fun s hs => (ilock_counted hs).bind fun s hs => ?_
    refine .ite (fun _ => .ok hs) fun _ => ?_
    exact (iunlockput_counted hs).bind fun s hs => .ok hs

theorem createOnly_counted {pr : Proc} (hcwd : 0 < held pr.cwd) (path : Path) (type : IType)
    (major minor : ℤ) :
    Returns (createOnly s pr path type major minor) fun r => Counted s₀ held ops r.1 := by
  unfold createOnly
  refine (create_counted h.beginOp hcwd).bind ?_
  rintro ⟨s, _ | ip⟩ hs
  · exact .ok hs.endOp
  · exact (iunlockput_counted hs).bind fun s hs => .ok hs.endOp

theorem openInode_counted (hcwd : 0 < held cwd) {path : Path} {omode : BitVec 32} :
    Returns (openInode s cwd path omode) fun r => Counted s₀ (held + taken r.2) ops r.1 := by
  unfold openInode
  refine .ite (fun _ => create_counted h hcwd) fun _ => ?_
  refine (namei_counted h hcwd).bind ?_
  rintro ⟨s, _ | ip⟩ hs
  · exact .ok hs
  refine (ilock_counted hs).bind fun s hs => .ite (fun _ => ?_) fun _ => .ok hs
  exact (iunlockput_counted hs).bind fun s hs => .ok hs

theorem exec_counted {pr : Proc} (hcwd : 0 < held pr.cwd) (path : Path) (segments stack : Bool) :
    Returns (exec s pr path segments stack) fun r => Counted s₀ held ops r.1 := by
  unfold exec
  refine (namei_counted h.beginOp hcwd).bind ?_
  rintro ⟨s, _ | ip⟩ hs
  · exact .ok hs.endOp
  refine (ilock_counted hs).bind fun s hs => .ite (fun _ => ?_) fun _ => ?_
  · exact (iunlockput_counted hs).bind fun s hs => .ok hs.endOp
  refine (iunlockput_counted hs).bind fun s hs => .ite (fun _ => ?_) fun _ => ?_
  · exact .ok hs.endOp
  · exact .ok hs.endOp

end Links

end Xv6.Fs
