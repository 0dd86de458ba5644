import Assignments.Xv6.OpenFiles
import Assignments.Xv6.SysLinks

/-!
# Consistency of the file system between system calls

Every call leaves a consistent file system behind, as long as no directory is removed that somebody
has as working directory or open (`Quiet`). Such a directory would keep its entry `..` while the
parent no longer counts it, and the parent can be removed in its turn.

* `syscall_consistent` — one call;
* `run_consistent` — a sequence of calls;
* `no_dangling` — every entry in use names an allocated inode, and `ilock` never finds an inode
  without a type.
-/

namespace Xv6.Fs

open Framework Function

/-! ### Between calls -/

/-- What a call that begins in `s` leaves alone. -/
def State.env (s : State) (lost : Inum → Prop) : Env where
  cwd := fun q => 0 < cwds s.procs q
  inUse := fun i => ∃ q, 0 < (s.icache q).ref ∧ s.inum q = i
  lost := lost

/-- The inodes and the inode cache between calls. -/
structure Sane (lost : Inum → Prop) (s : State) : Prop where
  tree : Tree s.inodes
  busy : Busy (s.env lost) s.inodes 0 ∅ s

/-- **Between calls.** Of the inodes without links, those that are not in use are `lost`. -/
structure Consistent (lost : Inum → Prop) (s : State) : Prop where
  exact : Exact s
  sane : Sane lost s

section Settle

variable {env : Env} {s : State} {T : Inum → Dinode} {loc : Multiset (Ip × Inum)}
  {locks : Finset Ip} {lost : Inum → Prop}

theorem exists_mem_of_refs_pos {q : Ip} (h : 0 < refs loc q) : ∃ i, (q, i) ∈ loc := by
  obtain ⟨r, hr, rfl⟩ := Multiset.mem_map.mp (Multiset.count_pos.mp h)
  exact ⟨r.2, hr⟩

/-- **The end of a call.** What the call still holds is held from now on by a file or as a working
directory. -/
theorem Busy.settle (h : Busy env T loc ∅ s) (hT : Tree T)
    (hnlink : ∀ r ∈ loc, (T r.2).nlink ≠ 0)
    (hcwd : ∀ q, 0 < cwds s.procs q → env.cwd q ∨ ∃ i, (q, i) ∈ loc ∧ (T i).type = .dir) :
    Sane env.lost s := by
  have hinodes := h.inodes
  subst hinodes
  refine ⟨hT, rfl, h.unique, by simp, fun q => ?_, h.kept⟩
  have hold := h.entry q
  have hcount := hold.count
  exact {
    count := by
      rw [refs_zero]
      push_cast
      omega
    locked := hold.locked
    valid := hold.valid
    alloc := hold.alloc
    others := by
      intro hpos
      rw [refs_zero] at hpos
      refine ⟨⟨q, hpos, rfl⟩, fun hzero => ?_⟩
      by_cases hmine : (refs loc q : ℤ) < (s.icache q).ref
      · exact (hold.others hmine).2 hzero
      · -- all references are the call's own, and those are to inodes with links
        have hown : 0 < refs loc q := by
          push_cast at hpos
          omega
        obtain ⟨i, hi⟩ := exists_mem_of_refs_pos hown
        have hlinked := hnlink _ hi
        rw [show (s.icache q).inum = i from h.inum hi] at hzero
        exact absurd hzero hlinked
    cwd := by
      intro hc
      rw [refs_zero]
      rcases hcwd q hc with hc | ⟨i, hi, hdir⟩
      · obtain ⟨hmine, hdir⟩ := hold.cwd hc
        exact ⟨by push_cast; omega, hdir⟩
      · refine ⟨h.ref_pos hi, ?_⟩
        rw [show (s.icache q).inum = i from h.inum hi]
        exact hdir }

theorem Leaves.settle (h : Leaves env 0 ∅ s) (hcwd : ∀ q, 0 < cwds s.procs q → env.cwd q) :
    Sane env.lost s := by
  obtain ⟨T, hT, hs⟩ := h
  exact hs.settle hT (by simp) fun q hq => .inl (hcwd q hq)

/-- **A reference that others hold becomes the call's own**, to be dropped. -/
theorem Busy.release (h : Busy env T loc locks s) {q : Ip} (cwd : Ip → Prop)
    (hmine : refs loc q < (s.icache q).ref)
    (hcwd : ∀ q', cwd q' → env.cwd q' ∧ (q' = q → refs loc q + 1 < (s.icache q).ref)) :
    Busy { env with cwd := cwd } T ((q, s.inum q) ::ₘ loc) locks s ∧
      ((T (s.inum q)).nlink = 0 → (s.icache q).valid = true) := by
  refine ⟨⟨h.inodes, h.unique, ?_, fun q' => ?_, h.kept⟩, ((h.entry q).others hmine).2⟩
  · intro r hr
    rcases Multiset.mem_cons.mp hr with rfl | hr
    · rfl
    · exact h.own r hr
  have hold := h.entry q'
  by_cases hq : q' = q
  · subst hq
    rw [refs_cons_self]
    exact {
      count := by push_cast; omega
      locked := hold.locked
      valid := hold.valid
      alloc := hold.alloc
      others := fun hmore => hold.others (by push_cast at hmore; omega)
      cwd := fun hc => by
        obtain ⟨hc, hmore⟩ := hcwd q' hc
        exact ⟨by push_cast; exact hmore rfl, (hold.cwd hc).2⟩ }
  · rw [refs_cons_of_ne hq]
    exact { hold with cwd := fun hc => hold.cwd (hcwd q' hc).1 }

/-- **A working directory is given up.** It has links, so that it is not freed here. -/
theorem Busy.leaveCwd (h : Busy env T loc locks s) (hT : Tree T) {cwd : Ip} {cw cw' : Ip → ℕ}
    {opened : ℕ} (hcw : cw' + one cwd = cw) (henv : ∀ q, 0 < cw q → env.cwd q)
    (href : (s.icache cwd).ref = (cw cwd + opened + refs loc cwd : ℕ)) :
    Safely (iput s cwd) fun s' =>
      Busy { env with cwd := fun q => 0 < cw' q } T loc locks s' ∧ s'.procs = s.procs := by
  have hself : cw' cwd + 1 = cw cwd := by
    rw [← hcw, Pi.add_apply, one_self]
  have hdir := ((h.entry cwd).cwd (henv cwd (by omega))).2
  obtain ⟨hs, -⟩ := h.release (q := cwd) (fun q => 0 < cw' q)
    (by rw [href]; push_cast; omega) fun q hq => by
      refine ⟨henv q ?_, fun heq => ?_⟩
      · rw [← hcw, Pi.add_apply]
        omega
      · rw [heq] at hq
        rw [href]
        push_cast
        omega
  have hprocs : Returns (iput s cwd) fun s' => s'.procs = s.procs := by
    unfold iput
    exact .ite (fun _ => .error trivial) fun _ => .ite (fun _ => .ok rfl) fun _ => .ok rfl
  exact (iput_linked hs (hT.sound.dir _ hdir)).and hprocs

end Settle

/-! ### Files -/

section Files

variable {env : Env} {s s' : State} {T : Inum → Dinode} {loc : Multiset (Ip × Inum)}
  {locks : Finset Ip} {cw : Ip → ℕ} {fd : Fin NFILE → ℕ} {ops : ℤ} {f : Fin NFILE}

theorem Busy.setFile (h : Busy env T loc locks s) (f : Fin NFILE) (x : File) :
    Busy env T loc locks (s.setFile f x) := { h with }

theorem Busy.setProc (h : Busy env T loc locks s) (p : Fin NPROC) (q : Option Proc) :
    Busy env T loc locks (s.setProc p q) := { h with }

theorem Leaves.setFile (h : Leaves env loc locks s) (f : Fin NFILE) (x : File) :
    Leaves env loc locks (s.setFile f x) := by
  obtain ⟨T, hT, hs⟩ := h
  exact ⟨T, hT, hs.setFile f x⟩

theorem Leaves.setProc (h : Leaves env loc locks s) (p : Fin NPROC) (q : Option Proc) :
    Leaves env loc locks (s.setProc p q) := by
  obtain ⟨T, hT, hs⟩ := h
  exact ⟨T, hT, hs.setProc p q⟩

theorem filealloc_eq_some {may : Bool} (h : filealloc may s = some (s', f)) :
    s' = s.setFile f { s.files f with ref := 1 } := by
  unfold filealloc at h
  split at h
  · obtain ⟨g, -, hpair⟩ := Option.map_eq_some_iff.mp h
    obtain ⟨rfl, rfl⟩ := Prod.mk.inj hpair
    rfl
  · cases h

/-- A file that is not on an inode. -/
theorem fileclose_none (h : Busy env T loc locks s) (htype : (s.files f).type = .none) :
    Safely (fileclose s f) (Busy env T loc locks) := by
  unfold fileclose
  refine .ite (fun _ => .error (by decide)) fun _ => .ite (fun _ => .ok (h.setFile ..)) fun _ => ?_
  rw [htype]
  exact .ok (h.setFile ..)

/-- **`fileclose`.** The last reference to a file gives up the inode the file is on. -/
theorem fileclose_spec (hset : Settled cw fd ops s) (h : Leaves env 0 ∅ s)
    (hcw : ∀ q, env.cwd q → 0 < cw q) : Safely (fileclose s f) (Leaves env 0 ∅) := by
  unfold fileclose
  refine .ite (fun _ => .error (by decide)) fun _ => .ite (fun _ => .ok (h.setFile ..)) fun _ => ?_
  cases htype : (s.files f).type with
  | none => exact .ok (h.setFile ..)
  | pipe => exact .ok (h.setFile ..)
  | inode =>
    obtain ⟨T, hT, hs⟩ := h
    -- the file counts, besides the working directories
    have hopens : 1 ≤ opens s.files (s.files f).ip := by
      have hle : fileRef (s.files f).ip (s.files f) ≤ opens s.files (s.files f).ip :=
        le_total _ s.files f
      rw [fileRef, if_pos htype, one_self] at hle
      exact hle
    have href : (s.icache (s.files f).ip).ref = (cw + opens s.files) (s.files f).ip :=
      hset.counted.ref _
    rw [Pi.add_apply] at href
    obtain ⟨hs, hvalid⟩ := hs.release (q := (s.files f).ip) env.cwd
      (by rw [refs_zero]; push_cast; omega) fun q hq => ⟨hq, fun heq => by
        have hpos := hcw q hq
        rw [heq] at hpos
        rw [refs_zero]
        push_cast
        omega⟩
    refine (iput_spec (hs.setFile ..).beginOp hvalid).bind fun s' hs' => .ok ?_
    exact ⟨_, hT.dropped _, hs'.endOp⟩

theorem fileclose_both (hset : Settled cw (fd + one f) ops s) (h : Leaves env 0 ∅ s)
    (hcw : ∀ q, env.cwd q → 0 < cw q) :
    Safely (fileclose s f) fun s' =>
      Leaves env 0 ∅ s' ∧ Settled cw fd ops s' ∧ s'.procs = s.procs :=
  (fileclose_spec hset h hcw).and hset.fileclose

theorem Leaves.filealloc {may : Bool} (h : Leaves env loc locks s)
    (halloc : filealloc may s = some (s', f)) : Leaves env loc locks s' := by
  rw [filealloc_eq_some halloc]
  exact h.setFile ..

end Files

/-! ### Calls -/

section Calls

variable {s : State} {p : Fin NPROC} {pr : Proc} {lost : Inum → Prop}

theorem Consistent.leaves (h : Consistent lost s) : Leaves (s.env lost) 0 ∅ s :=
  ⟨s.inodes, h.sane.tree, h.sane.busy⟩

/-- After a call that keeps the working directories. -/
theorem Consistent.of_leaves {s' : State} (hs' : Returned s s')
    (h : Leaves (s.env lost) 0 ∅ s') : Consistent lost s' := by
  refine ⟨hs'.exact, h.settle fun q hq => ?_⟩
  rw [hs'.cwds] at hq
  exact hq

/-- **`open`.** The reference to the inode is the file's in the end. -/
theorem sysOpen_spec (h : Consistent lost s) (hp : s.procs p = some pr) (path : Path)
    (omode : BitVec 32) (file fd : Bool) :
    Safely (sysOpen s p pr path omode file fd) fun r =>
      ∃ T loc, Tree T ∧ (∀ x ∈ loc, (T x.2).nlink ≠ 0) ∧ Busy (s.env lost) T loc ∅ r.1 := by
  -- the branches that open nothing
  have hnone : ∀ {s' : State}, Leaves (s.env lost) 0 ∅ s' →
      ∃ T loc, Tree T ∧ (∀ x ∈ loc, (T x.2).nlink ≠ 0) ∧ Busy (s.env lost) T loc ∅ (endOp s') := by
    rintro s' ⟨T, hT, hs'⟩
    exact ⟨T, 0, hT, by simp, hs'.endOp⟩
  have hcwd : (s.env lost).cwd pr.cwd := cwds_pos hp
  unfold sysOpen
  refine ((openInode_spec h.sane.tree hcwd h.sane.busy.beginOp path omode).and
    (openInode_counted h.exact.counted.beginOp (Exact.cwd_pos hp))).bind ?_
  rintro ⟨s₁, _ | ip⟩ ⟨hopened, hcounted⟩
  · exact .ok (hnone hopened)
  obtain ⟨T, i, hT, hnlink, hs₁⟩ := hopened
  have hlock : ip ∈ ({ip} : Finset Ip) := by simp
  have herase : ({ip} : Finset Ip).erase ip = ∅ := Finset.erase_singleton ip
  dsimp only at hcounted hs₁ ⊢
  cases hfile : filealloc file s₁ with
  | none =>
    refine (iunlockput_linked hs₁ hlock hnlink).bind fun s₂ hs₂ => .ok ?_
    rw [herase] at hs₂
    exact hnone ⟨T, hT, hs₂⟩
  | some found =>
    obtain ⟨s₂, f⟩ := found
    have hsettled : Settled (cwds s.procs + one ip) (fds s.procs) (0 + 1) s₁ := by
      refine Settled.after h.exact ?_
      rw [add_right_comm]
      exact hcounted
    obtain ⟨-, -, -, htype, hfiles⟩ := hsettled.filealloc hfile
    have hs₂ : Busy (s.env lost) T {(ip, i)} {ip} s₂ := by
      rw [filealloc_eq_some hfile]
      exact hs₁.setFile ..
    dsimp only
    cases hfd : fdalloc fd pr f with
    | none =>
      -- the file is on no inode yet
      have hnew : (s₂.files f).type = .none := by
        rw [hfiles, update_self]
        exact htype
      refine (fileclose_none hs₂ hnew).bind fun s₃ hs₃ => ?_
      refine (iunlockput_linked hs₃ hlock hnlink).bind fun s₄ hs₄ => .ok ?_
      rw [herase] at hs₄
      exact hnone ⟨T, hT, hs₄⟩
    | some found =>
      refine (iunlock_spec (hs₂.setProc ..)).bind fun s₃ hs₃ => .ok ⟨T, {(ip, i)}, hT, ?_, ?_⟩
      · simpa using hnlink
      · rw [herase] at hs₃
        exact hs₃.endOp.setFile ..

theorem sysClose_spec (h : Consistent lost s) (hp : s.procs p = some pr) (fd : ℤ) :
    Safely (sysClose s p pr fd) fun r => Leaves (s.env lost) 0 ∅ r.1 := by
  unfold sysClose
  cases hfd : argfd pr fd with
  | none => exact .ok h.leaves
  | some found =>
    obtain ⟨o, f⟩ := found
    have hsplit := h.exact.split hp (argfd_eq_some hfd)
    refine (fileclose_spec (hsplit.setProc p _) (h.leaves.setProc p _) fun _ hq => hq).bind ?_
    exact fun s' hs' => .ok hs'

theorem sysDup_spec (h : Consistent lost s) (fd : ℤ) (may : Bool) :
    Safely (sysDup s p pr fd may) fun r => Leaves (s.env lost) 0 ∅ r.1 := by
  unfold sysDup
  cases argfd pr fd with
  | none => exact .ok h.leaves
  | some found =>
    dsimp only
    cases fdalloc may pr found.2 with
    | none => exact .ok h.leaves
    | some found' =>
      unfold filedup
      refine Ensures.bind (.ite (fun _ => .error (by decide)) fun _ => .ok ?_)
        fun s' hs' => .ok hs'
      exact (h.leaves.setProc ..).setFile ..

/-- **`chdir`.** The new directory is held in place of the old one. -/
theorem sysChdir_spec (h : Consistent lost s) (hp : s.procs p = some pr) (path : Path) :
    Safely (sysChdir s p pr path) fun r => Sane lost r.1 := by
  have hcwd : (s.env lost).cwd pr.cwd := cwds_pos hp
  have htree := h.sane.tree
  unfold sysChdir
  refine ((namei_spec htree.sound h.sane.busy.beginOp hcwd).and
    (namei_counted h.exact.counted.beginOp (Exact.cwd_pos hp))).bind ?_
  rintro ⟨s₁, _ | ip⟩ ⟨hs₁, hc₁⟩
  · refine .ok ((Leaves.endOp ⟨_, htree, hs₁⟩).settle fun q hq => ?_)
    have hprocs : (endOp s₁).procs = s.procs := hc₁.procs
    rw [hprocs] at hq
    exact hq
  obtain ⟨i, hs₁, hnlink⟩ := hs₁
  have hmem : (ip, i) ∈ (ip, i) ::ₘ (0 : Multiset (Ip × Inum)) := Multiset.mem_cons_self ..
  have hlock : ip ∈ insert ip (∅ : Finset Ip) := by simp
  refine ((ilock_spec hs₁).and (ilock_counted hc₁)).bind fun s₂ hs₂ => ?_
  obtain ⟨⟨-, hs₂⟩, hc₂⟩ := hs₂
  rw [hs₂.inode hmem]
  refine .ite (fun _ => ?_) fun hdir => ?_
  · refine ((iunlockput_linked hs₂ hlock hnlink).and (iunlockput_counted hc₂)).bind
      fun s₃ hs₃ => .ok ?_
    obtain ⟨hs₃, hc₃⟩ := hs₃
    rw [insert_erase_empty] at hs₃
    refine (Leaves.endOp ⟨_, htree, hs₃⟩).settle fun q hq => ?_
    have hprocs : (endOp s₃).procs = s.procs := hc₃.procs
    rw [hprocs] at hq
    exact hq
  have hdir : (s.inodes i).type = .dir := not_not.mp hdir
  refine ((iunlock_spec hs₂).and (iunlock_counted hc₂)).bind fun s₃ hs₃ => ?_
  obtain ⟨hs₃, hc₃⟩ := hs₃
  rw [insert_erase_empty] at hs₃
  -- the working directories without the one that is given up
  have hcw : cwds (update s.procs p none) + one pr.cwd = cwds s.procs := by
    have heq := cwds_update s.procs p none
    rw [hp] at heq
    exact heq
  have hmine : refs ((ip, i) ::ₘ 0) pr.cwd = one ip pr.cwd := by
    by_cases hq : pr.cwd = ip
    · rw [hq, refs_cons_self, one_self, refs_zero]
    · rw [refs_cons_of_ne hq, one_of_ne hq, refs_zero]
  have href : (s₃.icache pr.cwd).ref = (cwds s.procs pr.cwd + opens s.files pr.cwd +
      refs ((ip, i) ::ₘ 0) pr.cwd : ℕ) := by
    rw [hmine]
    exact hc₃.ref pr.cwd
  refine (hs₃.leaveCwd htree hcw (fun _ hq => hq) href).bind fun s₄ hs₄ => .ok ?_
  obtain ⟨hs₄, hprocs₄⟩ := hs₄
  have hfinal := hs₄.endOp.setProc p (some { pr with cwd := ip })
  refine hfinal.settle htree ?_ fun q hq => ?_
  · intro r hr
    obtain rfl : r = (ip, i) := Multiset.mem_singleton.mp hr
    exact hnlink
  · by_cases hqip : q = ip
    · exact .inr ⟨i, by rw [hqip]; exact hmem, hdir⟩
    · refine .inl ?_
      have hupdate : ((endOp s₄).setProc p (some { pr with cwd := ip })).procs =
          update (update s.procs p none) p (some { pr with cwd := ip }) := by
        rw [update_idem]
        show update s₄.procs p _ = _
        rw [hprocs₄, hc₃.procs]
      have heq := congrFun (cwds_update (update s.procs p none) p
        (some { pr with cwd := ip })) q
      rw [← hupdate, update_self, Pi.add_apply, Pi.add_apply] at heq
      have hnew : cwdRef q (some { pr with cwd := ip }) = 0 := one_of_ne hqip
      have hold : cwdRef q none = 0 := rfl
      show 0 < cwds (update s.procs p none) q
      omega

/-! ### Pipes -/

theorem pipeFails_spec {env : Env} {cw : Ip → ℕ} {fd : Fin NFILE → ℕ} {rf wf : Fin NFILE}
    (hset : Settled cw (fd + one rf + one wf) 0 s) (h : Leaves env 0 ∅ s)
    (hcw : ∀ q, env.cwd q → 0 < cw q) : Safely (pipeFails s rf wf) fun r => Leaves env 0 ∅ r.1 := by
  rw [add_right_comm] at hset
  refine (fileclose_both hset h hcw).bind fun s₁ hs₁ => ?_
  exact (fileclose_spec hs₁.2.1 hs₁.1 hcw).bind fun s₂ hs₂ => .ok hs₂

theorem pipealloc_spec {env : Env} {cw : Ip → ℕ} {fd : Fin NFILE → ℕ} (hset : Settled cw fd 0 s)
    (h : Leaves env 0 ∅ s) (hcw : ∀ q, env.cwd q → 0 < cw q) (f₀ f₁ page : Bool) :
    Safely (pipealloc s f₀ f₁ page) fun r => Leaves env 0 ∅ r.1 := by
  unfold pipealloc
  cases h₀ : filealloc f₀ s with
  | none => exact .ok h
  | some found =>
    obtain ⟨s₁, rf⟩ := found
    have hset₁ := (hset.filealloc h₀).1
    have hs₁ := h.filealloc h₀
    dsimp only
    cases h₁ : filealloc f₁ s₁ with
    | none => exact (fileclose_spec hset₁ hs₁ hcw).bind fun s₂ hs₂ => .ok hs₂
    | some found =>
      obtain ⟨s₂, wf⟩ := found
      have hset₂ := (hset₁.filealloc h₁).1
      have hs₂ := hs₁.filealloc h₁
      refine .ite (fun _ => .ok ((hs₂.setFile ..).setFile ..)) fun _ => ?_
      rw [add_right_comm] at hset₂
      refine (fileclose_both hset₂ hs₂ hcw).bind fun s₃ hs₃ => ?_
      exact (fileclose_spec hs₃.2.1 hs₃.1 hcw).bind fun s₄ hs₄ => .ok hs₄

theorem sysPipe_spec (h : Consistent lost s) (f₀ f₁ page d₀ d₁ : Bool) :
    Safely (sysPipe s p pr f₀ f₁ page d₀ d₁) fun r => Leaves (s.env lost) 0 ∅ r.1 := by
  have hcw : ∀ q, (s.env lost).cwd q → 0 < cwds s.procs q := fun _ hq => hq
  unfold sysPipe
  refine ((pipealloc_spec h.exact h.leaves hcw f₀ f₁ page).and
    (pipealloc_settled h.exact f₀ f₁ page)).bind ?_
  rintro ⟨s₁, _ | ⟨rf, wf⟩⟩ ⟨hs₁, -, hset₁⟩
  · exact .ok hs₁
  dsimp only at hs₁ hset₁ ⊢
  cases fdalloc d₀ pr rf with
  | none => exact pipeFails_spec hset₁ hs₁ hcw
  | some found =>
    dsimp only
    cases fdalloc d₁ found.1 wf with
    | none => exact pipeFails_spec (hset₁.setProc ..) (hs₁.setProc ..) hcw
    | some found' => exact .ok (hs₁.setProc ..)

/-! ### Processes -/

theorem exec_spec (h : Consistent lost s) (hp : s.procs p = some pr) (path : Path)
    (segments stack : Bool) :
    Safely (exec s pr path segments stack) fun r => Leaves (s.env lost) 0 ∅ r.1 := by
  have htree := h.sane.tree
  unfold exec
  refine (namei_spec htree.sound h.sane.busy.beginOp (cwds_pos hp)).bind ?_
  rintro ⟨s₁, _ | ip⟩ hs₁
  · exact .ok ⟨_, htree, hs₁.endOp⟩
  obtain ⟨i, hs₁, hnlink⟩ := hs₁
  refine (ilock_spec hs₁).bind fun s₂ hs₂ => ?_
  -- whether it loads or not, the program file is given back
  have hput : Safely (iunlockput s₂ ip) fun s₃ => Leaves (s.env lost) 0 ∅ (endOp s₃) := by
    refine (iunlockput_linked hs₂.2 (by simp) hnlink).mono fun s₃ hs₃ => ⟨_, htree, ?_⟩
    rw [insert_erase_empty] at hs₃
    exact hs₃.endOp
  refine .ite (fun _ => ?_) fun _ => ?_
  · exact hput.bind fun s₃ hs₃ => .ok hs₃
  · exact hput.bind fun s₃ hs₃ => .ite (fun _ => .ok hs₃) fun _ => .ok hs₃

/-- The files are counted, nothing else. -/
theorem dupFiles_spec {env : Env} {T : Inum → Dinode} {loc : Multiset (Ip × Inum)}
    {locks : Finset Ip} (h : Busy env T loc locks s) (ofile : Fin NOFILE → Option (Fin NFILE)) :
    Safely (dupFiles s ofile) fun s' => Busy env T loc locks s' ∧ s'.procs = s.procs := by
  unfold dupFiles
  refine Ensures.foldlM (fun _ s' => Busy env T loc locks s' ∧ s'.procs = s.procs)
    ⟨h, rfl⟩ ?_
  rintro o rest s₁ ⟨hs₁, hprocs⟩
  cases ofile o with
  | none => exact .ok ⟨hs₁, hprocs⟩
  | some f =>
    unfold filedup
    exact .ite (fun _ => .error (by decide)) fun _ => .ok ⟨hs₁.setFile .., hprocs⟩

variable (h : Consistent lost s) (hp : s.procs p = some pr)

include h hp

/-- **`fork`.** The child has the working directory of its parent. -/
theorem fork_spec (child : Fin NPROC) (memory : Bool) :
    Safely (fork s pr child memory) (Sane lost) := by
  unfold fork
  refine .ite (fun _ => .ok h.sane) fun hfree => ?_
  refine (dupFiles_spec h.sane.busy pr.ofile).bind fun s₁ hs₁ => .ok ?_
  obtain ⟨hs₁, hprocs⟩ := hs₁
  have hcwd : (s.env lost).cwd pr.cwd := cwds_pos hp
  have hdir := ((hs₁.entry pr.cwd).cwd hcwd).2
  have hdup := (idup_spec hs₁ hcwd).setProc child (some pr)
  refine hdup.settle h.sane.tree ?_ fun q hq => .inl ?_
  · intro r hr
    obtain rfl : r = (pr.cwd, s₁.inum pr.cwd) := Multiset.mem_singleton.mp hr
    exact h.sane.tree.sound.dir _ hdir
  · have hchild : s.procs child = none := by simpa using (not_or.mp hfree).1
    have hupdate : ((idup s₁ pr.cwd).setProc child (some pr)).procs =
        update s.procs child (some pr) := by
      rw [← hprocs]
      rfl
    have heq := congrFun (cwds_update s.procs child (some pr)) q
    rw [← hupdate, hchild, Pi.add_apply, Pi.add_apply] at heq
    by_cases hqcwd : q = pr.cwd
    · rw [hqcwd]
      exact hcwd
    · have hnew : cwdRef q (some pr) = 0 := one_of_ne hqcwd
      show 0 < cwds s.procs q
      omega

/-- **`exit`.** -/
theorem exit_spec :
    Safely (exit s p pr) (Sane lost) := by
  unfold exit
  refine .ite (fun _ => .error (by decide)) fun _ => ?_
  have hbegin := Closing.init h.exact hp
  -- each descriptor that is closed may free an inode
  refine (Ensures.foldlM (fun rest s' => Closing s p pr.cwd rest s' ∧
    Leaves (s.env lost) 0 ∅ s') ⟨hbegin, h.leaves⟩ ?_).bind ?_
  · rintro o rest s₁ ⟨hclosing, hs₁⟩
    have hclose : Safely (closeFd p s₁ o) (Leaves (s.env lost) 0 ∅) := by
      obtain ⟨pr', hp', -, -⟩ := hclosing.proc
      unfold closeFd
      rw [hp']
      dsimp only
      cases ho : pr'.ofile o with
      | none => exact .ok hs₁
      | some f =>
        refine (fileclose_spec (hclosing.returned.exact.split hp' ho) hs₁ fun q hq => ?_).bind
          fun s₂ hs₂ => .ok (hs₂.setProc ..)
        rw [hclosing.returned.cwds]
        exact hq
    exact (hclose.and (closeFd_closing hclosing)).mono fun s₂ hs₂ => ⟨hs₂.2, hs₂.1⟩
  rintro s₁ ⟨hclosing, T, hT, hs₁⟩
  have hcw := hclosing.last.1
  have href : (s₁.icache pr.cwd).ref = (cwds s₁.procs pr.cwd + opens s₁.files pr.cwd +
      refs 0 pr.cwd : ℕ) := by
    rw [refs_zero, Nat.add_zero]
    exact hclosing.returned.exact.counted.ref pr.cwd
  have henv : ∀ q, 0 < cwds s₁.procs q → (s.env lost).cwd q := by
    intro q hq
    rw [hclosing.returned.cwds] at hq
    exact hq
  refine (hs₁.beginOp.leaveCwd hT hcw henv href).bind fun s₂ hs₂ => .ok ?_
  obtain ⟨hs₂, hprocs⟩ := hs₂
  refine (hs₂.endOp.setProc p none).settle hT (by simp) fun q hq => .inl ?_
  have hupdate : ((endOp s₂).setProc p none).procs = update s₁.procs p none := by
    show update s₂.procs p none = _
    rw [hprocs]
    rfl
  rw [hupdate] at hq
  exact hq

/-! ### Sequences of calls -/

/-- The path of an `unlink`. -/
def Call.unlinkPath : Call → Option Path
  | .unlink path => path
  | _ => none

/-- **No directory is removed that is in use**: if the call is an `unlink` that would clear the
entry for an empty directory, that directory is no process's working directory and not open. -/
def Quiet (s : State) (a : Fin NPROC × Call) : Prop :=
  ∀ path ∈ a.2.unlinkPath, ∀ pr ∈ s.procs a.1, ∀ d ∈ unlinkTarget s pr.cwd path,
    (s.inodes d).type = .dir → (s.inodes d).isdirempty = true →
      ∀ ip, s.inum ip = d → (s.icache ip).ref = 0

instance (s : State) (a : Fin NPROC × Call) : Decidable (Quiet s a) :=
  inferInstanceAs (Decidable (∀ path ∈ a.2.unlinkPath, ∀ pr ∈ s.procs a.1,
    ∀ d ∈ unlinkTarget s pr.cwd path, (s.inodes d).type = .dir →
      (s.inodes d).isdirempty = true → ∀ ip, s.inum ip = d → (s.icache ip).ref = 0))

/-- **One call.** -/
theorem syscall_consistent (c : Call) (hquiet : Quiet s (p, c)) :
    Safely (syscall s p pr c) (Consistent lost) := by
  have hcwd := Exact.cwd_pos hp
  have hecwd : (s.env lost).cwd pr.cwd := cwds_pos hp
  have hidle : Consistent lost (endOp (beginOp s)) :=
    .of_leaves (h.exact.after h.exact.counted.beginOp.endOp)
      ⟨_, h.sane.tree, h.sane.busy.beginOp.endOp⟩
  cases c with
  | «open» path omode file fd =>
    cases path with
    | none => exact .ok h
    | some path =>
      refine (((sysOpen_spec h hp path omode file fd).and
        (sysOpen_exact h.exact hp path omode file fd)).mono ?_).map
      rintro r ⟨⟨T, loc, hT, hnlink, hs⟩, hreturned⟩
      refine ⟨hreturned.exact, hs.settle hT hnlink fun q hq => .inl ?_⟩
      rw [hreturned.cwds] at hq
      exact hq
  | close fd =>
    exact (((sysClose_spec h hp fd).and (sysClose_exact h.exact hp fd)).mono
      fun r hr => .of_leaves hr.2 hr.1).map
  | dup fd may =>
    exact (((sysDup_spec h fd may).and (sysDup_exact h.exact hp fd may)).mono
      fun r hr => .of_leaves hr.2 hr.1).map
  | pipe buf f₀ f₁ page d₀ d₁ =>
    cases buf with
    | false => exact .ok h
    | true =>
      exact (((sysPipe_spec h f₀ f₁ page d₀ d₁).and
        (sysPipe_exact h.exact hp f₀ f₁ page d₀ d₁)).mono fun r hr => .of_leaves hr.2 hr.1).map
  | link old new =>
    cases old with
    | none => exact .ok h
    | some old =>
      cases new with
      | none => exact .ok h
      | some new =>
        exact (((sysLink_spec h.sane.tree hecwd h.sane.busy old new).and
          (sysLink_counted h.exact.counted hcwd old new)).mono
            fun r hr => .of_leaves (h.exact.after hr.2) hr.1).map
  | unlink path =>
    cases path with
    | none => exact .ok h
    | some path =>
      have hnot : ∀ i, unlinkTarget s pr.cwd path = some i → (s.inodes i).type = .dir →
          (s.inodes i).isdirempty = true → ¬(s.env lost).inUse i := by
        rintro i htarget hdir hempty ⟨q, hpos, hq⟩
        have hzero := hquiet path rfl pr hp i htarget hdir hempty q hq
        omega
      exact (((sysUnlink_spec h.sane.tree hecwd h.sane.busy path hnot).and
        (sysUnlink_counted h.exact.counted hcwd path)).mono
          fun r hr => .of_leaves (h.exact.after hr.2) hr.1).map
  | mkdir path =>
    cases path with
    | none => exact .ok hidle
    | some path =>
      exact (((createOnly_spec h.sane.tree hecwd h.sane.busy path (by decide)).and
        (createOnly_counted h.exact.counted hcwd path _ _ _)).mono
          fun r hr => .of_leaves (h.exact.after hr.2) hr.1).map
  | mknod path major minor =>
    cases path with
    | none => exact .ok hidle
    | some path =>
      exact (((createOnly_spec h.sane.tree hecwd h.sane.busy path (by decide)).and
        (createOnly_counted h.exact.counted hcwd path _ _ _)).mono
          fun r hr => .of_leaves (h.exact.after hr.2) hr.1).map
  | chdir path =>
    cases path with
    | none => exact .ok hidle
    | some path =>
      exact (((sysChdir_spec h hp path).and (sysChdir_exact h.exact hp path)).mono
        fun r hr => ⟨hr.2, hr.1⟩).map
  | fork child memory =>
    exact ((fork_spec h hp child memory).and (fork_exact h.exact hp child memory)).mono
      fun r hr => ⟨hr.2, hr.1⟩
  | exec path segments stack =>
    cases path with
    | none => exact .ok h
    | some path =>
      exact (((exec_spec h hp path segments stack).and
        (exec_counted h.exact.counted hcwd path segments stack)).mono
          fun r hr => .of_leaves (h.exact.after hr.2) hr.1).map
  | exit =>
    exact ((exit_spec h hp).and (exit_exact h.exact hp)).mono fun r hr => ⟨hr.2, hr.1⟩

end Calls

theorem next_consistent {lost : Inum → Prop} {s s' : State} (h : Consistent lost s)
    {a : Fin NPROC × Call} (hquiet : Quiet s a) (hnext : s.next a = some s') :
    Consistent lost s' := by
  obtain ⟨pr, hp, hcall⟩ := next_eq_some hnext
  exact (syscall_consistent h hp a.2 hquiet).of_eq_ok hcall

/-- The inodes that an image has allocated without a link. -/
def unlinked (image : Inum → Dinode) (i : Inum) : Prop :=
  (image i).type ≠ .free ∧ (image i).nlink = 0

/-- The root is the working directory of the first process. -/
theorem boot_consistent {image : Inum → Dinode} (h : Tree image) :
    Consistent (unlinked image) (boot image) := by
  have hexact := boot_exact image
  have hcwds : ∀ q, 0 < cwds (boot image).procs q → q = 0 := by
    intro q hq
    obtain ⟨p, hp⟩ := total_pos_iff.mp hq
    by_cases hinit : p = initproc
    · simp only [boot, hinit, if_true, cwdRef, Option.elim_some] at hp
      by_contra hne
      rw [one_of_ne hne] at hp
      cases hp
    · simp [boot, hinit, cwdRef] at hp
  have hpos : ∀ q, 0 < ((boot image).icache q).ref → q = 0 := by
    intro q hq
    by_contra hne
    simp [boot, hne] at hq
  refine ⟨hexact, h, rfl, ?_, by simp, fun q => ?_, fun i halloc hnlink => .inr ⟨halloc, hnlink⟩⟩
  · intro q q' hq hq' _
    rw [hpos q hq, hpos q' hq']
  · by_cases hq : q = 0
    · subst hq
      exact {
        count := by simp [boot]
        locked := by simp [boot]
        valid := fun hl => absurd hl (Finset.notMem_empty _)
        alloc := fun _ => by
          show (image ROOTINO).type ≠ .free
          rw [h.root.1]
          decide
        others := fun hone => ⟨⟨0, by simpa using hone, rfl⟩, fun hzero =>
          absurd hzero (h.sound.dir ROOTINO h.root.1)⟩
        cwd := fun _ => ⟨by simp [boot], h.root.1⟩ }
    · have hzero : ((boot image).icache q).ref = 0 := by simp [boot, hq]
      exact {
        count := by simp [hzero]
        locked := by simp [boot, hq]
        valid := fun hl => absurd hl (Finset.notMem_empty _)
        alloc := fun hp => absurd (hpos q hp) hq
        others := fun hp => absurd (hpos q (by simpa using hp)) hq
        cwd := fun hc => absurd (hcwds q hc) hq }

/-- **Every sequence of calls.** -/
theorem run_consistent {image : Inum → Dinode} (h : Tree image) {calls : List (Fin NPROC × Call)}
    (hquiet : Along State.next Quiet (boot image) calls) {s : State}
    (hrun : run State.next (boot image) calls = some s) : Consistent (unlinked image) s :=
  run_preserves (fun _ _ _ hs hq hnext => next_consistent hs hq hnext) (boot_consistent h) hquiet
    hrun

/-- A process makes a directory inside another one its working directory and removes both. -/
def removeBoth : List (Fin NPROC × Call) :=
  [(0, .mkdir (some ['a'])), (0, .mkdir (some ['a', '/', 'b'])),
    (0, .chdir (some ['a', '/', 'b'])), (0, .unlink (some ['/', 'a', '/', 'b'])),
    (0, .unlink (some ['/', 'a']))]

/-- Whether a computation ends in the panic `ilock: no type`. -/
def noType {α : Type} : Except Stop α → Bool
  | .ok _ => false
  | .error e => e = .panic .ilockNoType

theorem eq_error_of_noType {α : Type} {x : Except Stop α} (h : noType x = true) :
    x = .error (.panic .ilockNoType) := by
  cases x with
  | ok a => cases h
  | error e => rw [of_decide_eq_true h]

/-- The entry `..` of the working directory then names an inode that has been freed, and following
it stops the kernel. -/
theorem dangling_removeBoth :
    ∃ image, Tree image ∧ (∀ d, (image d).type = .dir → d = ROOTINO) ∧
      ∃ s, run State.next (boot image) removeBoth = some s ∧ ¬NoDangling s.inodes ∧
        ∃ pr, s.procs 0 = some pr ∧
          syscall s 0 pr (.chdir (some dotdot)) = .error (.panic .ilockNoType) := by
  have hrun : (run State.next (boot rootOnly) removeBoth).any (fun s =>
      decide (¬NoDangling s.inodes) && (s.procs 0).any fun pr =>
        noType (syscall s 0 pr (.chdir (some dotdot)))) = true := by decide +kernel
  obtain ⟨s, hs, hbad⟩ := (Option.any_eq_true ..).mp hrun
  obtain ⟨hdangling, hproc⟩ := Bool.and_eq_true_iff.mp hbad
  obtain ⟨pr, hp, hstop⟩ := (Option.any_eq_true ..).mp hproc
  exact ⟨rootOnly, rootOnly_built.tree, by decide +kernel, s, hs, of_decide_eq_true hdangling, pr,
    hp, eq_error_of_noType hstop⟩

/-- **No entry dangles.** From a consistent image, in every run that removes no directory which is
in use, every entry in use names an allocated inode, and no call ends in `ilock: no type`. -/
theorem no_dangling (image : Inum → Dinode) (h : Tree image) (calls : List (Fin NPROC × Call))
    (hquiet : Along State.next Quiet (boot image) calls) (s : State)
    (hrun : run State.next (boot image) calls = some s) :
    NoDangling s.inodes ∧
      ∀ p pr c, s.procs p = some pr → Quiet s (p, c) →
        syscall s p pr c ≠ .error (.panic .ilockNoType) := by
  have hs := run_consistent h hquiet hrun
  refine ⟨hs.sane.tree.noDangling, fun p pr c hp hq herror => ?_⟩
  exact (syscall_consistent hs hp c hq).of_eq_error herror rfl

/-- A directory is made and removed again, while the first process is in another one. -/
def removeOther : List (Fin NPROC × Call) :=
  [(0, .mkdir (some ['a'])), (0, .mkdir (some ['b'])), (0, .chdir (some ['b'])),
    (0, .unlink (some ['/', 'a']))]

theorem no_dangling_removeOther :
    Along State.next Quiet (boot rootOnly) removeOther ∧
      ∃ s, run State.next (boot rootOnly) removeOther = some s ∧ NoDangling s.inodes := by
  have hquiet : Along State.next Quiet (boot rootOnly) removeOther := by decide +kernel
  have hsome : (run State.next (boot rootOnly) removeOther).isSome = true := by decide +kernel
  obtain ⟨s, hs⟩ := Option.isSome_iff_exists.mp hsome
  exact ⟨hquiet, s, hs, (no_dangling rootOnly rootOnly_built.tree removeOther hquiet s hs).1⟩

end Xv6.Fs
