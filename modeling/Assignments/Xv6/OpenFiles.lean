import Assignments.Xv6.Mkfs
import Assignments.Xv6.RefCounts

/-!
# Reference counts between system calls

What a process has open is counted twice: its descriptors hold files, and the files and the working
directories hold inodes. `Settled` follows both counts through a call; between calls (`Exact`) the
count of every file is the number of descriptors for it, and that of every entry of the inode cache
the number of files on it and of working directories.

* `syscall_exact` — every call keeps the counts exact, however it returns;
* `refs_exact` — the counts of the file table and of the inode cache after every sequence of calls,
  with one entry for each inode and no operation left outstanding.
-/

namespace Xv6.Fs

open Framework Function

/-! ### Who holds what -/

/-- The working directory of a process. -/
def cwdRef (ip : Ip) (pr : Option Proc) : ℕ := pr.elim 0 fun pr => one pr.cwd ip

/-- An open file on an inode. -/
def fileRef (ip : Ip) (x : File) : ℕ := if x.type = .inode then one x.ip ip else 0

/-- The descriptors of a process for the file `f`. -/
def fdRefs (f : Fin NFILE) (pr : Option Proc) : ℕ :=
  pr.elim 0 fun pr => total (fun o => if o = some f then 1 else 0) pr.ofile

/-- The working directories that are the inode `ip`. -/
def cwds (procs : Fin NPROC → Option Proc) (ip : Ip) : ℕ := total (cwdRef ip) procs

/-- The open files on the inode `ip`. -/
def opens (files : Fin NFILE → File) (ip : Ip) : ℕ := total (fileRef ip) files

/-- The descriptors of all processes for the file `f`. -/
def fds (procs : Fin NPROC → Option Proc) (f : Fin NFILE) : ℕ := total (fdRefs f) procs

section Holders

variable {procs : Fin NPROC → Option Proc} {files : Fin NFILE → File} {p : Fin NPROC}
  {o : Fin NOFILE}
  {f : Fin NFILE} {pr : Proc}

theorem cwds_update (procs : Fin NPROC → Option Proc) (p : Fin NPROC) (q : Option Proc) :
    cwds (update procs p q) + (cwdRef · (procs p)) = cwds procs + (cwdRef · q) := by
  funext ip
  exact total_update (cwdRef ip) procs p q

theorem opens_update (files : Fin NFILE → File) (f : Fin NFILE) (x : File) :
    opens (update files f x) + (fileRef · (files f)) = opens files + (fileRef · x) := by
  funext ip
  exact total_update (fileRef ip) files f x

theorem fds_update (procs : Fin NPROC → Option Proc) (p : Fin NPROC) (q : Option Proc) :
    fds (update procs p q) + (fdRefs · (procs p)) = fds procs + (fdRefs · q) := by
  funext f
  exact total_update (fdRefs f) procs p q

/-- A file that is changed but stays on its inode. -/
theorem opens_update_same {x : File} (h : ∀ ip, fileRef ip x = fileRef ip (files f)) :
    opens (update files f x) = opens files := by
  have heq := opens_update files f x
  rw [funext h] at heq
  exact add_right_cancel heq

theorem cwds_update_same {pr' : Proc} (h : procs p = some pr) (hcwd : pr'.cwd = pr.cwd) :
    cwds (update procs p (some pr')) = cwds procs := by
  have heq := cwds_update procs p (some pr')
  have href : (cwdRef · (some pr')) = (cwdRef · (procs p)) := by
    funext ip
    rw [h]
    show one pr'.cwd ip = one pr.cwd ip
    rw [hcwd]
  rw [href] at heq
  exact add_right_cancel heq

theorem cwds_setFd {x : Option (Fin NFILE)} (h : procs p = some pr) :
    cwds (update procs p (some (pr.setFd o x))) = cwds procs :=
  cwds_update_same h rfl

theorem cwds_pos (h : procs p = some pr) : 0 < cwds procs pr.cwd := by
  refine total_pos_iff.mpr ⟨p, ?_⟩
  rw [h]
  simp [cwdRef]

theorem fdRefs_some (g : Fin NFILE) (pr : Proc) :
    fdRefs g (some pr) = total (fun o => if o = some g then 1 else 0) pr.ofile := rfl

/-- A process that gets the file `f` for a free descriptor. -/
theorem fdRefs_set (h : pr.ofile o = none) :
    (fdRefs · (some (pr.setFd o (some f)))) =
      (fdRefs · (some pr)) + one f := by
  funext g
  have heq := total_update (fun o => if o = some g then 1 else 0) pr.ofile o (some f)
  simp only [h, reduceCtorEq, if_false, add_zero, Option.some.injEq] at heq
  rw [Pi.add_apply, fdRefs_some, fdRefs_some, one_apply]
  exact heq

theorem fds_set (h : procs p = some pr) (ho : pr.ofile o = none) :
    fds (update procs p
      (some (pr.setFd o (some f)))) = fds procs + one f := by
  have heq := fds_update procs p
    (some (pr.setFd o (some f)))
  rw [h, fdRefs_set ho, ← add_assoc, add_right_comm] at heq
  exact add_right_cancel heq

/-- A process that gives up the descriptor of the file `f`. -/
theorem fdRefs_clear (h : pr.ofile o = some f) :
    (fdRefs · (some (pr.setFd o none))) + one f = (fdRefs · (some pr)) := by
  funext g
  have heq := total_update (fun o => if o = some g then 1 else 0) pr.ofile o none
  simp only [h, reduceCtorEq, if_false, add_zero, Option.some.injEq] at heq
  rw [Pi.add_apply, fdRefs_some, fdRefs_some, ← heq, one_apply]
  rfl

theorem fds_clear (h : procs p = some pr) (ho : pr.ofile o = some f) :
    fds (update procs p (some (pr.setFd o none))) + one f = fds procs := by
  have heq := fds_update procs p (some (pr.setFd o none))
  rw [h, ← fdRefs_clear ho, ← add_assoc, add_right_comm] at heq
  exact add_right_cancel heq

end Holders

/-! ### The file table -/

/-- Every file has `fd` references, and one without any is free. -/
structure FileRefs (fd : Fin NFILE → ℕ) (files : Fin NFILE → File) : Prop where
  ref : ∀ f, (files f).ref = fd f
  free : ∀ f, fd f = 0 → (files f).type = .none

/-- **Between calls, or inside one that has changed the files.** The inodes are held by the open
files and by `cw`, the files by `fd`. -/
structure Settled (cw : Ip → ℕ) (fd : Fin NFILE → ℕ) (ops : ℤ) (s : State) : Prop where
  counted : Counted s (cw + opens s.files) ops s
  files : FileRefs fd s.files

namespace FileRefs

variable {fd fd' : Fin NFILE → ℕ} {files : Fin NFILE → File} {f : Fin NFILE}

theorem update (h : FileRefs fd files) {x : File} (href : x.ref = fd' f)
    (hfree : fd' f = 0 → x.type = .none) (hrest : ∀ g, g ≠ f → fd' g = fd g) :
    FileRefs fd' (update files f x) where
  ref := by
    intro g
    by_cases hg : g = f
    · rw [hg, update_self, href]
    · rw [update_of_ne hg, hrest g hg, h.ref g]
  free := by
    intro g hzero
    by_cases hg : g = f
    · rw [hg] at hzero ⊢
      rw [update_self]
      exact hfree hzero
    · rw [hrest g hg] at hzero
      rw [update_of_ne hg]
      exact h.free g hzero

end FileRefs

namespace Settled

variable {cw cw' : Ip → ℕ} {fd fd' : Fin NFILE → ℕ} {ops ops' : ℤ} {s s' : State} {f : Fin NFILE}

section

variable (h : Settled cw fd ops s)

include h

/-- After a function that leaves the files and the processes alone. -/
theorem after (hs' : Counted s (cw' + opens s.files) ops' s') :
    Settled cw' fd ops' s' where
  counted := by
    rw [hs'.files]
    exact { hs' with files := rfl, procs := rfl }
  files := by
    rw [hs'.files]
    exact h.files

theorem setProc (p : Fin NPROC) (q : Option Proc) :
    Settled cw fd ops (s.setProc p q) where
  counted := { h.counted with files := rfl, procs := rfl }
  files := h.files

/-- A file that is changed; the inode it is on may be another one. -/
theorem setFile {x : File} (hheld : cw' + opens (update s.files f x) = cw + opens s.files)
    (href : x.ref = fd' f) (hfree : fd' f = 0 → x.type = .none)
    (hrest : ∀ g, g ≠ f → fd' g = fd g) :
    Settled cw' fd' ops (s.setFile f x) where
  counted := by
    show Counted _ (cw' + opens (update s.files f x)) ops _
    rw [hheld]
    exact { h.counted with files := rfl, procs := rfl }
  files := h.files.update href hfree hrest

/-- A file that is on no inode and stays so. -/
theorem setType {x : File} (hold : (s.files f).type = .none) (hnew : x.type ≠ .inode)
    (href : x.ref = (s.files f).ref) (hfd : fd f ≠ 0) :
    Settled cw fd ops (s.setFile f x) := by
  have hopens : opens (update s.files f x) = opens s.files := by
    refine opens_update_same fun ip => ?_
    rw [fileRef, fileRef, if_neg hnew, if_neg (by rw [hold]; decide)]
  exact h.setFile (by rw [hopens]) (href.trans (h.files.ref f)) (fun hzero => absurd hzero hfd)
    fun _ _ => rfl

end

/-- A file that was on no inode takes over the reference to one. -/
theorem onInode {ip : Ip} (h : Settled (cw + one ip) fd ops s) {x : File}
    (hold : (s.files f).type = .none) (hnew : x.type = .inode) (hip : x.ip = ip)
    (href : x.ref = (s.files f).ref) (hfd : fd f ≠ 0) : Settled cw fd ops (s.setFile f x) := by
  have hopens := opens_update s.files f x
  have hbefore : (fileRef · (s.files f)) = (0 : Ip → ℕ) :=
    funext fun _ => if_neg (by rw [hold]; decide)
  have hafter : (fileRef · x) = one ip := by
    funext q
    show fileRef q x = _
    rw [fileRef, if_pos hnew, hip]
  rw [hbefore, hafter, add_zero] at hopens
  refine h.setFile ?_ (href.trans (h.files.ref f)) (fun hzero => absurd hzero hfd) fun _ _ => rfl
  rw [hopens, add_right_comm, add_assoc]

theorem filealloc {may : Bool} (h : Settled cw fd ops s) (halloc : filealloc may s = some (s', f)) :
    Settled cw (fd + one f) ops s' ∧ s'.procs = s.procs ∧ fd f = 0 ∧ (s.files f).type = .none ∧
      s'.files = update s.files f { s.files f with ref := 1 } := by
  unfold Fs.filealloc at halloc
  split at halloc
  · obtain ⟨g, hg, hpair⟩ := Option.map_eq_some_iff.mp halloc
    obtain ⟨rfl, rfl⟩ := Prod.mk.inj hpair
    have hzero : (s.files g).ref = 0 := by simpa using List.find?_some hg
    have hfd : fd g = 0 := by
      have href := h.files.ref g
      omega
    have htype := h.files.free g hfd
    have hopens : opens (update s.files g { s.files g with ref := 1 }) = opens s.files :=
      opens_update_same fun ip => rfl
    exact ⟨h.setFile (by rw [hopens]) (by simp [hfd]) (fun _ => htype) fun k hk => by simp [hk],
      rfl, hfd, htype, rfl⟩
  · cases halloc

theorem filedup (h : Settled cw fd ops s) :
    Returns (filedup s f) fun s' => Settled cw (fd + one f) ops s' ∧ s'.procs = s.procs := by
  unfold Fs.filedup
  refine .ite (fun _ => .error trivial) fun hone => .ok ⟨?_, rfl⟩
  have href := h.files.ref f
  have hopens : opens (update s.files f { s.files f with ref := (s.files f).ref + 1 }) =
      opens s.files := opens_update_same fun ip => rfl
  refine h.setFile (by rw [hopens]) ?_ (by simp) fun k hk => by simp [hk]
  show (s.files f).ref + 1 = _
  simp [href]

/-- The last reference to a file gives up the inode the file is on. -/
theorem fileclose (h : Settled cw (fd + one f) ops s) :
    Returns (fileclose s f) fun s' => Settled cw fd ops s' ∧ s'.procs = s.procs := by
  have href : (s.files f).ref = fd f + 1 := by
    rw [h.files.ref f]
    simp
  have hrest : ∀ g, g ≠ f → fd g = (fd + one f) g := fun g hg => by simp [hg]
  unfold Fs.fileclose
  refine .ite (fun _ => .error trivial) fun _ => .ite (fun hmore => ?_) fun hlast => ?_
  · have hopens : opens (update s.files f
        { s.files f with ref := (s.files f).ref - 1 }) = opens s.files :=
      opens_update_same fun ip => rfl
    refine .ok ⟨h.setFile (by rw [hopens]) ?_ (fun hzero => by omega) hrest, rfl⟩
    show (s.files f).ref - 1 = _
    omega
  have hzero : fd f = 0 := by omega
  have hopens := opens_update s.files f
    { s.files f with ref := 0, type := .none }
  have hnone : (fileRef · { s.files f with ref := 0, type := .none }) = (0 : Ip → ℕ) := rfl
  rw [hnone, add_zero] at hopens
  -- a file on no inode gives up nothing
  have hplain : (s.files f).type ≠ .inode → Settled cw fd ops
      (s.setFile f { s.files f with ref := 0, type := .none }) := by
    intro htype
    have hheld : (fileRef · (s.files f)) = (0 : Ip → ℕ) := funext fun ip => if_neg htype
    rw [hheld, add_zero] at hopens
    exact h.setFile (by rw [hopens]) (by simp [hzero]) (fun _ => rfl) hrest
  cases htype : (s.files f).type with
  | none => exact .ok ⟨hplain (by rw [htype]; decide), rfl⟩
  | pipe => exact .ok ⟨hplain (by rw [htype]; decide), rfl⟩
  | inode =>
    have hheld : (fileRef · (s.files f)) = one (s.files f).ip :=
      funext fun ip => if_pos htype
    rw [hheld] at hopens
    have hgiven : Settled (cw + one (s.files f).ip) fd ops
        (s.setFile f { s.files f with ref := 0, type := .none }) := by
      refine h.setFile ?_ (by simp [hzero]) (fun _ => rfl) hrest
      rw [← hopens, add_assoc, add_comm (one _)]
    have hcounted := hgiven.counted.beginOp
    rw [add_right_comm] at hcounted
    refine (iput_counted hcounted).bind fun s' hs' => .ok ?_
    exact ⟨hgiven.after hs'.endOp, hs'.procs⟩

end Settled

/-! ### Calls -/

/-- **Between calls.** The working directories and the open files hold the inodes, the descriptors
hold the files. -/
def Exact (s : State) : Prop := Settled (cwds s.procs) (fds s.procs) 0 s

section Calls

variable {s : State} {p : Fin NPROC} {pr : Proc} {o : Fin NOFILE} {f : Fin NFILE} {cw : Ip → ℕ}
  {fd : Fin NFILE → ℕ}
  {s' : State}

/-- What a call comes to that is not about working directories. -/
structure Returned (s s' : State) : Prop where
  exact : Exact s'
  cwds : cwds s'.procs = cwds s.procs

/-- After a call that has changed the files or the processes. -/
theorem Exact.of (h : Settled cw fd 0 s') (hcw : cwds s'.procs = cw) (hfds : fds s'.procs = fd) :
    Exact s' := by
  unfold Exact
  rw [hcw, hfds]
  exact h

/-- After a call that leaves them alone. -/
theorem Exact.after (h : Exact s) (hs' : Counted s (cwds s.procs + opens s.files) 0 s') :
    Returned s s' := by
  have hsettled := Settled.after h hs'
  have hprocs := hs'.procs
  exact ⟨.of hsettled (by rw [hprocs]) (by rw [hprocs]), by rw [hprocs]⟩

/-- After a call that has given a descriptor to a file. -/
theorem Exact.openFd (hp : s.procs p = some pr) (ho : pr.ofile o = none)
    (hs' : Settled (cwds s.procs) (fds s.procs + one f) 0 s')
    (hprocs : s'.procs = update s.procs p (some (pr.setFd o (some f)))) : Returned s s' := by
  have hcw : cwds s'.procs = cwds s.procs := by
    rw [hprocs]
    exact cwds_setFd hp
  refine ⟨.of hs' hcw ?_, hcw⟩
  rw [hprocs]
  exact fds_set hp ho

theorem Exact.cwd_pos (h : s.procs p = some pr) : 0 < (cwds s.procs + opens s.files) pr.cwd :=
  Nat.add_pos_left (cwds_pos h) _

theorem fdalloc_eq_some {may : Bool} {pr' : Proc} (h : fdalloc may pr f = some (pr', o)) :
    pr.ofile o = none ∧ pr' = pr.setFd o (some f) := by
  unfold fdalloc at h
  split at h
  · obtain ⟨o', ho', hpair⟩ := Option.map_eq_some_iff.mp h
    obtain ⟨rfl, rfl⟩ := Prod.mk.inj hpair
    exact ⟨by simpa using List.find?_some ho', rfl⟩
  · cases h

theorem argfd_eq_some {fd : ℤ} (h : argfd pr fd = some (o, f)) : pr.ofile o = some f := by
  unfold argfd at h
  split at h
  · obtain ⟨f', hf', hpair⟩ := Option.map_eq_some_iff.mp h
    obtain ⟨rfl, rfl⟩ := Prod.mk.inj hpair
    exact hf'
  · cases h

theorem sysOpen_exact (h : Exact s) (hp : s.procs p = some pr) (path : Path) (omode : BitVec 32)
    (file fd : Bool) : Returns (sysOpen s p pr path omode file fd) fun r => Returned s r.1 := by
  unfold sysOpen
  have hbegun := h.counted.beginOp
  refine (openInode_counted hbegun (Exact.cwd_pos hp)).bind ?_
  rintro ⟨s₁, _ | ip⟩ hs₁
  · rw [add_taken_none] at hs₁
    exact .ok (h.after hs₁.endOp)
  -- the reference to `ip` is the call's own until a file takes it over
  have hheld : Settled (cwds s.procs + one ip) (fds s.procs) (0 + 1) s₁ := by
    refine Settled.after h ?_
    rw [add_right_comm]
    exact hs₁
  have hprocs : s₁.procs = s.procs := hs₁.procs
  dsimp only
  cases hfile : filealloc file s₁ with
  | none => exact (iunlockput_counted hs₁).bind fun s' hs' => .ok (h.after hs'.endOp)
  | some found =>
    obtain ⟨s₂, f⟩ := found
    obtain ⟨hs₂, hprocs₂, hfree, htype, hfiles⟩ := hheld.filealloc hfile
    dsimp only
    cases hfd : fdalloc fd pr f with
    | none =>
      refine hs₂.fileclose.bind fun s₃ hs₃ => ?_
      obtain ⟨hs₃, hprocs₃⟩ := hs₃
      have hcounted := hs₃.counted
      rw [add_right_comm] at hcounted
      refine (iunlockput_counted hcounted).bind fun s₄ hs₄ => .ok ?_
      have hsame : (endOp s₄).procs = s.procs :=
        hs₄.procs.trans (hprocs₃.trans (hprocs₂.trans hprocs))
      exact ⟨.of (hs₃.after hs₄.endOp) (by rw [hsame]) (by rw [hsame]), by rw [hsame]⟩
    | some found =>
    obtain ⟨pr', o⟩ := found
    obtain ⟨ho, rfl⟩ := fdalloc_eq_some hfd
    have hset := hs₂.setProc p (some (pr.setFd o (some f)))
    refine (iunlock_counted hset.counted).bind fun s₃ hs₃ => .ok ?_
    have hfile₃ : (s₃.files f).type = .none := by
      rw [hs₃.files]
      show (s₂.files f).type = _
      rw [hfiles, update_self]
      exact htype
    -- the file now holds the inode, and the descriptor the file
    have hended := (hset.after hs₃).after (hset.after hs₃).counted.endOp
    refine Exact.openFd hp ho (hended.onInode hfile₃ rfl rfl rfl (by simp)) ?_
    show s₃.procs = _
    rw [hs₃.procs]
    show update s₂.procs p _ = _
    rw [hprocs₂, hprocs]

/-- A process gives up a descriptor and the file it is for, in either order. -/
theorem Exact.closeFd (hp : s.procs p = some pr)
    (hs' : Settled (cwds s.procs) (fds (update s.procs p (some (pr.setFd o none)))) 0 s')
    (hprocs : s'.procs = update s.procs p (some (pr.setFd o none))) : Returned s s' := by
  have hcw : cwds s'.procs = cwds s.procs := by
    rw [hprocs]
    exact cwds_setFd hp
  exact ⟨.of hs' hcw (by rw [hprocs]), hcw⟩

section

variable (h : Exact s) (hp : s.procs p = some pr)

include h hp

theorem Exact.split (ho : pr.ofile o = some f) :
    Settled (cwds s.procs) (fds (update s.procs p (some (pr.setFd o none))) + one f) 0
      s := by
  rw [fds_clear hp ho]
  exact h

theorem sysClose_exact (fd : ℤ) : Returns (sysClose s p pr fd) fun r => Returned s r.1 := by
  unfold sysClose
  cases hfd : argfd pr fd with
  | none => exact .ok ⟨h, rfl⟩
  | some found =>
    obtain ⟨o, f⟩ := found
    have ho := argfd_eq_some hfd
    refine ((h.split hp ho).setProc p (some (pr.setFd o none))).fileclose.bind fun s' hs' => .ok ?_
    exact Exact.closeFd hp hs'.1 hs'.2

theorem sysDup_exact (fd : ℤ) (may : Bool) :
    Returns (sysDup s p pr fd may) fun r => Returned s r.1 := by
  unfold sysDup
  cases hfd : argfd pr fd with
  | none => exact .ok ⟨h, rfl⟩
  | some found =>
    obtain ⟨_, f⟩ := found
    dsimp only
    cases halloc : fdalloc may pr f with
    | none => exact .ok ⟨h, rfl⟩
    | some found =>
      obtain ⟨pr', o⟩ := found
      obtain ⟨ho, rfl⟩ := fdalloc_eq_some halloc
      exact (h.setProc p _).filedup.bind fun s' hs' => .ok (Exact.openFd hp ho hs'.1 hs'.2)

theorem sysChdir_exact (path : Path) : Returns (sysChdir s p pr path) fun r => Exact r.1 := by
  unfold sysChdir
  refine (namei_counted h.counted.beginOp (Exact.cwd_pos hp)).bind ?_
  rintro ⟨s₁, _ | ip⟩ hs₁
  · rw [add_taken_none] at hs₁
    exact .ok (h.after hs₁.endOp).exact
  refine (ilock_counted hs₁).bind fun s₂ hs₂ => .ite (fun _ => ?_) fun _ => ?_
  · exact (iunlockput_counted hs₂).bind fun s' hs' => .ok (h.after hs'.endOp).exact
  refine (iunlock_counted hs₂).bind fun s₃ hs₃ => ?_
  -- the call's reference becomes that of the process, whose old one is dropped
  have hcw := cwds_update s.procs p (some { pr with cwd := ip })
  rw [hp] at hcw
  have hswap : Counted s (cwds (update s.procs p (some { pr with cwd := ip })) +
      opens s.files + one pr.cwd) (0 + 1) s₃ := by
    have hheld : cwds (update s.procs p (some { pr with cwd := ip })) + one pr.cwd =
        cwds s.procs + one ip := hcw
    rw [add_right_comm, hheld, add_right_comm]
    exact hs₃
  refine (iput_counted hswap).bind fun s₄ hs₄ => .ok ?_
  have hdone := (Settled.after h hs₄.endOp).setProc p (some { pr with cwd := ip })
  have hprocs : ((endOp s₄).setProc p (some { pr with cwd := ip })).procs =
      update s.procs p (some { pr with cwd := ip }) := by
    show update s₄.procs p _ = _
    rw [hs₄.procs]
  have hfds : fds (update s.procs p (some { pr with cwd := ip })) = fds s.procs := by
    have heq := fds_update s.procs p (some { pr with cwd := ip })
    rw [hp] at heq
    exact add_right_cancel heq
  unfold Exact
  rw [hprocs, hfds]
  exact hdone

end

/-! ### Pipes -/

theorem pipealloc_settled (h : Settled cw fd 0 s) (f₀ f₁ page : Bool) :
    Returns (pipealloc s f₀ f₁ page) fun r =>
      r.1.procs = s.procs ∧
        match r.2 with
        | none => Settled cw fd 0 r.1
        | some (rf, wf) => Settled cw (fd + one rf + one wf) 0 r.1 := by
  unfold pipealloc
  cases h₀ : filealloc f₀ s with
  | none => exact .ok ⟨rfl, h⟩
  | some found =>
    obtain ⟨s₁, rf⟩ := found
    obtain ⟨hs₁, hprocs₁, -, htype₁, hfiles₁⟩ := h.filealloc h₀
    dsimp only
    cases h₁ : filealloc f₁ s₁ with
    | none =>
      refine hs₁.fileclose.bind fun s₂ hs₂ => .ok ⟨?_, hs₂.1⟩
      rw [hs₂.2, hprocs₁]
    | some found =>
    obtain ⟨s₂, wf⟩ := found
    obtain ⟨hs₂, hprocs₂, hfree, htype₂, hfiles₂⟩ := hs₁.filealloc h₁
    have hprocs : s₂.procs = s.procs := hprocs₂.trans hprocs₁
    -- the second file is another one, since the first is in use
    have hne : rf ≠ wf := by
      rintro rfl
      simp at hfree
    refine .ite (fun _ => .ok ⟨hprocs, ?_⟩) fun _ => ?_
    · have hrf : (s₂.files rf).type = .none := by
        rw [hfiles₂, update_of_ne hne, hfiles₁, update_self]
        exact htype₁
      have hwf : (s₂.files wf).type = .none := by
        rw [hfiles₂, update_self]
        exact htype₂
      have hrfs := hs₂.setType (f := rf)
        (x := { s₂.files rf with type := .pipe, readable := true, writable := false })
        hrf (by simp) rfl (by simp)
      refine hrfs.setType ?_ (by simp) rfl (by simp)
      show (update s₂.files rf _ wf).type = .none
      rw [update_of_ne hne.symm]
      exact hwf
    · rw [add_right_comm] at hs₂
      refine hs₂.fileclose.bind fun s₃ hs₃ => ?_
      refine hs₃.1.fileclose.bind fun s₄ hs₄ => .ok ⟨?_, hs₄.1⟩
      rw [hs₄.2, hs₃.2, hprocs]

theorem pipeFails_settled {rf wf : Fin NFILE} (h : Settled cw (fd + one rf + one wf) 0 s) :
    Returns (pipeFails s rf wf) fun r => r.1.procs = s.procs ∧ Settled cw fd 0 r.1 := by
  unfold pipeFails
  rw [add_right_comm] at h
  refine h.fileclose.bind fun s₁ hs₁ => hs₁.1.fileclose.bind fun s₂ hs₂ => .ok ⟨?_, hs₂.1⟩
  rw [hs₂.2, hs₁.2]

theorem sysPipe_exact (h : Exact s) (hp : s.procs p = some pr) (f₀ f₁ page d₀ d₁ : Bool) :
    Returns (sysPipe s p pr f₀ f₁ page d₀ d₁) fun r => Returned s r.1 := by
  -- after a failure the processes are as before
  have hsame : ∀ {s' : State}, s'.procs = s.procs →
      Settled (cwds s.procs) (fds s.procs) 0 s' → Returned s s' := by
    intro s' hprocs hs'
    exact ⟨.of hs' (by rw [hprocs]) (by rw [hprocs]), by rw [hprocs]⟩
  unfold sysPipe
  refine (pipealloc_settled h f₀ f₁ page).bind ?_
  rintro ⟨s₁, _ | ⟨rf, wf⟩⟩ ⟨hprocs, hs₁⟩
  · exact .ok (hsame hprocs hs₁)
  dsimp only at hs₁ hprocs ⊢
  cases h₀ : fdalloc d₀ pr rf with
  | none => exact (pipeFails_settled hs₁).mono fun r hr => hsame (hr.1.trans hprocs) hr.2
  | some found =>
    obtain ⟨pr₁, o₀⟩ := found
    obtain ⟨ho₀, rfl⟩ := fdalloc_eq_some h₀
    dsimp only
    cases h₁ : fdalloc d₁ (pr.setFd o₀ (some rf)) wf with
    | none =>
      refine (pipeFails_settled (hs₁.setProc p _)).mono fun r hr => hsame ?_ hr.2
      -- the descriptor is free again
      have hback : (pr.setFd o₀ (some rf)).setFd o₀ none = pr := by
        simp only [Proc.setFd, update_idem]
        rw [← ho₀, update_eq_self]
      rw [hr.1]
      show update s₁.procs p _ = _
      rw [hback, hprocs, ← hp, update_eq_self]
    | some found =>
    obtain ⟨pr₂, o₁⟩ := found
    obtain ⟨ho₁, rfl⟩ := fdalloc_eq_some h₁
    refine .ok ?_
    have hset := hs₁.setProc p (some ((pr.setFd o₀ (some rf)).setFd o₁ (some wf)))
    -- one descriptor after the other
    set procs₁ := update s.procs p (some (pr.setFd o₀ (some rf))) with hprocs₁
    have hp₁ : procs₁ p = some (pr.setFd o₀ (some rf)) := update_self ..
    have hprocs₂ : (s₁.setProc p (some ((pr.setFd o₀ (some rf)).setFd o₁ (some wf)))).procs =
        update procs₁ p (some ((pr.setFd o₀ (some rf)).setFd o₁ (some wf))) := by
      rw [hprocs₁, update_idem, ← hprocs]
      rfl
    have hcw : cwds (update procs₁ p
        (some ((pr.setFd o₀ (some rf)).setFd o₁ (some wf)))) = cwds s.procs :=
      (cwds_setFd hp₁).trans (cwds_setFd hp)
    have hfds : fds (update procs₁ p
        (some ((pr.setFd o₀ (some rf)).setFd o₁ (some wf)))) =
        fds s.procs + one rf + one wf := by
      rw [← fds_set hp ho₀]
      exact fds_set hp₁ ho₁
    exact ⟨.of hset (by rw [hprocs₂, hcw]) (by rw [hprocs₂, hfds]), by rw [hprocs₂, hcw]⟩

/-! ### Processes -/

/-- The descriptors in the list `l` for a file. -/
def refsIn (ofile : Fin NOFILE → Option (Fin NFILE)) (l : List (Fin NOFILE)) (f : Fin NFILE) : ℕ :=
  (l.map fun o => if ofile o = some f then 1 else 0).sum

theorem refsIn_finRange (pr : Proc) :
    refsIn pr.ofile (List.finRange NOFILE) = (fdRefs · (some pr)) := by
  funext f
  show _ = fdRefs f (some pr)
  rw [fdRefs_some, total_eq_sum, Fin.sum_univ_def]
  rfl

theorem refsIn_cons_none {ofile : Fin NOFILE → Option (Fin NFILE)} (l : List (Fin NOFILE))
    (h : ofile o = none) : refsIn ofile (o :: l) = refsIn ofile l := by
  funext f
  simp [refsIn, h]

theorem refsIn_cons_some {ofile : Fin NOFILE → Option (Fin NFILE)} (l : List (Fin NOFILE))
    (h : ofile o = some f) : refsIn ofile (o :: l) = one f + refsIn ofile l := by
  funext g
  simp [refsIn, h, one_apply]

theorem dupFiles_settled {ops : ℤ} (h : Settled cw fd ops s) (pr : Proc) :
    Returns (dupFiles s pr.ofile) fun s' =>
      Settled cw (fd + (fdRefs · (some pr))) ops s' ∧ s'.procs = s.procs := by
  unfold dupFiles
  rw [← refsIn_finRange]
  -- the references taken so far and those still to be taken add up
  refine Ensures.mono (Ensures.foldlM
    (fun rest s' => s'.procs = s.procs ∧ ∃ fd', Settled cw fd' ops s' ∧
      fd' + refsIn pr.ofile rest = fd + refsIn pr.ofile (List.finRange NOFILE))
    ⟨rfl, fd, h, rfl⟩ ?_) ?_
  · rintro o rest s₁ ⟨hprocs, fd', hs₁, hsum⟩
    cases ho : pr.ofile o with
    | none =>
      rw [refsIn_cons_none rest ho] at hsum
      exact .ok ⟨hprocs, fd', hs₁, hsum⟩
    | some f =>
      rw [refsIn_cons_some rest ho, ← add_assoc] at hsum
      exact hs₁.filedup.mono fun s₂ hs₂ => ⟨hs₂.2.trans hprocs, fd' + one f, hs₂.1, hsum⟩
  · rintro s' ⟨hprocs, fd', hs', hsum⟩
    have hnil : refsIn pr.ofile [] = 0 := rfl
    rw [hnil, add_zero] at hsum
    exact ⟨hsum ▸ hs', hprocs⟩

theorem fork_exact (h : Exact s) (hp : s.procs p = some pr) (child : Fin NPROC) (memory : Bool) :
    Returns (fork s pr child memory) Exact := by
  unfold fork
  refine .ite (fun _ => .ok h) fun hfree => (dupFiles_settled h pr).bind fun s₁ hs₁ => .ok ?_
  obtain ⟨hs₁, hprocs⟩ := hs₁
  have hchild : s.procs child = none := by simpa using not_or.mp hfree |>.1
  -- the child's working directory is one more reference, as are its descriptors
  have hpos : 0 < (cwds s.procs + opens s₁.files) pr.cwd := Nat.add_pos_left (cwds_pos hp) _
  have hdup := idup_counted hs₁.counted hpos
  rw [add_right_comm] at hdup
  have hset := (hs₁.after hdup).setProc child (some pr)
  have hupdate : ((idup s₁ pr.cwd).setProc child (some pr)).procs =
      update s.procs child (some pr) := by
    rw [← hprocs]
    rfl
  refine .of hset ?_ ?_
  · have heq := cwds_update s.procs child (some pr)
    rw [hchild] at heq
    rw [hupdate]
    exact heq
  · have heq := fds_update s.procs child (some pr)
    rw [hchild] at heq
    rw [hupdate]
    exact heq

/-- What `exit` keeps while it closes the descriptors: those still to come are `rest`. -/
structure Closing (s₀ : State) (p : Fin NPROC) (cwd : Ip) (rest : List (Fin NOFILE)) (s : State) :
    Prop where
  returned : Returned s₀ s
  proc : ∃ pr, s.procs p = some pr ∧ pr.cwd = cwd ∧ ∀ o, o ∉ rest → pr.ofile o = none

theorem closeFd_closing {s₀ : State} {cwd : Ip} {rest : List (Fin NOFILE)}
    (h : Closing s₀ p cwd (o :: rest) s) : Returns (closeFd p s o) (Closing s₀ p cwd rest) := by
  obtain ⟨pr, hp, hcwd, hclosed⟩ := h.proc
  unfold closeFd
  rw [hp]
  dsimp only
  cases ho : pr.ofile o with
  | none =>
    refine .ok ⟨h.returned, pr, hp, hcwd, fun o' ho' => ?_⟩
    by_cases heq : o' = o
    · rw [heq, ho]
    · exact hclosed o' (by simp [heq, ho'])
  | some f =>
    refine (h.returned.exact.split hp ho).fileclose.bind fun s' hs' => .ok ?_
    obtain ⟨hs', hprocs⟩ := hs'
    have hp' : (s'.setProc p (some (pr.setFd o none))).procs p = some (pr.setFd o none) :=
      update_self ..
    have hclose : Returned s (s'.setProc p (some (pr.setFd o none))) := by
      refine Exact.closeFd hp (hs'.setProc p _) ?_
      rw [← hprocs]
      rfl
    refine ⟨⟨hclose.exact, hclose.cwds.trans h.returned.cwds⟩, pr.setFd o none, hp', hcwd, ?_⟩
    intro o' ho'
    by_cases heq : o' = o
    · rw [heq]
      exact update_self ..
    · exact (update_of_ne heq ..).trans (hclosed o' (by simp [heq, ho']))

/-- What is left of a process that has closed its files is its working directory. -/
theorem Closing.last {s₀ : State} {cwd : Ip} (h : Closing s₀ p cwd [] s) :
    cwds (update s.procs p none) + one cwd = cwds s.procs ∧
      fds (update s.procs p none) = fds s.procs := by
  obtain ⟨pr, hp, hcwd, hclosed⟩ := h.proc
  constructor
  · have heq := cwds_update s.procs p none
    rw [hp] at heq
    rw [← hcwd]
    exact heq
  · have heq := fds_update s.procs p none
    have hzero : (fdRefs · (some pr)) = (0 : Fin NFILE → ℕ) := by
      funext f
      exact total_eq_zero_iff.mpr fun o => by simp [hclosed o]
    rw [hp, hzero, add_zero] at heq
    exact heq

variable (h : Exact s) (hp : s.procs p = some pr)

include h hp

theorem Closing.init :
    Closing s p pr.cwd (List.finRange NOFILE) s :=
  ⟨⟨h, rfl⟩, pr, hp, rfl, fun o ho => absurd (List.mem_finRange o) ho⟩

theorem exit_exact : Returns (exit s p pr) Exact := by
  unfold exit
  refine .ite (fun _ => .error trivial) fun _ => ?_
  refine (Ensures.foldlM (Closing s p pr.cwd) (Closing.init h hp) fun o rest s hs =>
    closeFd_closing hs).bind fun s₁ hs₁ => ?_
  obtain ⟨hcw, hfds⟩ := hs₁.last
  have hcounted := hs₁.returned.exact.counted.beginOp
  rw [← hcw, add_right_comm] at hcounted
  refine (iput_counted hcounted).bind fun s₂ hs₂ => .ok ?_
  have hprocs : ((endOp s₂).setProc p none).procs = update s₁.procs p none := by
    rw [← hs₂.procs]
    rfl
  refine .of ((Settled.after hs₁.returned.exact hs₂.endOp).setProc p none) ?_ ?_
  · rw [hprocs]
  · rw [hprocs, hfds]

/-! ### Sequences of calls -/

/-- **Every call, whatever it returns and wherever an allocation in it fails.** -/
theorem syscall_exact (c : Call) :
    Returns (syscall s p pr c) Exact := by
  have hcwd := Exact.cwd_pos hp
  have hidle : Exact (endOp (beginOp s)) := (h.after h.counted.beginOp.endOp).exact
  -- calls that are about inodes only
  have hafter : ∀ r : State × ℤ, Counted s (cwds s.procs + opens s.files) 0 r.1 → Exact r.1 :=
    fun _ hr => (h.after hr).exact
  cases c with
  | «open» path omode file fd =>
    cases path with
    | none => exact .ok h
    | some path => exact ((sysOpen_exact h hp path omode file fd).mono fun _ hr => hr.exact).map
  | close fd => exact ((sysClose_exact h hp fd).mono fun _ hr => hr.exact).map
  | dup fd may => exact ((sysDup_exact h hp fd may).mono fun _ hr => hr.exact).map
  | pipe buf f₀ f₁ page d₀ d₁ =>
    cases buf with
    | false => exact .ok h
    | true => exact ((sysPipe_exact h hp f₀ f₁ page d₀ d₁).mono fun _ hr => hr.exact).map
  | link old new =>
    cases old with
    | none => exact .ok h
    | some old =>
      cases new with
      | none => exact .ok h
      | some new => exact ((sysLink_counted h.counted hcwd old new).mono hafter).map
  | unlink path =>
    cases path with
    | none => exact .ok h
    | some path => exact ((sysUnlink_counted h.counted hcwd path).mono hafter).map
  | mkdir path =>
    cases path with
    | none => exact .ok hidle
    | some path => exact ((createOnly_counted h.counted hcwd path _ _ _).mono hafter).map
  | mknod path major minor =>
    cases path with
    | none => exact .ok hidle
    | some path => exact ((createOnly_counted h.counted hcwd path _ _ _).mono hafter).map
  | chdir path =>
    cases path with
    | none => exact .ok hidle
    | some path => exact (sysChdir_exact h hp path).map
  | fork child memory => exact fork_exact h hp child memory
  | exec path segments stack =>
    cases path with
    | none => exact .ok h
    | some path =>
      exact ((exec_counted h.counted hcwd path segments stack).mono hafter).map
  | exit => exact exit_exact h hp

end Calls

theorem next_eq_some {s s' : State} {a : Fin NPROC × Call} (h : s.next a = some s') :
    ∃ pr, s.procs a.1 = some pr ∧ syscall s a.1 pr a.2 = .ok s' := by
  unfold State.next at h
  cases hp : s.procs a.1 with
  | none => simp [hp] at h
  | some pr =>
    rw [hp] at h
    dsimp only at h
    refine ⟨pr, rfl, ?_⟩
    cases hcall : syscall s a.1 pr a.2 with
    | error e => simp [hcall, Except.toOption] at h
    | ok s'' =>
      rw [hcall] at h
      rw [Option.some.inj h]

theorem next_exact {s s' : State} (h : Exact s) {a : Fin NPROC × Call}
    (hnext : s.next a = some s') : Exact s' := by
  obtain ⟨pr, hp, hcall⟩ := next_eq_some hnext
  exact (syscall_exact h hp a.2).of_eq_ok hcall

/-- The first process has nothing open, and the root as its working directory. -/
theorem boot_exact (inodes : Inum → Dinode) : Exact (boot inodes) := by
  have hcw : cwds (boot inodes).procs = one 0 := by
    funext ip
    refine (total_eq_single initproc fun p hp => ?_).trans ?_
    · simp [boot, hp, cwdRef]
    · simp [boot, cwdRef]
  have hopens : opens (boot inodes).files = 0 := by
    funext ip
    exact total_eq_zero_iff.mpr fun f => rfl
  have hfds : fds (boot inodes).procs = 0 := by
    funext f
    refine total_eq_zero_iff.mpr fun p => ?_
    by_cases hp : p = initproc
    · rw [hp]
      exact total_eq_zero_iff.mpr fun o => rfl
    · simp [boot, hp, fdRefs]
  refine Exact.of ⟨⟨rfl, rfl, rfl, ?_, ?_⟩, fun f => rfl, fun f _ => rfl⟩ hcw hfds
  · intro ip
    rw [hopens, add_zero]
    by_cases hip : ip = 0
    · simp [boot, hip]
    · simp [boot, hip]
  · intro ip ip' hpos hpos' _
    rw [hopens, add_zero] at hpos hpos'
    rw [one_apply] at hpos hpos'
    grind

/-- **Reference counts are exact.** After every sequence of calls of any processes, however they
return: the count of a file is the number of descriptors for it, that of an entry of the inode cache
the number of open files on it and of working directories; no two entries in use are for one inode,
and no operation is outstanding. -/
theorem refs_exact (inodes : Inum → Dinode) (calls : List (Fin NPROC × Call)) (s : State)
    (hrun : run State.next (boot inodes) calls = some s) :
    (∀ f, (s.files f).ref = fds s.procs f) ∧
      (∀ ip, (s.icache ip).ref = (opens s.files ip + cwds s.procs ip : ℕ)) ∧
      (∀ ip ip', 0 < (s.icache ip).ref → 0 < (s.icache ip').ref → s.inum ip = s.inum ip' →
        ip = ip') ∧
      s.outstanding = 0 := by
  have h : Exact s := run_preserves (C := fun _ _ => True)
    (fun s a s' hs _ hnext => next_exact hs hnext) (boot_exact inodes)
    (along_true _ _) hrun
  refine ⟨h.files.ref, fun ip => ?_, fun ip ip' hpos hpos' => ?_, h.counted.outstanding⟩
  · rw [h.counted.ref ip, add_comm]
    rfl
  · rw [h.counted.ref] at hpos hpos'
    exact h.counted.unique ip ip' (by exact_mod_cast hpos) (by exact_mod_cast hpos')

/-- A process with an open file forks; the child fails to open a second one and exits. -/
theorem refs_exact_fork :
    ∃ s, run State.next (boot rootOnly)
      [(0, .open (some ['a']) O_CREATE true true), (0, .fork 1 true), (1, .dup 0 true),
        (1, .open (some ['a']) O_RDONLY true false), (1, .exit)] = some s ∧
      (s.files 0).ref = fds s.procs 0 := by
  have hsome : (run State.next (boot rootOnly)
      [(0, .open (some ['a']) O_CREATE true true), (0, .fork 1 true), (1, .dup 0 true),
        (1, .open (some ['a']) O_RDONLY true false), (1, .exit)]).isSome = true := by
    decide +kernel
  obtain ⟨s, hs⟩ := Option.isSome_iff_exists.mp hsome
  exact ⟨s, hs, (refs_exact rootOnly _ s hs).1 0⟩

end Xv6.Fs
