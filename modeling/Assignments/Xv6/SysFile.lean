import Assignments.Xv6.Inode

/-!
# File system calls

The calls of `sysfile.c` that create, remove and hold inodes, with the file table of `file.c` and
the parts of `fork`, `exec` and `exit` that concern files. Each call is one step of the process
that makes it: a sequence of calls is a list of `Fin NPROC × Call`.

Calls return what the source does, -1 for a failure. An allocation that may fail takes a flag: it
succeeds only if it may and the table has room. `fork` is given the slot of the process table that
`allocproc` finds for the child; the slot of an exited process can be used again.
-/

namespace Xv6.Fs

open Framework

/-! ### Operations -/

def beginOp (s : State) : State := { s with outstanding := s.outstanding + 1 }

def endOp (s : State) : State := { s with outstanding := s.outstanding - 1 }

/-! ### The file table -/

def State.setFile (s : State) (f : Fin NFILE) (x : File) : State :=
  { s with files := Function.update s.files f x }

def State.setProc (s : State) (p : Fin NPROC) (pr : Option Proc) : State :=
  { s with procs := Function.update s.procs p pr }

def filealloc (may : Bool) (s : State) : Option (State × Fin NFILE) :=
  if may then
    ((List.finRange NFILE).find? fun f => (s.files f).ref = 0).map fun f =>
      (s.setFile f { s.files f with ref := 1 }, f)
  else
    none

def filedup (s : State) (f : Fin NFILE) : Except Stop State :=
  if (s.files f).ref < 1 then
    .error (.panic .filedup)
  else
    .ok (s.setFile f { s.files f with ref := (s.files f).ref + 1 })

def fileclose (s : State) (f : Fin NFILE) : Except Stop State :=
  let ff := s.files f
  if ff.ref < 1 then
    .error (.panic .fileclose)
  else if 0 < ff.ref - 1 then
    .ok (s.setFile f { ff with ref := ff.ref - 1 })
  else
    let s := s.setFile f { ff with ref := 0, type := .none }
    match ff.type with
    | .none => .ok s
    | .pipe => .ok s
    | .inode => do
      let s ← iput (beginOp s) ff.ip
      .ok (endOp s)

def Proc.setFd (pr : Proc) (fd : Fin NOFILE) (f : Option (Fin NFILE)) : Proc :=
  { pr with ofile := Function.update pr.ofile fd f }

/-- The lowest free descriptor, for the file `f`. -/
def fdalloc (may : Bool) (pr : Proc) (f : Fin NFILE) : Option (Proc × Fin NOFILE) :=
  if may then
    ((List.finRange NOFILE).find? fun fd => pr.ofile fd = none).map fun fd =>
      (pr.setFd fd (some f), fd)
  else
    none

/-- A descriptor and its file. -/
def argfd (pr : Proc) (fd : ℤ) : Option (Fin NOFILE × Fin NFILE) :=
  if h : 0 ≤ fd ∧ fd < NOFILE then
    let fd : Fin NOFILE := ⟨fd.toNat, by omega⟩
    (pr.ofile fd).map fun f => (fd, f)
  else
    none

/-! ### Links -/

/-- Adds to the link count of an inode. -/
def Dinode.addLinks (x : Dinode) (n : ℤ) : Dinode := { x with nlink := short (x.nlink + n) }

/-- The label `bad` of `sys_link`: the count was raised before the entry was written. -/
def undoLink (s : State) (ip : Ip) : Except Stop (State × ℤ) := do
  let s ← ilock s ip
  let s ← iunlockput (s.iupdate ip ((s.inode ip).addLinks (-1))) ip
  .ok (endOp s, -1)

def sysLink (s : State) (pr : Proc) (old new : Path) : Except Stop (State × ℤ) := do
  let (s, found) ← namei (beginOp s) pr.cwd old
  match found with
  | none => .ok (endOp s, -1)
  | some ip =>
    let s ← ilock s ip
    if (s.inode ip).type = .dir then
      let s ← iunlockput s ip
      .ok (endOp s, -1)
    else
      let s ← iunlock (s.iupdate ip ((s.inode ip).addLinks 1)) ip
      let (s, parent) ← nameiparent s pr.cwd new
      match parent with
      | none => undoLink s ip
      | some (dp, name) =>
        let s ← ilock s dp
        let (s, linked) ← dirlink s dp name (s.inum ip)
        let s ← iunlockput s dp
        if linked then
          let s ← iput s ip
          .ok (endOp s, 0)
        else
          undoLink s ip

/-- No entry beyond `.` and `..` is in use. -/
def Dinode.isdirempty (x : Dinode) : Bool := (x.dirents.drop 2).all fun e => e.inum = 0

/-- The label `bad` of `sys_unlink`. -/
def unlinkFails (s : State) (dp : Ip) : Except Stop (State × ℤ) := do
  let s ← iunlockput s dp
  .ok (endOp s, -1)

/-- The directory `dp` without its entry for `ip`; the entry `..` of a directory that goes was a
link to `dp`. -/
def withoutEntry (dp ip : Dinode) (off : ℕ) : Dinode :=
  if ip.type = .dir then (dp.clearEntry off).addLinks (-1) else dp.clearEntry off

def sysUnlink (s : State) (pr : Proc) (path : Path) : Except Stop (State × ℤ) := do
  let (s, parent) ← nameiparent (beginOp s) pr.cwd path
  match parent with
  | none => .ok (endOp s, -1)
  | some (dp, name) =>
    let s ← ilock s dp
    if name = dot ∨ name = dotdot then
      unlinkFails s dp
    else
      let (s, found) ← dirlookup s dp name
      match found with
      | none => unlinkFails s dp
      | some (ip, off) =>
        let s ← ilock s ip
        if (s.inode ip).nlink < 1 then
          .error (.panic .unlinkNlink)
        else if (s.inode ip).type = .dir ∧ (s.inode ip).isdirempty = false then
          let s ← iunlockput s ip
          unlinkFails s dp
        else
          let s ← iunlockput (s.iupdate dp (withoutEntry (s.inode dp) (s.inode ip) off)) dp
          let s ← iunlockput (s.iupdate ip ((s.inode ip).addLinks (-1))) ip
          .ok (endOp s, 0)

/-! ### New inodes -/

/-- The entries `.` and `..` of a new directory, and the link that `..` is to its parent. -/
def linkDots (s : State) (dp ip : Ip) : Except Stop State := do
  let (s, linked) ← dirlink (s.iupdate dp ((s.inode dp).addLinks 1)) ip dot (s.inum ip)
  if linked then
    let (s, linked) ← dirlink s ip dotdot (s.inum dp)
    if linked then .ok s else .error (.panic .createDots)
  else
    .error (.panic .createDots)

/-- The fields of a new inode, and its entries if it is a directory. -/
def initInode (s : State) (dp ip : Ip) (type : IType) (major minor : ℤ) : Except Stop State :=
  let s := s.iupdate ip
    { s.inode ip with major := short major, minor := short minor, nlink := 1 }
  if type = .dir then linkDots s dp ip else .ok s

/-- The inode of the path, locked; a new one unless a file is there already. -/
def create (s : State) (cwd : Ip) (path : Path) (type : IType) (major minor : ℤ) :
    Except Stop (State × Option Ip) := do
  let (s, parent) ← nameiparent s cwd path
  match parent with
  | none => .ok (s, none)
  | some (dp, name) =>
    let s ← ilock s dp
    let (s, found) ← dirlookup s dp name
    match found with
    | some (ip, _) =>
      let s ← iunlockput s dp
      let s ← ilock s ip
      if type = .file ∧ (s.inode ip).type = .file then
        .ok (s, some ip)
      else
        let s ← iunlockput s ip
        .ok (s, none)
    | none =>
      let (s, ip) ← ialloc s type
      let s ← ilock s ip
      let s ← initInode s dp ip type major minor
      let (s, linked) ← dirlink s dp name (s.inum ip)
      if linked then
        let s ← iunlockput s dp
        .ok (s, some ip)
      else
        .error (.panic .createDirlink)

/-- `sys_mkdir` and `sys_mknod` drop the inode they created. -/
def createOnly (s : State) (pr : Proc) (path : Path) (type : IType) (major minor : ℤ) :
    Except Stop (State × ℤ) := do
  let (s, created) ← create (beginOp s) pr.cwd path type major minor
  match created with
  | none => .ok (endOp s, -1)
  | some ip =>
    let s ← iunlockput s ip
    .ok (endOp s, 0)

def sysMkdir (s : State) (pr : Proc) (path : Path) : Except Stop (State × ℤ) :=
  createOnly s pr path .dir 0 0

def sysMknod (s : State) (pr : Proc) (path : Path) (major minor : ℤ) : Except Stop (State × ℤ) :=
  createOnly s pr path .dev major minor

/-! ### Open files and working directories -/

def O_RDONLY : BitVec 32 := 0x000

def O_WRONLY : BitVec 32 := 0x001

def O_RDWR : BitVec 32 := 0x002

def O_CREATE : BitVec 32 := 0x200

/-- The inode that `sys_open` is to open, locked. -/
def openInode (s : State) (cwd : Ip) (path : Path) (omode : BitVec 32) :
    Except Stop (State × Option Ip) :=
  if omode &&& O_CREATE ≠ 0 then
    create s cwd path .file 0 0
  else do
    let (s, found) ← namei s cwd path
    match found with
    | none => .ok (s, none)
    | some ip =>
      let s ← ilock s ip
      if (s.inode ip).type = .dir ∧ omode ≠ O_RDONLY then
        let s ← iunlockput s ip
        .ok (s, none)
      else
        .ok (s, some ip)

def sysOpen (s : State) (p : Fin NPROC) (pr : Proc) (path : Path) (omode : BitVec 32)
    (file fd : Bool) : Except Stop (State × ℤ) := do
  let (s, opened) ← openInode (beginOp s) pr.cwd path omode
  match opened with
  | none => .ok (endOp s, -1)
  | some ip =>
    match filealloc file s with
    | none =>
      let s ← iunlockput s ip
      .ok (endOp s, -1)
    | some (s, f) =>
      match fdalloc fd pr f with
      | none =>
        let s ← fileclose s f
        let s ← iunlockput s ip
        .ok (endOp s, -1)
      | some (pr, fd) =>
        let s ← iunlock (s.setProc p (some pr)) ip
        .ok ((endOp s).setFile f
          { type := .inode
            ref := (s.files f).ref
            readable := omode &&& O_WRONLY = 0
            writable := omode &&& O_WRONLY ≠ 0 ∨ omode &&& O_RDWR ≠ 0
            ip := ip }, fd)

def sysClose (s : State) (p : Fin NPROC) (pr : Proc) (fd : ℤ) : Except Stop (State × ℤ) :=
  match argfd pr fd with
  | none => .ok (s, -1)
  | some (fd, f) => do
    let s ← fileclose (s.setProc p (some (pr.setFd fd none))) f
    .ok (s, 0)

def sysDup (s : State) (p : Fin NPROC) (pr : Proc) (fd : ℤ) (may : Bool) :
    Except Stop (State × ℤ) :=
  match argfd pr fd with
  | none => .ok (s, -1)
  | some (_, f) =>
    match fdalloc may pr f with
    | none => .ok (s, -1)
    | some (pr, fd) => do
      let s ← filedup (s.setProc p (some pr)) f
      .ok (s, fd)

def sysChdir (s : State) (p : Fin NPROC) (pr : Proc) (path : Path) : Except Stop (State × ℤ) := do
  let (s, found) ← namei (beginOp s) pr.cwd path
  match found with
  | none => .ok (endOp s, -1)
  | some ip =>
    let s ← ilock s ip
    if (s.inode ip).type ≠ .dir then
      let s ← iunlockput s ip
      .ok (endOp s, -1)
    else
      let s ← iunlock s ip
      let s ← iput s pr.cwd
      .ok ((endOp s).setProc p (some { pr with cwd := ip }), 0)

/-! ### Pipes -/

/-- Two files for the ends of a pipe; `page` is for the pipe itself. -/
def pipealloc (s : State) (f₀ f₁ page : Bool) :
    Except Stop (State × Option (Fin NFILE × Fin NFILE)) :=
  match filealloc f₀ s with
  | none => .ok (s, none)
  | some (s, rf) =>
    match filealloc f₁ s with
    | none => do
      let s ← fileclose s rf
      .ok (s, none)
    | some (s, wf) =>
      if page then
        let s := s.setFile rf { s.files rf with type := .pipe, readable := true, writable := false }
        let s := s.setFile wf { s.files wf with type := .pipe, readable := false, writable := true }
        .ok (s, some (rf, wf))
      else do
        let s ← fileclose s rf
        let s ← fileclose s wf
        .ok (s, none)

/-- Both files are closed when there is no descriptor for one of them. -/
def pipeFails (s : State) (rf wf : Fin NFILE) : Except Stop (State × ℤ) := do
  let s ← fileclose s rf
  let s ← fileclose s wf
  .ok (s, -1)

def sysPipe (s : State) (p : Fin NPROC) (pr : Proc) (f₀ f₁ page d₀ d₁ : Bool) :
    Except Stop (State × ℤ) := do
  let (s, files) ← pipealloc s f₀ f₁ page
  match files with
  | none => .ok (s, -1)
  | some (rf, wf) =>
    match fdalloc d₀ pr rf with
    | none => pipeFails s rf wf
    | some (pr, fd₀) =>
      match fdalloc d₁ pr wf with
      | none => pipeFails (s.setProc p (some (pr.setFd fd₀ none))) rf wf
      | some (pr, _) => .ok (s.setProc p (some pr), 0)

/-! ### Processes -/

/-- The first process, which may not exit. -/
def initproc : Fin NPROC := 0

/-- Another reference to each open file. -/
def dupFiles (s : State) (ofile : Fin NOFILE → Option (Fin NFILE)) : Except Stop State :=
  (List.finRange NOFILE).foldlM (fun s fd =>
    match ofile fd with
    | none => .ok s
    | some f => filedup s f) s

def fork (s : State) (pr : Proc) (child : Fin NPROC) (memory : Bool) : Except Stop State :=
  -- `allocproc` finds no slot, or there is no page for the stack or the copy of the memory
  if (s.procs child).isSome ∨ memory = false then
    .ok s
  else do
    let s ← dupFiles s pr.ofile
    .ok ((idup s pr.cwd).setProc child (some pr))

/-- The label `bad` of `exec`. -/
def execBad (s : State) (ip : Option Ip) : Except Stop (State × ℤ) :=
  match ip with
  | none => .ok (s, -1)
  | some ip => do
    let s ← iunlockput s ip
    .ok (endOp s, -1)

/-- The program file is given back after its segments are loaded, before the stack is made. The
flags say whether that succeeds: `segments` for the header, the page directory and the segments,
`stack` for the pages of the stack and the arguments on it. -/
def exec (s : State) (pr : Proc) (path : Path) (segments stack : Bool) :
    Except Stop (State × ℤ) := do
  let (s, found) ← namei (beginOp s) pr.cwd path
  match found with
  | none => .ok (endOp s, -1)
  | some ip =>
    let s ← ilock s ip
    if segments = false then
      execBad s (some ip)
    else
      let s ← iunlockput s ip
      if stack = false then execBad (endOp s) none else .ok (endOp s, 0)

def closeFd (p : Fin NPROC) (s : State) (fd : Fin NOFILE) : Except Stop State :=
  match s.procs p with
  | none => .ok s
  | some pr =>
    match pr.ofile fd with
    | none => .ok s
    | some f => do
      let s ← fileclose s f
      .ok (s.setProc p (some (pr.setFd fd none)))

def exit (s : State) (p : Fin NPROC) (pr : Proc) : Except Stop State :=
  if p = initproc then
    .error (.panic .initExiting)
  else do
    let s ← (List.finRange NOFILE).foldlM (closeFd p) s
    let s ← iput (beginOp s) pr.cwd
    .ok ((endOp s).setProc p none)

/-! ### Calls -/

/-- A system call with its arguments. The path `none` stands for an argument that `argstr` refuses,
as does the flag `buf` for `argptr`. -/
inductive Call where
  | open (path : Option Path) (omode : BitVec 32) (file fd : Bool)
  | close (fd : ℤ)
  | dup (fd : ℤ) (may : Bool)
  | pipe (buf f₀ f₁ page d₀ d₁ : Bool)
  | link (old new : Option Path)
  | unlink (path : Option Path)
  | mkdir (path : Option Path)
  | mknod (path : Option Path) (major minor : ℤ)
  | chdir (path : Option Path)
  | fork (child : Fin NPROC) (memory : Bool)
  | exec (path : Option Path) (segments stack : Bool)
  | exit

/-- The state a call returns in. `sys_mkdir`, `sys_mknod` and `sys_chdir` fetch their arguments
after `begin_op`, the others before. -/
def syscall (s : State) (p : Fin NPROC) (pr : Proc) : Call → Except Stop State
  | .open (some path) omode file fd => Prod.fst <$> sysOpen s p pr path omode file fd
  | .open none _ _ _ => .ok s
  | .close fd => Prod.fst <$> sysClose s p pr fd
  | .dup fd may => Prod.fst <$> sysDup s p pr fd may
  | .pipe true f₀ f₁ page d₀ d₁ => Prod.fst <$> sysPipe s p pr f₀ f₁ page d₀ d₁
  | .pipe false _ _ _ _ _ => .ok s
  | .link (some old) (some new) => Prod.fst <$> sysLink s pr old new
  | .link _ _ => .ok s
  | .unlink (some path) => Prod.fst <$> sysUnlink s pr path
  | .unlink none => .ok s
  | .mkdir (some path) => Prod.fst <$> sysMkdir s pr path
  | .mkdir none => .ok (endOp (beginOp s))
  | .mknod (some path) major minor => Prod.fst <$> sysMknod s pr path major minor
  | .mknod none _ _ => .ok (endOp (beginOp s))
  | .chdir (some path) => Prod.fst <$> sysChdir s p pr path
  | .chdir none => .ok (endOp (beginOp s))
  | .fork child memory => fork s pr child memory
  | .exec (some path) segments stack => Prod.fst <$> exec s pr path segments stack
  | .exec none _ _ => .ok s
  | .exit => exit s p pr

/-- A call of the process in slot `p`. A call that stops the kernel, or never returns, has no next
state. -/
def State.next (s : State) (a : Fin NPROC × Call) : Option State :=
  match s.procs a.1 with
  | none => none
  | some pr => (syscall s a.1 pr a.2).toOption

/-- After `userinit`: the first process, with the root as working directory. -/
def boot (inodes : Inum → Dinode) : State where
  inodes := inodes
  icache := fun ip => if ip = 0 then ⟨ROOTINO, 1, false, false⟩ else ⟨0, 0, false, false⟩
  outstanding := 0
  files := fun _ => ⟨.none, 0, false, false, 0⟩
  procs := fun p => if p = initproc then some ⟨fun _ => none, 0⟩ else none

end Xv6.Fs
