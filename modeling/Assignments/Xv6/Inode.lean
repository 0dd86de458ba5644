import Assignments.Framework.Table
import Assignments.Framework.Outcome
import Assignments.Xv6.Log
import Assignments.Xv6.Path

/-!
# Inodes, directories and paths

The inode layer of `fs.c`: the inodes on the disk, the inode cache with its reference counts and
locks, directories and path lookup. A function that the kernel leaves by `panic`, or that waits for
a lock its own process holds, has no resulting state; it ends in a `Stop`.

A `struct inode *` is an index into the inode cache. A change of a cached inode is followed by
`iupdate` before its lock is released, so an inode is one record here, on the disk and in memory,
and an entry of the cache holds what the disk does not: which inode it is for, the reference count,
the valid flag and the lock. `bmap` on a hole is the exception: the address it enters for a block
below the size reaches the disk only when something else is written back. The kernel makes no holes,
and `mkfs` one at most, in the root (`Mkfs.fixSize`).

A directory is the list of its entries, in the order of their slots. Of other contents only the
number of disk blocks is kept, since a full disk makes `balloc` panic.
-/

namespace Xv6.Fs

open Framework

/-! ### Inodes on the disk -/

abbrev NINODES : ℕ := 200

/-- Inode cache entries. -/
abbrev NINODE : ℕ := 50

def NDIRECT : ℕ := 12

/-- Entries of a directory of the maximum size, `MAXFILE * BSIZE` bytes of 16 each. -/
def maxDirents : ℕ := (NDIRECT + 128) * 512 / 16

/-- Blocks for contents: all but the boot block, the superblock, the log, the inodes and the bitmap
of free blocks. -/
def nblocks : ℕ := FSSIZE - (2 + nlog + (NINODES / 8 + 1) + (FSSIZE / (512 * 8) + 1))

abbrev Inum : Type := Fin NINODES

def ROOTINO : Inum := 1

/-- A path, without its terminating NUL. -/
abbrev Path : Type := List Char

/-- A name as it is compared, at most `DIRSIZ` bytes and none of them NUL. -/
abbrev Name : Type := List Char

def dot : Name := ['.']

def dotdot : Name := ['.', '.']

/-- A directory entry; the inode number 0 marks a slot that is not in use. -/
structure Dirent where
  inum : Inum
  name : Name
deriving DecidableEq, Repr

inductive IType where
  | free
  | dir
  | file
  | dev
deriving DecidableEq, Repr

/-- A C `short`. -/
def short (n : ℤ) : ℤ := Int.bmod n (2 ^ 16)

structure Dinode where
  type : IType
  major : ℤ
  minor : ℤ
  nlink : ℤ
  /-- The contents of a directory. -/
  dirents : List Dirent
  /-- The number of blocks of other contents. -/
  data : ℕ
deriving DecidableEq, Repr

/-- Blocks of a directory with `n` entries, 32 to a block, with its indirect block. -/
def direntBlocks (n : ℕ) : ℕ :=
  let k := (n + 31) / 32
  if NDIRECT < k then k + 1 else k

def Dinode.blocks (x : Dinode) : ℕ :=
  match x.type with
  | .free => 0
  | .dir => direntBlocks x.dirents.length
  | .file => x.data
  | .dev => x.data

/-- Blocks that `balloc` has given out. -/
def used (inodes : Inum → Dinode) : ℕ := total Dinode.blocks inodes

/-- The inode that `iput` leaves on the disk when it frees one. -/
def Dinode.freed (x : Dinode) : Dinode := { x with type := .free, dirents := [], data := 0 }

/-! ### The state -/

/-- A pointer to an inode in memory. -/
abbrev Ip : Type := Fin NINODE

/-- An entry of the inode cache, without the copy of the inode. -/
structure Entry where
  inum : Inum
  ref : ℤ
  valid : Bool
  locked : Bool
deriving DecidableEq, Repr

inductive FileType where
  | none
  | pipe
  | inode
deriving DecidableEq, Repr

abbrev NFILE : ℕ := 100

abbrev NOFILE : ℕ := 16

abbrev NPROC : ℕ := 64

structure File where
  type : FileType
  ref : ℤ
  readable : Bool
  writable : Bool
  ip : Ip
deriving DecidableEq, Repr

structure Proc where
  ofile : Fin NOFILE → Option (Fin NFILE)
  cwd : Ip

structure State where
  inodes : Inum → Dinode
  icache : Ip → Entry
  /-- `log.outstanding`: the operations between `begin_op` and `end_op`. -/
  outstanding : ℤ
  /-- The file table. -/
  files : Fin NFILE → File
  procs : Fin NPROC → Option Proc

def State.inum (s : State) (ip : Ip) : Inum := (s.icache ip).inum

/-- The inode that an entry of the cache is for. -/
def State.inode (s : State) (ip : Ip) : Dinode := s.inodes (s.inum ip)

def State.setInode (s : State) (i : Inum) (x : Dinode) : State :=
  { s with inodes := Function.update s.inodes i x }

def State.setEntry (s : State) (ip : Ip) (e : Entry) : State :=
  { s with icache := Function.update s.icache ip e }

/-- `iupdate` of the cached inode, after a change. -/
def State.iupdate (s : State) (ip : Ip) (x : Dinode) : State := s.setInode (s.inum ip) x

/-! ### Where the kernel stops -/

inductive Panic where
  | igetNoInodes
  | ilock
  | ilockNoType
  | iunlock
  | iallocNoInodes
  | ballocOutOfBlocks
  | dirlookupNotDir
  | dirlink
  | unlinkNlink
  | createDots
  | createDirlink
  | filedup
  | fileclose
  | initExiting
deriving DecidableEq, Repr

inductive Stop where
  | panic (p : Panic)
  /-- The process waits for a sleep lock that it holds itself. -/
  | deadlock
deriving DecidableEq, Repr

/-! ### The inode cache -/

/-- The entry for an inode, if it is cached. -/
def State.cached (s : State) (i : Inum) : Option Ip :=
  (List.finRange NINODE).find? fun ip => 0 < (s.icache ip).ref ∧ s.inum ip = i

/-- The first entry that is not in use. -/
def State.empty (s : State) : Option Ip :=
  (List.finRange NINODE).find? fun ip => (s.icache ip).ref = 0

def iget (s : State) (i : Inum) : Except Stop (State × Ip) :=
  match s.cached i with
  | some ip => .ok (s.setEntry ip { s.icache ip with ref := (s.icache ip).ref + 1 }, ip)
  | none =>
    match s.empty with
    | some ip => .ok (s.setEntry ip { s.icache ip with inum := i, ref := 1, valid := false }, ip)
    | none => .error (.panic .igetNoInodes)

def idup (s : State) (ip : Ip) : State :=
  s.setEntry ip { s.icache ip with ref := (s.icache ip).ref + 1 }

def ilock (s : State) (ip : Ip) : Except Stop State :=
  if (s.icache ip).ref < 1 then
    .error (.panic .ilock)
  else if (s.icache ip).locked then
    .error .deadlock
  else if (s.icache ip).valid = false ∧ (s.inode ip).type = .free then
    .error (.panic .ilockNoType)
  else
    .ok (s.setEntry ip { s.icache ip with valid := true, locked := true })

def iunlock (s : State) (ip : Ip) : Except Stop State :=
  if (s.icache ip).locked = false ∨ (s.icache ip).ref < 1 then
    .error (.panic .iunlock)
  else
    .ok (s.setEntry ip { s.icache ip with locked := false })

/-- Drops a reference; the last one to an inode without links frees it. -/
def iput (s : State) (ip : Ip) : Except Stop State :=
  let e := s.icache ip
  if e.locked then
    .error .deadlock
  else if e.valid = true ∧ (s.inode ip).nlink = 0 ∧ e.ref = 1 then
    .ok ((s.iupdate ip (s.inode ip).freed).setEntry ip { e with valid := false, ref := e.ref - 1 })
  else
    .ok (s.setEntry ip { e with ref := e.ref - 1 })

def iunlockput (s : State) (ip : Ip) : Except Stop State := do
  let s ← iunlock s ip
  iput s ip

/-- The first free inode. -/
def freeInum (inodes : Inum → Dinode) : Option Inum :=
  (List.finRange NINODES).find? fun i => i ≠ 0 ∧ (inodes i).type = .free

def ialloc (s : State) (type : IType) : Except Stop (State × Ip) :=
  match freeInum s.inodes with
  | none => .error (.panic .iallocNoInodes)
  | some i => iget (s.setInode i ⟨type, 0, 0, 0, [], 0⟩) i

/-! ### Directories -/

/-- A slot in use with the name. -/
def Dirent.named (name : Name) (e : Dirent) : Bool := e.inum ≠ 0 ∧ e.name = name

/-- The slot of a name, and the inode number in it. -/
def Dinode.find (x : Dinode) (name : Name) : Option (Inum × ℕ) :=
  (x.dirents.find? (Dirent.named name)).map fun e =>
    (e.inum, x.dirents.findIdx (Dirent.named name))

def dirlookup (s : State) (dp : Ip) (name : Name) : Except Stop (State × Option (Ip × ℕ)) :=
  if (s.inode dp).type ≠ .dir then
    .error (.panic .dirlookupNotDir)
  else
    match (s.inode dp).find name with
    | none => .ok (s, none)
    | some (i, off) => do
      let (s, ip) ← iget s i
      .ok (s, some (ip, off))

/-- The entry in the first slot that is not in use, or in a new one. -/
def place (e : Dirent) : List Dirent → List Dirent
  | [] => [e]
  | d :: ds => if d.inum = 0 then e :: ds else d :: place e ds

def Dinode.addEntry (x : Dinode) (e : Dirent) : Dinode := { x with dirents := place e x.dirents }

def Dinode.clearEntry (x : Dinode) (off : ℕ) : Dinode :=
  { x with dirents := x.dirents.set off ⟨0, []⟩ }

/-- Writes the directory `dp`; a directory that has grown may need blocks. -/
def writeDir (s : State) (dp : Ip) (x : Dinode) : Except Stop State :=
  if maxDirents < x.dirents.length then
    .error (.panic .dirlink)
  else if (s.inode dp).blocks < x.blocks ∧
      nblocks < used (Function.update s.inodes (s.inum dp) x) then
    .error (.panic .ballocOutOfBlocks)
  else
    .ok (s.iupdate dp x)

/-- `false` stands for the result -1. -/
def dirlink (s : State) (dp : Ip) (name : Name) (i : Inum) : Except Stop (State × Bool) := do
  let (s, found) ← dirlookup s dp name
  match found with
  | some (ip, _) =>
    let s ← iput s ip
    .ok (s, false)
  | none =>
    let s ← writeDir s dp ((s.inode dp).addEntry ⟨i, name⟩)
    .ok (s, true)

/-! ### Paths -/

/-- The loop of `namex` from the inode `ip`, over the elements that are left. The path after the
last element is empty, which is what `nameiparent` tests. -/
def namexLoop (parent : Bool) : State → Ip → List Name → Except Stop (State × Option (Ip × Name))
  | s, ip, [] =>
    if parent then do
      let s ← iput s ip
      .ok (s, none)
    else
      .ok (s, some (ip, []))
  | s, ip, name :: rest => do
    let s ← ilock s ip
    if (s.inode ip).type ≠ .dir then
      let s ← iunlockput s ip
      .ok (s, none)
    else if parent ∧ rest = [] then
      let s ← iunlock s ip
      .ok (s, some (ip, name))
    else
      let (s, next) ← dirlookup s ip name
      let s ← iunlockput s ip
      match next with
      | none => .ok (s, none)
      | some (next, _) => namexLoop parent s next rest

def namex (s : State) (cwd : Ip) (path : Path) (parent : Bool) :
    Except Stop (State × Option (Ip × Name)) :=
  if path.head? = some '/' then do
    let (s, ip) ← iget s ROOTINO
    namexLoop parent s ip (elements '/' path)
  else
    namexLoop parent (idup s cwd) cwd (elements '/' path)

def namei (s : State) (cwd : Ip) (path : Path) : Except Stop (State × Option Ip) := do
  let (s, found) ← namex s cwd path false
  .ok (s, found.map Prod.fst)

def nameiparent (s : State) (cwd : Ip) (path : Path) : Except Stop (State × Option (Ip × Name)) :=
  namex s cwd path true

end Xv6.Fs
