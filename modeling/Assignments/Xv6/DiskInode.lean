import Assignments.Framework.Outcome
import Assignments.Framework.Ownership
import Assignments.Xv6.DiskLayout

/-!
# Inodes and their blocks

The part of `fs.c` between the buffer cache and the inode cache: the allocator of blocks, `bmap`,
`itrunc`, `readi` and `writei`, on the disk as the buffer cache shows it. A routine gets the inode
that it works on as the copy in memory and returns it changed; the copy reaches the disk by
`iupdate` only.

Which blocks are whose is spread over the bitmap, the addresses in the inodes and those in the
indirect blocks. `Owned img tbl` says that it fits together, for the disk `img` and a table `tbl`
of the inodes as they are meant: those on the disk, but the one that is being worked on as it is in
memory.

`blockAt img x bn` is the address of block `bn` of the inode `x`, and `NoHole` says that there is
one for each block below the size. Without that a read would allocate blocks, which `iupdate` does
not write to the disk.
-/

namespace Xv6.OnDisk

open Framework Function

/-- Where a routine of the file system stops. -/
inductive Stop where
  | ballocOutOfBlocks
  | freeingFreeBlock
  | bmapOutOfRange
  | iallocNoInodes
  | igetNoInodes
  | ilock
  | ilockNoType
  | iunlock
  | dirlookupNotDir
  | dirlookupRead
  | dirlinkRead
  | dirlink
  | isdiremptyReadi
  | unlinkNlink
  | unlinkWritei
  | createDots
  | createDirlink
  /-- The process waits for a lock that is not given back, such as one that it has itself. -/
  | deadlock
  /-- The number is that of no inode on the disk. -/
  | noSuchInode
deriving DecidableEq, Repr

/-! ### Blocks -/

/-- `balloc`: the first block whose bit is clear is marked and zeroed. -/
@[irreducible] def balloc (img : Image) : Except Stop (Image × ℕ) :=
  match (List.range FSSIZE).find? fun b => img.bit b = false with
  | some b => .ok (update (img.setBit b true) b fun _ => 0, b)
  | none => .error .ballocOutOfBlocks

def bfree (img : Image) (b : ℕ) : Except Stop Image :=
  if img.bit b = false then .error .freeingFreeBlock else .ok (img.setBit b false)

/-! ### The blocks of an inode -/

/-- The inode with an indirect block. -/
def ensureIndirect (img : Image) (ip : Dinode) : Except Stop (Image × Dinode) :=
  if ip.indirect = 0 then do
    let (img, addr) ← balloc img
    .ok (img, { ip with indirect := addr })
  else .ok (img, ip)

/-- The address of block `bn` of the inode; a block that is missing is allocated. -/
def bmap (img : Image) (ip : Dinode) (bn : ℕ) : Except Stop (Image × Dinode × ℕ) :=
  if h : bn < NDIRECT then
    if ip.addrs ⟨bn, h⟩ = 0 then do
      let (img, addr) ← balloc img
      .ok (img, { ip with addrs := update ip.addrs ⟨bn, h⟩ addr }, addr)
    else .ok (img, ip, ip.addrs ⟨bn, h⟩)
  else if bn - NDIRECT < NINDIRECT then do
    let (img, ip) ← ensureIndirect img ip
    if img.word ip.indirect (bn - NDIRECT) = 0 then do
      let (img, addr) ← balloc img
      .ok (img.setWord ip.indirect (bn - NDIRECT) addr, ip, addr)
    else .ok (img, ip, img.word ip.indirect (bn - NDIRECT))
  else .error .bmapOutOfRange

/-- `iupdate` of inode number `i`. -/
def iupdate (img : Image) (i : Inum) (ip : Dinode) : Image := img.setDinode i ip

/-- One iteration of the first loop of `itrunc`. -/
def freeDirect (r : Image × Dinode) (k : Fin NDIRECT) : Except Stop (Image × Dinode) :=
  if r.2.addrs k ≠ 0 then do
    let img ← bfree r.1 (r.2.addrs k)
    .ok (img, { r.2 with addrs := update r.2.addrs k 0 })
  else .ok r

/-- One iteration of the second loop of `itrunc`, over the indirect block `a`. -/
def freeEntry (a : ℕ) (img : Image) (j : Fin NINDIRECT) : Except Stop Image :=
  if img.word a j ≠ 0 then bfree img (img.word a j) else .ok img

/-- The indirect block with all that it lists is given back. -/
def freeIndirect (img : Image) (ip : Dinode) : Except Stop (Image × Dinode) :=
  if ip.indirect ≠ 0 then do
    let img ← (List.finRange NINDIRECT).foldlM (freeEntry ip.indirect) img
    let img ← bfree img ip.indirect
    .ok (img, { ip with indirect := 0 })
  else .ok (img, ip)

def itrunc (img : Image) (i : Inum) (ip : Dinode) : Except Stop (Image × Dinode) := do
  let (img, ip) ← (List.finRange NDIRECT).foldlM freeDirect (img, ip)
  let (img, ip) ← freeIndirect img ip
  let ip := { ip with size := 0 }
  .ok (iupdate img i ip, ip)

/-! ### Reading and writing -/

def T_DIR : BitVec 16 := 1

def T_FILE : BitVec 16 := 2

def T_DEV : BitVec 16 := 3

/-- What `readi` and `writei` return. -/
inductive Count where
  /-- -1 -/
  | failed
  /-- What the device driver returns, which the file system has no part in. -/
  | device
  | bytes (n : ℕ)
deriving DecidableEq, Repr

/-- The loop of `readi`. Every iteration takes at least one byte, so that `n` of them are enough. -/
def readLoop : ℕ → Image → Dinode → ℕ → ℕ → Except Stop (Image × Dinode × List Byte)
  | 0, img, ip, _, _ => .ok (img, ip, [])
  | fuel + 1, img, ip, off, n =>
    if n = 0 then .ok (img, ip, [])
    else do
      let (img, ip, addr) ← bmap img ip (off / BSIZE)
      let m := min n (BSIZE - off % BSIZE)
      let bytes := slice (img addr) (off % BSIZE) m
      let (img, ip, rest) ← readLoop fuel img ip (off + m) (n - m)
      .ok (img, ip, bytes ++ rest)

/-- `readi(ip, dst, off, n)`, with what it copies to `dst`. The sum `off + n` is that of two
`uint`s. -/
def readi (img : Image) (ip : Dinode) (off n : ℕ) :
    Except Stop (Image × Dinode × Count × List Byte) :=
  if ip.type = T_DEV then .ok (img, ip, .device, [])
  else if ip.size < off ∨ 2 ^ 32 ≤ off + n then .ok (img, ip, .failed, [])
  else do
    let n := if ip.size < off + n then ip.size - off else n
    let (img, ip, bytes) ← readLoop n img ip off n
    .ok (img, ip, .bytes n, bytes)

/-- The loop of `writei`, over the bytes of `src` that are left. -/
def writeLoop : ℕ → Image → Dinode → ℕ → List Byte → Except Stop (Image × Dinode)
  | 0, img, ip, _, _ => .ok (img, ip)
  | fuel + 1, img, ip, off, src =>
    if src = [] then .ok (img, ip)
    else do
      let (img, ip, addr) ← bmap img ip (off / BSIZE)
      let m := min src.length (BSIZE - off % BSIZE)
      let img := update img addr (splice (img addr) (off % BSIZE) (src.take m))
      writeLoop fuel img ip (off + m) (src.drop m)

/-- `writei(ip, src, off, n)` for inode number `i`, where `n` is the length of `src`. -/
def writei (img : Image) (i : Inum) (ip : Dinode) (off : ℕ) (src : List Byte) :
    Except Stop (Image × Dinode × Count) :=
  if ip.type = T_DEV then .ok (img, ip, .device)
  else if ip.size < off ∨ 2 ^ 32 ≤ off + src.length then .ok (img, ip, .failed)
  else if MAXFILE * BSIZE < off + src.length then .ok (img, ip, .failed)
  else do
    let (img, ip) ← writeLoop src.length img ip off src
    if 0 < src.length ∧ ip.size < off + src.length then
      let ip := { ip with size := off + src.length }
      .ok (iupdate img i ip, ip, .bytes src.length)
    else .ok (img, ip, .bytes src.length)

/-! ### Who has which block -/

/-- Where an inode keeps a block address: `addrs[k]`, `addrs[NDIRECT]`, or an entry of its indirect
block. -/
inductive Slot where
  | direct (k : Fin NDIRECT)
  | indirect
  | entry (j : Fin NINDIRECT)
deriving DecidableEq

/-- The address in a slot, 0 for none. -/
def addrAt (img : Image) (x : Dinode) : Slot → ℕ
  | .direct k => x.addrs k
  | .indirect => x.indirect
  | .entry j => if x.indirect = 0 then 0 else img.word x.indirect j

/-- The address in a slot of an allocated inode. -/
def refs (img : Image) (tbl : Inum → Dinode) (p : Inum × Slot) : ℕ :=
  if (tbl p.1).type = 0 then 0 else addrAt img (tbl p.1) p.2

/-- **Disk block ownership**: a data block is in at most one slot of the allocated inodes, its bit
is set iff it is in one, and the bits of all other blocks are set. -/
structure Owned (img : Image) (tbl : Inum → Dinode) : Prop where
  owns : Owns (refs img tbl) img.bit IsData
  metadata : ∀ b < nmeta, img.bit b = true

/-- The slot of block `bn` of an inode. -/
def slotOf (bn : ℕ) : Option Slot :=
  if h : bn < NDIRECT then some (.direct ⟨bn, h⟩)
  else if h : bn - NDIRECT < NINDIRECT then some (.entry ⟨bn - NDIRECT, h⟩)
  else none

/-- The address of block `bn` of an inode, 0 if there is none. -/
def blockAt (img : Image) (x : Dinode) (bn : ℕ) : ℕ :=
  match slotOf bn with
  | some s => addrAt img x s
  | none => 0

/-- Every block below the size is there. -/
def NoHole (img : Image) (x : Dinode) : Prop := ∀ bn, bn * BSIZE < x.size → blockAt img x bn ≠ 0

end Xv6.OnDisk
