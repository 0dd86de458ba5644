import Assignments.Framework.Memory
import Assignments.Xv6.Log

/-!
# The layout of the disk

`fs.h` lays a disk out in blocks: the boot block, the superblock, the log, the blocks with the
inodes, the bitmap of free blocks, and the data blocks. Here the disk is its bytes, as the buffer
cache hands them out, and the structures in it are read from and written to these bytes:

* `Dinode`, `dinode`, `setDinode` — inode number `i`, of 64 bytes;
* `bit`, `setBit` — the bit of the bitmap for a block;
* `word`, `setWord` — a block address in an indirect block.

For each of them a write changes what is read back, and nothing else: the other inodes, bits and
addresses, and every other block. Only the lemmas here look at bytes of metadata.
-/

namespace Xv6.OnDisk

open Framework Function

/-- The bytes of a block, of which the first `BSIZE` count. -/
abbrev Sector : Type := Memory

/-- The blocks of the disk. -/
abbrev Image : Type := ℕ → Sector

def BSIZE : ℕ := 512

def NDIRECT : ℕ := 12

/-- `BSIZE / sizeof(uint)` -/
def NINDIRECT : ℕ := 128

def MAXFILE : ℕ := NDIRECT + NINDIRECT

/-- Inodes on the disk. -/
abbrev NINODES : ℕ := 200

/-- Inodes per block. -/
def IPB : ℕ := 8

/-- Bits of the bitmap per block. -/
def BPB : ℕ := BSIZE * 8

/-- `sb.inodestart` -/
def inodestart : ℕ := logstart + nlog

/-- `sb.bmapstart` -/
def bmapstart : ℕ := inodestart + (NINODES / IPB + 1)

/-- The number of blocks before the first data block. -/
def nmeta : ℕ := bmapstart + (FSSIZE / BPB + 1)

abbrev Inum : Type := Fin NINODES

/-- A data block. -/
def IsData (b : ℕ) : Prop := nmeta ≤ b ∧ b < FSSIZE

instance (b : ℕ) : Decidable (IsData b) := inferInstanceAs (Decidable (_ ∧ _))

/-! ### Inodes -/

/-- `struct dinode`; `indirect` is `addrs[NDIRECT]`. -/
structure Dinode where
  type : BitVec 16
  major : BitVec 16
  minor : BitVec 16
  nlink : BitVec 16
  size : ℕ
  addrs : Fin NDIRECT → ℕ
  indirect : ℕ

/-- The fields that are `uint`s fit into one. -/
structure Dinode.Fits (x : Dinode) : Prop where
  size : x.size < 2 ^ 32
  addrs : ∀ i, x.addrs i < 2 ^ 32
  indirect : x.indirect < 2 ^ 32

/-- The inode in the 64 bytes from `off` on. -/
def Dinode.read (s : Sector) (off : ℕ) : Dinode where
  type := BitVec.ofNat 16 (getLE s off 2)
  major := BitVec.ofNat 16 (getLE s (off + 2) 2)
  minor := BitVec.ofNat 16 (getLE s (off + 4) 2)
  nlink := BitVec.ofNat 16 (getLE s (off + 6) 2)
  size := getLE s (off + 8) 4
  addrs i := getLE s (off + 12 + 4 * i) 4
  indirect := getLE s (off + 60) 4

/-- An inode is written to the 64 bytes from `off` on. -/
def Dinode.write (x : Dinode) (s : Sector) (off : ℕ) : Sector :=
  let s := putLE s off 2 x.type.toNat
  let s := putLE s (off + 2) 2 x.major.toNat
  let s := putLE s (off + 4) 2 x.minor.toNat
  let s := putLE s (off + 6) 2 x.nlink.toNat
  let s := putLE s (off + 8) 4 x.size
  let s := putWords s (off + 12) NDIRECT fun i => if h : i < NDIRECT then x.addrs ⟨i, h⟩ else 0
  putLE s (off + 60) 4 x.indirect

theorem Dinode.read_congr {s t : Sector} {off : ℕ}
    (h : ∀ k, off ≤ k → k < off + 64 → s k = t k) : Dinode.read s off = Dinode.read t off := by
  have hsame : ∀ o n, off ≤ o → o + n ≤ off + 64 → getLE s o n = getLE t o n :=
    fun o n ho hn => getLE_congr fun k hk hk' => h k (by omega) (by omega)
  have haddr : ∀ i : Fin NDIRECT, off + 12 + 4 * (i : ℕ) + 4 ≤ off + 64 := by
    intro i
    have hi : (i : ℕ) < 12 := i.isLt
    omega
  simp only [Dinode.read, Dinode.mk.injEq]
  refine ⟨?_, ?_, ?_, ?_, hsame _ _ (by omega) (by omega), ?_, hsame _ _ (by omega) (by omega)⟩
  · rw [hsame _ _ (by omega) (by omega)]
  · rw [hsame _ _ (by omega) (by omega)]
  · rw [hsame _ _ (by omega) (by omega)]
  · rw [hsame _ _ (by omega) (by omega)]
  · funext i
    exact hsame _ _ (by omega) (haddr i)

theorem Dinode.write_of_disjoint {x : Dinode} {s : Sector} {off k : ℕ}
    (h : k < off ∨ off + 64 ≤ k) : x.write s off k = s k := by
  have hwords : k < off + 12 ∨ off + 12 + 4 * NDIRECT ≤ k := by
    have hdirect : NDIRECT = 12 := rfl
    omega
  simp only [Dinode.write]
  rw [putLE_of_disjoint (by omega), putWords_of_disjoint hwords, putLE_of_disjoint (by omega),
    putLE_of_disjoint (by omega), putLE_of_disjoint (by omega), putLE_of_disjoint (by omega),
    putLE_of_disjoint (by omega)]

theorem ofNat_toNat_mod (v : BitVec 16) : BitVec.ofNat 16 (v.toNat % 256 ^ 2) = v := by
  apply BitVec.eq_of_toNat_eq
  have hv : v.toNat < 65536 := v.isLt
  simp only [BitVec.toNat_ofNat]
  omega

/-- What was written is read. -/
theorem Dinode.read_write {x : Dinode} {s : Sector} {off : ℕ} (hx : x.Fits) :
    Dinode.read (x.write s off) off = x := by
  have hsize : x.size % 256 ^ 4 = x.size := Nat.mod_eq_of_lt hx.size
  have hindirect : x.indirect % 256 ^ 4 = x.indirect := Nat.mod_eq_of_lt hx.indirect
  have haddrs : ∀ i : Fin NDIRECT, getLE (x.write s off) (off + 12 + 4 * i) 4 = x.addrs i := by
    intro i
    have hi : (i : ℕ) < 12 := i.isLt
    simp only [Dinode.write]
    rw [getLE_putLE_of_disjoint (by omega), getLE_putWords i.isLt, dif_pos i.isLt]
    exact Nat.mod_eq_of_lt (hx.addrs i)
  cases x with
  | mk type major minor nlink size addrs indirect =>
    simp only [Dinode.read, Dinode.mk.injEq]
    refine ⟨?_, ?_, ?_, ?_, ?_, funext haddrs, ?_⟩
    all_goals
      simp only [Dinode.write]
      simp (disch := omega) only [getLE_putLE_of_disjoint, getLE_putWords_of_disjoint, getLE_putLE]
    · exact ofNat_toNat_mod type
    · exact ofNat_toNat_mod major
    · exact ofNat_toNat_mod minor
    · exact ofNat_toNat_mod nlink
    · exact hsize
    · exact hindirect

/-- `IBLOCK(i, sb)` -/
def IBLOCK (i : ℕ) : ℕ := i / IPB + inodestart

namespace Image

/-- Inode number `i`. -/
def dinode (img : Image) (i : Inum) : Dinode := .read (img (IBLOCK i)) (64 * (i % IPB))

/-- Inode number `i` is written. -/
def setDinode (img : Image) (i : Inum) (x : Dinode) : Image :=
  update img (IBLOCK i) (x.write (img (IBLOCK i)) (64 * (i % IPB)))

variable {img : Image} {i j : Inum} {x : Dinode} {b : ℕ} {s : Sector}

end Image

theorem IBLOCK_lt (i : Inum) : inodestart ≤ IBLOCK i ∧ IBLOCK i < bmapstart := by
  have hi : (i : ℕ) < 200 := i.isLt
  have hblock : IBLOCK i = (i : ℕ) / 8 + 32 := rfl
  have hstart : inodestart = 32 := rfl
  have hbmap : bmapstart = 58 := rfl
  omega

namespace Image

variable {img : Image} {i j : Inum} {x : Dinode} {b : ℕ} {s : Sector}

theorem dinode_setDinode (hx : x.Fits) : dinode (setDinode img i x) i = x := by
  simp only [dinode, setDinode, update_self]
  exact Dinode.read_write hx

theorem dinode_setDinode_of_ne (h : j ≠ i) : dinode (setDinode img i x) j = dinode img j := by
  have hne : (j : ℕ) ≠ i := fun heq => h (Fin.ext heq)
  simp only [dinode, setDinode, update_apply]
  split
  next hblock =>
    -- in one block, at another place
    have hdiv : (j : ℕ) / 8 + 32 = (i : ℕ) / 8 + 32 := hblock
    rw [← hblock]
    apply Dinode.read_congr
    intro k hk hk'
    simp only [IPB] at hk hk' ⊢
    exact Dinode.write_of_disjoint (by omega)
  next => rfl

theorem setDinode_of_ne (h : b ≠ IBLOCK i) : setDinode img i x b = img b :=
  update_of_ne h ..

theorem dinode_congr {img' : Image} (h : img' (IBLOCK i) = img (IBLOCK i)) :
    dinode img' i = dinode img i := by
  rw [dinode, dinode, h]

theorem dinode_update (h : bmapstart ≤ b) : dinode (update img b s) i = dinode img i := by
  have hne : IBLOCK i ≠ b := Nat.ne_of_lt (Nat.lt_of_lt_of_le (IBLOCK_lt i).2 h)
  exact dinode_congr (update_of_ne hne ..)

end Image

/-! ### The bitmap -/

/-- `BBLOCK(b, sb)` -/
def BBLOCK (b : ℕ) : ℕ := b / BPB + bmapstart

namespace Image

/-- The bit of block `b`. -/
def bit (img : Image) (b : ℕ) : Bool :=
  (img (BBLOCK b) (b % BPB / 8)).getLsbD (b % BPB % 8)

/-- The bit of block `b` is set or cleared. -/
def setBit (img : Image) (b : ℕ) (used : Bool) : Image :=
  let old := img (BBLOCK b) (b % BPB / 8)
  let m := (1 : Byte) <<< (b % BPB % 8)
  update img (BBLOCK b) (update (img (BBLOCK b)) (b % BPB / 8)
    (if used then old ||| m else old &&& ~~~m))

variable {img : Image} {i : Inum} {b c : ℕ} {s : Sector} {used : Bool}

theorem getLsbD_mask {j k : ℕ} (hj : j < 8) : ((1 : Byte) <<< k).getLsbD j = decide (j = k) := by
  rw [BitVec.getLsbD_shiftLeft, BitVec.ofNat_eq_ofNat, BitVec.getLsbD_one]
  by_cases hk : j < k
  · simp [hk, Nat.ne_of_lt hk]
  · have hiff : j - k = 0 ↔ j = k := by omega
    simp [hj, hk, hiff]

theorem bit_setBit : bit (setBit img b used) b = used := by
  have hlt : b % BPB % 8 < 8 := Nat.mod_lt _ (by decide)
  simp only [bit, setBit, update_self]
  cases used <;>
    simp only [if_true, if_false, Bool.false_eq_true, BitVec.getLsbD_or, BitVec.getLsbD_and,
      BitVec.getLsbD_not, getLsbD_mask hlt, hlt, decide_true, Bool.not_true, Bool.and_false,
      Bool.or_true]

theorem bit_setBit_of_ne (h : c ≠ b) : bit (setBit img b used) c = bit img c := by
  have hlt : c % BPB % 8 < 8 := Nat.mod_lt _ (by decide)
  simp only [bit, setBit]
  by_cases hblock : BBLOCK c = BBLOCK b
  · rw [hblock, update_self]
    by_cases hbyte : c % BPB / 8 = b % BPB / 8
    · -- in one byte, another bit
      have hbit : c % BPB % 8 ≠ b % BPB % 8 := by
        have hdiv : c / 4096 + 58 = b / 4096 + 58 := hblock
        simp only [BPB, BSIZE] at hbyte ⊢
        omega
      rw [hbyte, update_self]
      cases used <;>
        simp only [if_true, if_false, Bool.false_eq_true, BitVec.getLsbD_or, BitVec.getLsbD_and,
          BitVec.getLsbD_not, getLsbD_mask hlt, hlt, hbit, decide_true, decide_false,
          Bool.not_false, Bool.and_true, Bool.or_false]
    · rw [update_of_ne hbyte]
  · rw [update_of_ne hblock]

theorem BBLOCK_eq (h : b < FSSIZE) : BBLOCK b = bmapstart := by
  have hlt : b < 1000 := h
  have hblock : BBLOCK b = b / 4096 + 58 := rfl
  have hstart : bmapstart = 58 := rfl
  omega

theorem setBit_of_ne (hb : b < FSSIZE) (h : c ≠ bmapstart) : setBit img b used c = img c := by
  have hne : c ≠ BBLOCK b := by rwa [BBLOCK_eq hb]
  exact update_of_ne hne ..

theorem dinode_setBit (hb : b < FSSIZE) : dinode (setBit img b used) i = dinode img i := by
  have hne : IBLOCK i ≠ bmapstart := Nat.ne_of_lt (IBLOCK_lt i).2
  exact dinode_congr (setBit_of_ne hb hne)

theorem bit_congr {img' : Image} (hc : c < FSSIZE) (h : img' bmapstart = img bmapstart) :
    bit img' c = bit img c := by
  simp only [bit, BBLOCK_eq hc, h]

theorem bit_update (hc : c < FSSIZE) (h : b ≠ bmapstart) : bit (update img b s) c = bit img c :=
  bit_congr hc (update_of_ne h.symm ..)

theorem bit_setDinode {x : Dinode} (hc : c < FSSIZE) : bit (setDinode img i x) c = bit img c :=
  bit_update hc (Nat.ne_of_lt (IBLOCK_lt i).2)

end Image

/-! ### Indirect blocks -/

namespace Image

/-- Address number `j` in the indirect block `a`. -/
def word (img : Image) (a j : ℕ) : ℕ := getLE (img a) (4 * j) 4

/-- Address number `j` in the indirect block `a` is written. -/
def setWord (img : Image) (a j v : ℕ) : Image :=
  update img a (putLE (img a) (4 * j) 4 v)

variable {img : Image} {i : Inum} {a b c j k v : ℕ} {s : Sector}

theorem word_setWord (hv : v < 2 ^ 32) : word (setWord img a j v) a j = v := by
  rw [word, setWord, update_self, getLE_putLE]
  exact Nat.mod_eq_of_lt hv

theorem word_setWord_of_ne (h : k ≠ j) : word (setWord img a j v) c k = word img c k := by
  rw [word, setWord, update_apply]
  split
  next hca =>
    rw [hca, word]
    exact getLE_putLE_of_disjoint (by omega)
  next => rfl

theorem setWord_of_ne (h : c ≠ a) : setWord img a j v c = img c :=
  update_of_ne h ..

theorem word_congr {img' : Image} (h : img' a = img a) : word img' a j = word img a j := by
  rw [word, word, h]

theorem word_update_zero : word (update img a fun _ => 0) a j = 0 := by
  rw [word, update_self]
  rfl

end Image

end Xv6.OnDisk
