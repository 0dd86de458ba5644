import Assignments.Xv6.Directories

/-!
# The image that `mkfs` writes

`mkfs.c` has an allocation of blocks, a map of blocks and a write of its own, and it writes the
bitmap only at the end. Here it is modelled on the bytes of the image. It stops (`none`) where an
assertion fails, where it would read or write behind the end of the image, and where it would need
an inode that the image does not have.

`Mkfs.view` is the image with the bitmap that `mkfs` would write if it ended now. On it `mkfs` does
what the kernel would do: an allocation is a `balloc` of the kernel (`balloc_view`), a block is
mapped like by `bmap` (`Mkfs.bmap_sim`), and `iappend` is a `writei` at the end of the file
(`Mkfs.iappend_sim`). What was proved of the kernel's routines carries over to `mkfs` in this way.
-/

namespace Xv6.OnDisk

open Framework Function

/-! ### The model -/

structure Mkfs where
  img : Image
  freeinode : ℕ
  freeblock : ℕ

/-- A file to be put on the image. The name is that of the argument, a string of C. -/
structure HostFile where
  name : List Byte
  data : List Byte
  nul_notMem : 0 ∉ name

/-- The superblock: `size`, `nblocks`, `ninodes`, `nlog`, `logstart`, `inodestart`, `bmapstart`. -/
def superblock : List ℕ :=
  [FSSIZE, FSSIZE - nmeta, NINODES, nlog, 2, 2 + nlog, 2 + nlog + (NINODES / IPB + 1)]

namespace Mkfs

/-- All blocks are zeroed, and the superblock is written. -/
def start : Mkfs where
  img := update (fun _ _ => 0) 1
    (putWords (fun _ => 0) 0 superblock.length fun k => superblock.getD k 0)
  freeinode := 1
  freeblock := nmeta

def winode (m : Mkfs) (i : Inum) (din : Dinode) : Mkfs := { m with img := m.img.setDinode i din }

def rinode (m : Mkfs) (i : Inum) : Dinode := m.img.dinode i

def ialloc (m : Mkfs) (type : BitVec 16) : Option (Mkfs × Inum) :=
  if h : m.freeinode < NINODES then
    let i : Inum := ⟨m.freeinode, h⟩
    let m := { m with freeinode := m.freeinode + 1 }
    some (m.winode i { emptyDinode type with nlink := 1 }, i)
  else none

/-- The indirect block of the inode, allocated if there is none. -/
def ensureIndirect (m : Mkfs) (din : Dinode) : Mkfs × Dinode :=
  if din.indirect = 0 then
    ({ m with freeblock := m.freeblock + 1 }, { din with indirect := m.freeblock })
  else (m, din)

/-- The part of `iappend` that finds the block number `fbn` of the inode. A block behind the end of
the image cannot be read. -/
def bmap (m : Mkfs) (din : Dinode) (fbn : ℕ) : Option (Mkfs × Dinode × ℕ) :=
  if h : fbn < NDIRECT then
    if din.addrs ⟨fbn, h⟩ = 0 then
      some ({ m with freeblock := m.freeblock + 1 },
        { din with addrs := update din.addrs ⟨fbn, h⟩ m.freeblock }, m.freeblock)
    else some (m, din, din.addrs ⟨fbn, h⟩)
  else
    let r := m.ensureIndirect din
    if r.2.indirect < FSSIZE then
      if r.1.img.word r.2.indirect (fbn - NDIRECT) = 0 then
        some ({ r.1 with
          img := r.1.img.setWord r.2.indirect (fbn - NDIRECT) r.1.freeblock
          freeblock := r.1.freeblock + 1 }, r.2, r.1.freeblock)
      else some (r.1, r.2, r.1.img.word r.2.indirect (fbn - NDIRECT))
    else none

/-- The loop of `iappend`; it returns the inode and the offset as well. -/
def appendLoop : ℕ → Mkfs → Dinode → ℕ → List Byte → Option (Mkfs × Dinode × ℕ)
  | 0, m, din, off, _ => some (m, din, off)
  | fuel + 1, m, din, off, p =>
    if p = [] then some (m, din, off)
    else
      let fbn := off / BSIZE
      -- `assert(fbn < MAXFILE)`
      if fbn < MAXFILE then do
        let (m, din, x) ← m.bmap din fbn
        let n1 := min p.length ((fbn + 1) * BSIZE - off)
        if x < FSSIZE then
          let img := update m.img x (splice (m.img x) (off - fbn * BSIZE) (p.take n1))
          appendLoop fuel { m with img := img } din (off + n1) (p.drop n1)
        else none
      else none

def iappend (m : Mkfs) (i : Inum) (p : List Byte) : Option Mkfs := do
  let din := m.rinode i
  let (m, din, off) ← m.appendLoop p.length din din.size p
  some (m.winode i { din with size := off })

/-- The loop that reads a file and appends what it reads, a block at a time. -/
def appendFile : ℕ → Mkfs → Inum → List Byte → Option Mkfs
  | 0, m, _, _ => some m
  | fuel + 1, m, i, data =>
    if data = [] then some m
    else do
      let m ← m.iappend i (data.take BSIZE)
      appendFile fuel m i (data.drop BSIZE)

end Mkfs

/-- `'_'` -/
def underscore : Byte := 95

/-- The name that a file gets: a leading underscore is skipped. -/
def HostFile.entryName (f : HostFile) : List Byte :=
  if f.name.head? = some underscore then f.name.tail else f.name

namespace Mkfs

/-- One iteration of the loop of `main`. -/
def addFile (root : Inum) (m : Mkfs) (f : HostFile) : Option Mkfs :=
  -- `assert(index(argv[i], '/') == 0)`
  if slash ∈ f.name then none
  else do
    let (m, i) ← m.ialloc T_FILE
    let m ← m.iappend root (dirent i f.entryName)
    m.appendFile f.data.length i f.data

/-- The size of the root directory is rounded up. -/
def fixRoot (m : Mkfs) (root : Inum) : Mkfs :=
  let din := m.rinode root
  m.winode root { din with size := (din.size / BSIZE + 1) * BSIZE }

end Mkfs

/-- The bitmap block with the first `used` bits set, as the loop of `balloc` makes it. -/
def bitmapBlock : ℕ → Sector
  | 0 => fun _ => 0
  | i + 1 => update (bitmapBlock i) (i / 8)
      (bitmapBlock i (i / 8) ||| (1 : Byte) <<< (i % 8))

/-- The image with this bitmap. -/
def withBitmap (img : Image) (used : ℕ) : Image :=
  update img bmapstart (bitmapBlock used)

namespace Mkfs

/-- The image with the bitmap of the blocks that are allocated so far. -/
def view (m : Mkfs) : Image := withBitmap m.img m.freeblock

/-- `balloc(freeblock)` -/
def balloc (m : Mkfs) : Option Image :=
  if m.freeblock < BSIZE * 8 then some m.view else none

/-- The root directory with its first two entries. -/
def makeRoot : Option (Mkfs × Inum) := do
  let (m, root) ← start.ialloc T_DIR
  -- `assert(rootino == ROOTINO)`
  if (root : ℕ) = ROOTINO then
    let m ← m.iappend root (dirent root dot)
    let m ← m.iappend root (dirent root dotdot)
    some (m, root)
  else none

end Mkfs

/-- `main` -/
def mkfs (files : List HostFile) : Option Image := do
  let (m, root) ← Mkfs.makeRoot
  let m ← run (Mkfs.addFile root) m files
  (m.fixRoot root).balloc

/-! ### The bitmap -/

variable {img : Image} {m m' : Mkfs} {i : Inum} {n c : ℕ}

/-- One more bit is set as the kernel sets it. -/
theorem setBit_withBitmap (hn : n < FSSIZE) :
    (withBitmap img n).setBit n true = withBitmap img (n + 1) := by
  have hmod : n % BPB = n := Nat.mod_eq_of_lt (Nat.lt_trans hn (by decide))
  simp only [withBitmap, Image.setBit, Image.BBLOCK_eq hn, hmod, update_self,
    update_idem, if_true, bitmapBlock]

theorem bit_withBitmap (hc : c < BPB) : ∀ {n : ℕ}, n ≤ FSSIZE →
    (withBitmap img n).bit c = decide (c < n)
  | 0, _ => by
    have hblock : BBLOCK c = bmapstart := by
      rw [BBLOCK, Nat.div_eq_of_lt hc, Nat.zero_add]
    simp [withBitmap, Image.bit, hblock, bitmapBlock]
  | n + 1, hn => by
    have ih : (withBitmap img n).bit c = decide (c < n) := bit_withBitmap hc (Nat.le_of_succ_le hn)
    rw [← setBit_withBitmap hn]
    by_cases hcn : c = n
    · rw [hcn, Image.bit_setBit]
      simp
    · rw [Image.bit_setBit_of_ne hcn, ih, decide_eq_decide]
      omega

/-! ### The view -/

namespace Mkfs

/-- What `mkfs` has not used is as it was: the blocks from `freeblock` on are zero, and the inodes
from `freeinode` on are free. -/
structure Fresh (m : Mkfs) : Prop where
  le : nmeta ≤ m.freeblock
  ge : m.freeblock ≤ FSSIZE
  zero : ∀ b, m.freeblock ≤ b → b < FSSIZE → m.img b = fun _ => 0
  inode : ∀ i : Inum, m.freeinode ≤ i → m.img.dinode i = emptyDinode 0

theorem view_of_ne {b : ℕ} (h : b ≠ bmapstart) : m.view b = m.img b := update_of_ne h ..

theorem view_dinode : m.view.dinode i = m.img.dinode i :=
  Image.dinode_congr (view_of_ne (Nat.ne_of_lt (IBLOCK_lt i).2))

theorem view_bit (h : m.Fresh) (hc : c < FSSIZE) : m.view.bit c = decide (c < m.freeblock) :=
  bit_withBitmap (Nat.lt_trans hc (by decide)) h.ge

/-- A block that is not the bitmap is written. -/
theorem update_view {b : ℕ} (hb : b ≠ bmapstart) (s : Sector) :
    update m.view b s = view { m with img := update m.img b s } :=
  update_comm hb.symm ..

/-- **An allocation** is one that the kernel would make. -/
theorem balloc_view (h : m.Fresh) (hlt : m.freeblock < FSSIZE) :
    OnDisk.balloc m.view = .ok (view { m with freeblock := m.freeblock + 1 }, m.freeblock) := by
  have hfind : ((List.range FSSIZE).find? fun b => m.view.bit b = false) = some m.freeblock := by
    rw [List.find?_range_eq_some]
    refine ⟨by simp [view_bit h hlt], List.mem_range.mpr hlt, fun b hb => ?_⟩
    simp [view_bit h (Nat.lt_trans hb hlt), hb]
  have hne : m.freeblock ≠ bmapstart := Nat.ne_of_gt (Nat.lt_of_lt_of_le (by decide) h.le)
  have hbits : m.view.setBit m.freeblock true = view { m with freeblock := m.freeblock + 1 } :=
    setBit_withBitmap hlt
  unfold OnDisk.balloc
  rw [hfind]
  simp only [hbits]
  -- the block is zero already
  rw [update_eq_self_iff.mpr]
  rw [view_of_ne hne]
  exact (h.zero _ (Nat.le_refl _) hlt).symm

theorem Fresh.alloc (h : m.Fresh) (hlt : m.freeblock < FSSIZE) :
    Fresh { m with freeblock := m.freeblock + 1 } where
  le := Nat.le_succ_of_le h.le
  ge := hlt
  zero b hb := h.zero b (Nat.le_of_succ_le hb)
  inode := h.inode

/-- A block in use may be written. -/
theorem Fresh.write (h : m.Fresh) {b : ℕ} (hb : IsData b) (hlt : b < m.freeblock) (s : Sector) :
    Fresh { m with img := update m.img b s } where
  le := h.le
  ge := h.ge
  zero c hc hc' := by
    have hne : c ≠ b := Nat.ne_of_gt (Nat.lt_of_lt_of_le hlt hc)
    exact (update_of_ne hne ..).trans (h.zero c hc hc')
  inode i hi := (Image.dinode_update hb.bmapstart_le).trans (h.inode i hi)

/-! ### Blocks and bytes as the kernel has them -/

variable {tbl : Inum → Dinode} {din' : Dinode} {x fbn off off' : ℕ} {p : List Byte}

/-- The blocks of inodes have been allocated. -/
theorem Fresh.addr_lt (hf : m.Fresh) (h : Owned m.view tbl) (htype : (tbl i).type ≠ 0) {s : Slot}
    (hs : addrAt m.view (tbl i) s ≠ 0) : addrAt m.view (tbl i) s < m.freeblock := by
  have hmarked := h.owns.marked (p := (i, s)) (by rwa [refs_of_type htype])
  rw [refs_of_type htype, view_bit hf (h.isData htype hs).2] at hmarked
  exact of_decide_eq_true hmarked

theorem ensureIndirect_sim {din : Dinode} (hf : m.Fresh)
    (hlt : (m.ensureIndirect din).2.indirect < FSSIZE) :
    OnDisk.ensureIndirect m.view din
        = .ok ((m.ensureIndirect din).1.view, (m.ensureIndirect din).2) ∧
      (m.ensureIndirect din).1.Fresh ∧ (m.ensureIndirect din).1.img = m.img := by
  by_cases hnone : din.indirect = 0
  · rw [ensureIndirect, if_pos hnone] at hlt ⊢
    rw [OnDisk.ensureIndirect, if_pos hnone, balloc_view hf hlt]
    exact ⟨rfl, hf.alloc hlt, rfl⟩
  · rw [ensureIndirect, if_neg hnone]
    rw [OnDisk.ensureIndirect, if_neg hnone]
    exact ⟨rfl, hf, rfl⟩

/-- **A block is mapped** as the kernel maps it. -/
theorem bmap_sim (hf : m.Fresh) (h : Owned m.view tbl) (htype : (tbl i).type ≠ 0)
    (hmax : fbn < MAXFILE) (hbmap : m.bmap (tbl i) fbn = some (m', din', x)) (hx : x < FSSIZE) :
    OnDisk.bmap m.view (tbl i) fbn = .ok (m'.view, din', x) ∧ m'.Fresh ∧
      ∀ b < nmeta, m'.img b = m.img b := by
  unfold bmap at hbmap
  split at hbmap
  next hdirect =>
    rw [OnDisk.bmap, dif_pos hdirect]
    split at hbmap
    next hnone =>
      cases hbmap
      rw [if_pos hnone, balloc_view hf hx]
      exact ⟨rfl, hf.alloc hx, fun _ _ => rfl⟩
    next hsome =>
      cases hbmap
      rw [if_neg hsome]
      exact ⟨rfl, hf, fun _ _ => rfl⟩
  next hdirect =>
    have hentry : fbn - NDIRECT < NINDIRECT := by
      have hsum : MAXFILE = NDIRECT + NINDIRECT := rfl
      omega
    rw [OnDisk.bmap, dif_neg hdirect, if_pos hentry]
    simp only at hbmap
    split at hbmap
    next hlt =>
      obtain ⟨hensure, hf₁, himg⟩ := ensureIndirect_sim hf hlt
      obtain ⟨he, howned⟩ := (ensureIndirect_spec h htype).of_eq_ok hensure
      generalize m.ensureIndirect (tbl i) = r at hbmap hlt hensure hf₁ himg he howned
      obtain ⟨m₁, din₁⟩ := r
      dsimp only at hbmap hlt hensure hf₁ himg he howned
      have hself : update tbl i din₁ i = din₁ := update_self ..
      have htype₁ : (update tbl i din₁ i).type ≠ 0 := by
        rw [hself, he.header]
        exact htype
      have hplace : addrAt m₁.view (update tbl i din₁ i) .indirect = din₁.indirect := by
        rw [hself]
        rfl
      have hdata : IsData din₁.indirect := by
        have hdata := howned.isData htype₁ (hplace ▸ he.indirect_ne)
        rwa [hplace] at hdata
      have hused : din₁.indirect < m₁.freeblock := by
        have hused := hf₁.addr_lt howned htype₁ (hplace ▸ he.indirect_ne)
        rwa [hplace] at hused
      have hword : m₁.view.word din₁.indirect (fbn - NDIRECT)
          = m₁.img.word din₁.indirect (fbn - NDIRECT) :=
        Image.word_congr (view_of_ne hdata.ne_bmapstart)
      rw [hensure]
      simp only [bind, Except.bind, hword]
      split at hbmap
      next hnone =>
        cases hbmap
        rw [if_pos hnone, balloc_view hf₁ hx]
        refine ⟨?_, (hf₁.alloc hx).write hdata (Nat.lt_succ_of_lt hused) _, fun b hb => ?_⟩
        swap
        · have hne : b ≠ din'.indirect := Nat.ne_of_lt (Nat.lt_of_lt_of_le hb hdata.1)
          exact (Image.setWord_of_ne hne).trans (congrFun himg b)
        have hset : (view { m₁ with freeblock := m₁.freeblock + 1 }).setWord din'.indirect
            (fbn - NDIRECT) m₁.freeblock = view { m₁ with
              img := m₁.img.setWord din'.indirect (fbn - NDIRECT) m₁.freeblock
              freeblock := m₁.freeblock + 1 } := by
          rw [Image.setWord, view_of_ne hdata.ne_bmapstart]
          exact update_view hdata.ne_bmapstart _
        simp only [hset]
      next hsome =>
        cases hbmap
        rw [if_neg hsome]
        exact ⟨rfl, hf₁, fun b _ => congrFun himg b⟩
    next => cases hbmap

theorem freeinode_bmap {din : Dinode} (hbmap : m.bmap din fbn = some (m', din', x)) :
    m'.freeinode = m.freeinode := by
  have hensure : (m.ensureIndirect din).1.freeinode = m.freeinode := by
    unfold ensureIndirect
    split <;> rfl
  unfold bmap at hbmap
  split at hbmap
  · split at hbmap <;> cases hbmap <;> rfl
  · simp only at hbmap
    split at hbmap
    · split at hbmap <;> cases hbmap <;> exact hensure
    · cases hbmap

/-- The state after bytes have been put into block `x`. -/
def put (m : Mkfs) (x off : ℕ) (src : List Byte) : Mkfs :=
  { m with img := update m.img x (splice (m.img x) (off % BSIZE) src) }

/-- **One iteration** of the loop of `iappend` does what one of the loop of `writei` does. -/
theorem block_sim (hf : m.Fresh) (h : Owned m.view tbl) (htype : (tbl i).type ≠ 0)
    (hmax : off / BSIZE < MAXFILE) (hbmap : m.bmap (tbl i) (off / BSIZE) = some (m', din', x))
    (hx : x < FSSIZE) {src : List Byte} (hsrc : src ≠ [])
    (hfit : off % BSIZE + src.length ≤ BSIZE) :
    OnDisk.bmap m.view (tbl i) (off / BSIZE) = .ok (m'.view, din', x) ∧
      update m'.view x (splice (m'.view x) (off % BSIZE) src) = (m'.put x off src).view ∧
        (m'.put x off src).Fresh ∧ Wrote m.view tbl i off src (m'.put x off src).view din' ∧
          ∀ b < nmeta, (m'.put x off src).img b = m.img b := by
  obtain ⟨hsim, hf', hlow⟩ := bmap_sim hf h htype hmax hbmap hx
  obtain ⟨hm, howned⟩ := (bmap_spec h htype (off / BSIZE)).of_eq_ok hsim
  dsimp only at hm howned
  have hself : update tbl i din' i = din' := update_self ..
  have htype' : (update tbl i din' i).type ≠ 0 := by
    rw [hself, hm.header]
    exact htype
  have hused : x < m'.freeblock := by
    have hblock : blockAt m'.view (update tbl i din' i) (off / BSIZE) = x := by
      rw [hself]
      exact hm.blockAt_self
    obtain ⟨s, -, -, haddr⟩ := exists_slot (hblock ▸ hm.isData.ne_zero)
    have hlt := hf'.addr_lt howned htype' (haddr ▸ hblock ▸ hm.isData.ne_zero)
    rwa [← haddr, hblock] at hlt
  have himg : update m'.view x (splice (m'.view x) (off % BSIZE) src)
      = (m'.put x off src).view := by
    rw [view_of_ne hm.isData.ne_bmapstart, update_view hm.isData.ne_bmapstart, put]
  have hwrote := wrote_block htype hm howned hsrc hfit
  rw [himg] at hwrote
  refine ⟨hsim, himg, hf'.write hm.isData hused _, hwrote, fun b hb => ?_⟩
  have hne : b ≠ x := Nat.ne_of_lt (Nat.lt_of_lt_of_le hb hm.isData.1)
  exact (update_of_ne hne ..).trans (hlow b hb)

/-- The bytes of one iteration, and that they fit into the block. -/
theorem chunk_facts (off : ℕ) (hp : p ≠ []) :
    ∃ n, min p.length ((off / BSIZE + 1) * BSIZE - off) = n ∧
    min p.length (BSIZE - off % BSIZE) = n ∧ off - off / BSIZE * BSIZE = off % BSIZE ∧
      (p.take n).length = n ∧ p.take n ≠ [] ∧ off % BSIZE + n ≤ BSIZE ∧ 0 < n ∧ n ≤ p.length := by
  have hB : BSIZE = 512 := rfl
  have hpos : 0 < p.length := List.length_pos_iff.mpr hp
  refine ⟨min p.length (BSIZE - off % BSIZE), ?_, rfl, ?_, ?_, ?_, ?_, ?_, Nat.min_le_left ..⟩
  · rw [hB]
    omega
  · rw [hB]
    omega
  · rw [List.length_take]
    omega
  · rw [← List.length_pos_iff, List.length_take, hB]
    omega
  · rw [hB]
    omega
  · rw [hB]
    omega

/-- **The loop of `iappend`** is the loop of `writei`. -/
theorem appendLoop_sim : ∀ {fuel : ℕ} {m : Mkfs} {tbl : Inum → Dinode} {off : ℕ} {p : List Byte},
    m.Fresh → Owned m.view tbl → (tbl i).type ≠ 0 → p.length ≤ fuel →
    m.appendLoop fuel (tbl i) off p = some (m', din', off') →
    writeLoop fuel m.view (tbl i) off p = .ok (m'.view, din') ∧ m'.Fresh ∧
      m'.freeinode = m.freeinode ∧ off' = off + p.length ∧
        (p ≠ [] → off + p.length ≤ MAXFILE * BSIZE) ∧ ∀ b < nmeta, m'.img b = m.img b
  | 0, m, tbl, off, p, hf, _, _, hfuel, hloop => by
    have hnil : p = [] := List.length_eq_zero_iff.mp (Nat.le_zero.mp hfuel)
    subst hnil
    cases hloop
    exact ⟨rfl, hf, rfl, rfl, fun hne => absurd rfl hne, fun _ _ => rfl⟩
  | fuel + 1, m, tbl, off, p, hf, h, htype, hfuel, hloop => by
    unfold appendLoop at hloop
    unfold writeLoop
    split at hloop
    next hnil =>
      subst hnil
      cases hloop
      exact ⟨rfl, hf, rfl, rfl, fun hne => absurd rfl hne, fun _ _ => rfl⟩
    next hne =>
      simp only at hloop
      split at hloop
      next hmax =>
        obtain ⟨⟨m₁, din₁, x⟩, hbmap, hloop⟩ := Option.bind_eq_some_iff.mp hloop
        simp only at hloop
        split at hloop
        next hx =>
          obtain ⟨n, hcount, hcount', hoff, hlen, htake, hfit, hpos, hle⟩ :=
            chunk_facts off hne
          rw [hoff, hcount] at hloop
          obtain ⟨hsim, himg, hf₂, hwrote, hlow⟩ :=
            block_sim hf h htype hmax hbmap hx htake (by rwa [hlen])
          have hself : update tbl i din₁ i = din₁ := update_self ..
          have htype₁ : (update tbl i din₁ i).type ≠ 0 := by
            rw [hself, hwrote.header]
            exact htype
          rw [← hself] at hloop
          obtain ⟨hwrite, hf', hinodes, hoff', hend, hlow'⟩ :=
            appendLoop_sim hf₂ hwrote.owned htype₁ (by rw [List.length_drop]; omega) hloop
          rw [hself] at hwrite
          rw [hsim]
          have hinodes₁ : (m₁.put x off (p.take n)).freeinode = m₁.freeinode := rfl
          refine ⟨?_, hf', (hinodes.trans hinodes₁).trans (freeinode_bmap hbmap), ?_, fun _ => ?_,
            fun b hb => (hlow' b hb).trans (hlow b hb)⟩
          · rw [if_neg hne]
            simp only [bind, Except.bind, hcount', himg]
            exact hwrite
          · rw [hoff', List.length_drop]
            omega
          · by_cases hlast : p.drop n = []
            · have hshort : p.length ≤ n := List.drop_eq_nil_iff.mp hlast
              have hB : BSIZE = 512 := rfl
              have hM : MAXFILE = 140 := rfl
              rw [hB, hM] at hmax ⊢
              rw [hB] at hfit
              omega
            · have hrest := hend hlast
              rw [List.length_drop] at hrest
              omega
        next => cases hloop
      next => cases hloop

theorem setDinode_view {din : Dinode} : m.view.setDinode i din = (m.winode i din).view := by
  have hne : IBLOCK i ≠ bmapstart := Nat.ne_of_lt (IBLOCK_lt i).2
  rw [Image.setDinode, view_of_ne hne, update_view hne]
  rfl

/-- An inode that is in use may be written. -/
theorem Fresh.winode (h : m.Fresh) (hi : (i : ℕ) < m.freeinode) (din : Dinode) :
    (m.winode i din).Fresh where
  le := h.le
  ge := h.ge
  zero b hb hb' := by
    have hne : b ≠ IBLOCK i := by
      have hlt : IBLOCK i < b := Nat.lt_of_lt_of_le (IBLOCK_lt i).2
        (Nat.le_trans (Nat.le_of_lt (by decide)) (Nat.le_trans h.le hb))
      exact Nat.ne_of_gt hlt
    exact (Image.setDinode_of_ne hne).trans (h.zero b hb hb')
  inode j hj := by
    have hne : j ≠ i := by
      rintro rfl
      exact absurd hi (Nat.not_lt_of_le hj)
    exact (Image.dinode_setDinode_of_ne hne).trans (h.inode j hj)

/-- **`iappend`** is a `writei` at the end of the file. -/
theorem iappend_sim (hf : m.Fresh) (h : Consistent m.view)
    (htype : (m.view.dinode i).type ≠ 0) (hdev : (m.view.dinode i).type ≠ T_DEV)
    (hi : (i : ℕ) < m.freeinode) (hp : p ≠ []) (happend : m.iappend i p = some m') :
    (∃ r, m.appendLoop p.length (m.view.dinode i) (m.view.dinode i).size p = some r ∧
      OnDisk.writei m.view i (m.view.dinode i) (m.view.dinode i).size p
        = .ok (m'.view, { r.2.1 with size := (m.view.dinode i).size + p.length },
            .bytes p.length)) ∧
      (m.view.dinode i).size + p.length ≤ MAXFILE * BSIZE ∧ m'.Fresh ∧
        m'.freeinode = m.freeinode ∧ ∀ b < inodestart, m'.img b = m.img b := by
  unfold iappend at happend
  obtain ⟨⟨m₁, din₁, off₁⟩, hloop, hm'⟩ := Option.bind_eq_some_iff.mp happend
  cases hm'
  have hdinode : m.rinode i = m.view.dinode i := view_dinode.symm
  rw [hdinode] at hloop
  obtain ⟨hwrite, hf₁, hinodes, rfl, hmax, hlow⟩ :=
    appendLoop_sim hf h.owned htype (Nat.le_refl _) hloop
  have hlimit := hmax hp
  have hlt : MAXFILE * BSIZE < 2 ^ 32 := by decide
  have hpos : 0 < p.length := List.length_pos_iff.mpr hp
  have hwrote := (writeLoop_spec _ h.owned htype (Nat.le_refl _)).of_eq_ok hwrite
  dsimp only at hwrote
  have hsize : din₁.size = (m.view.dinode i).size := by
    rw [hwrote.header]
  refine ⟨⟨_, hloop, ?_⟩, hlimit, ?_, hinodes, ?_⟩
  · rw [OnDisk.writei, if_neg hdev, if_neg (by omega), if_neg (by omega), hwrite]
    simp only [bind, Except.bind]
    rw [if_pos ⟨hpos, by omega⟩, OnDisk.iupdate, setDinode_view]
  · exact hf₁.winode (hinodes ▸ hi) _
  · intro b hb
    have hne : b ≠ IBLOCK i := Nat.ne_of_lt (Nat.lt_of_lt_of_le hb (IBLOCK_lt i).1)
    have hlt : b < nmeta := Nat.lt_trans hb (by decide)
    exact (Image.setDinode_of_ne hne).trans (hlow b hlt)

end Mkfs

end Xv6.OnDisk
