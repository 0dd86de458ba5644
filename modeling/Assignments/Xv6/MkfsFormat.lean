import Assignments.Xv6.MkfsRoom
import Assignments.Xv6.InodeRuns

/-!
# The image of `mkfs` and the kernel

The image that `mkfs` writes, as the kernel reads it.

* `mkfs_sound_iff` — the blocks of the regions are disjoint and the bitmap is right; no inode has a
  hole iff the number of entries of the root directory is no multiple of those in a block. If it is
  one, the size of the root directory is rounded up by a whole block, which is not there;
* `mkfs_agrees` — the kernel finds each file by its name in the root directory and reads its bytes;
  `mkfs_shadowed` is a file that it does not find, because the name is that of an entry which every
  directory has.
-/

namespace Xv6.OnDisk

open Framework Function List

variable {files : List HostFile} {m : Mkfs} {img : Image} {i j : Inum}

/-! ### What the image holds -/

/-- The inode of the root directory, with its size rounded up. -/
def fixedRoot (x : Dinode) : Dinode := { x with size := (x.size / BSIZE + 1) * BSIZE }

theorem addrAt_fixedRoot (x : Dinode) (s : Slot) : addrAt img (fixedRoot x) s = addrAt img x s := by
  cases s <;> rfl

namespace Finished

variable (h : Finished files m img)

include h

theorem eq_iupdate : img = iupdate m.view rootInum (fixedRoot (m.view.dinode rootInum)) := by
  rw [h.img, iupdate, Mkfs.setDinode_view, Mkfs.view_dinode]
  rfl

/-- All inodes but that of the root directory are as they were. -/
theorem dinode_eq :
    img.dinode = update m.view.dinode rootInum (fixedRoot (m.view.dinode rootInum)) := by
  have hsize : (fixedRoot (m.view.dinode rootInum)).size < 2 ^ 32 := by
    have hlen := h.built.length_le
    have hentry : direntSize = 16 := rfl
    have hB : BSIZE = 512 := rfl
    rw [fixedRoot, h.built.rootSize, hentry, hB]
    dsimp only
    omega
  have hfits : (fixedRoot (m.view.dinode rootInum)).Fits :=
    ⟨hsize, Image.fits_dinode.addrs, Image.fits_dinode.indirect⟩
  funext j
  rw [update_apply, h.eq_iupdate, iupdate]
  split
  next hj => rw [hj, Image.dinode_setDinode hfits]
  next hj => rw [Image.dinode_setDinode_of_ne hj]

theorem dinode_root : img.dinode rootInum = fixedRoot (m.view.dinode rootInum) := by
  rw [h.dinode_eq, update_self]

theorem dinode_other (hj : j ≠ rootInum) : img.dinode j = m.view.dinode j := by
  rw [h.dinode_eq, update_of_ne hj]

theorem type_eq (j : Inum) : (img.dinode j).type = (m.view.dinode j).type := by
  by_cases hj : j = rootInum
  · rw [hj, h.dinode_root]
    rfl
  · rw [h.dinode_other hj]

/-- The blocks are owned, although there may be a hole. -/
theorem owned : Owned img img.dinode := by
  have hrefs : refs m.view (update m.view.dinode rootInum
      (fixedRoot (m.view.dinode rootInum))) = refs m.view m.view.dinode :=
    refs_setHeader rfl (addrAt_fixedRoot _)
  have howned : Owned m.view (update m.view.dinode rootInum
      (fixedRoot (m.view.dinode rootInum))) :=
    ⟨hrefs ▸ h.built.consistent.owned.owns, h.built.consistent.owned.metadata⟩
  have hwritten := howned.iupdate rootInum (fixedRoot (m.view.dinode rootInum))
  rwa [← h.eq_iupdate, ← h.dinode_eq] at hwritten

/-- The blocks of a file are where they were. -/
theorem blockAt_eq (hj : (m.view.dinode j).type ≠ 0) (bn : ℕ) :
    blockAt img (img.dinode j) bn = blockAt m.view (m.view.dinode j) bn := by
  have hwritten : blockAt img (m.view.dinode j) bn = blockAt m.view (m.view.dinode j) bn := by
    rw [h.eq_iupdate]
    exact h.built.consistent.owned.blockAt_setDinode hj _ bn
  by_cases hroot : j = rootInum
  · subst hroot
    rw [h.dinode_root, ← hwritten]
    exact blockAt_congr fun s _ => addrAt_fixedRoot _ s
  · rw [h.dinode_other hroot, hwritten]

/-- The bytes of a file are what they were. -/
theorem byteAt_eq (hj : (m.view.dinode j).type ≠ 0) {k : ℕ} (hk : k < (m.view.dinode j).size) :
    byteAt img (img.dinode j) k = byteAt m.view (m.view.dinode j) k := by
  have hne := (h.built.consistent.noHole j hj).blockAt_ne hk
  have hdata := h.built.consistent.owned.blockAt_isData hj hne
  apply byteAt_congr (h.blockAt_eq hj _)
  rw [h.eq_iupdate]
  exact Image.setDinode_of_ne hdata.ne_IBLOCK

/-- An inode that is not in use is zero. -/
theorem dinode_free (hj : (img.dinode j).type = 0) : img.dinode j = emptyDinode 0 := by
  have htype := h.type_eq j
  rw [hj] at htype
  have hroot : j ≠ rootInum := by
    rintro rfl
    exact h.built.rootOpen.type htype.symm
  rw [h.dinode_other hroot]
  by_cases hlow : (j : ℕ) < m.freeinode
  · by_cases hzero : (j : ℕ) = 0
    · exact h.built.null j hzero
    · -- the inodes from 2 on are files
      have hone : (j : ℕ) ≠ 1 := fun hone => hroot (Fin.ext hone)
      have hlen := h.built.freeinode
      obtain ⟨f, hf⟩ : ∃ f, files[(j : ℕ) - 2]? = some f :=
        ⟨_, getElem?_eq_getElem (by omega)⟩
      have hfile := (h.built.file _ f hf j (by omega)).1
      rw [hfile] at htype
      exact absurd htype (by decide)
  · exact Mkfs.view_dinode.trans (h.built.fresh.inode j (Nat.le_of_not_lt hlow))

theorem bit_eq {b : ℕ} (hb : b < BPB) : img.bit b = decide (b < m.freeblock) := by
  rw [h.img]
  exact bit_withBitmap hb h.built.fresh.ge

theorem low {b : ℕ} (hb : b < inodestart) : img b = Mkfs.start.img b := by
  have hne : b ≠ IBLOCK rootInum :=
    Nat.ne_of_lt (Nat.lt_of_lt_of_le hb (IBLOCK_lt rootInum).1)
  have hbmap : b ≠ bmapstart := Nat.ne_of_lt (Nat.lt_trans hb (by decide))
  rw [h.eq_iupdate, iupdate, Image.setDinode_of_ne hne, Mkfs.view_of_ne hbmap]
  exact h.built.low b hb

end Finished

/-! ### Holes, regions and the bitmap -/

/-- The regions of the disk by the superblock, each with its first block and the one after its last:
the boot block, the superblock, the log, the inodes, the bitmap and the data. -/
def regions (img : Image) : List (ℕ × ℕ) :=
  let size := img.word 1 0
  let nblocks := img.word 1 1
  let ninodes := img.word 1 2
  let nlog := img.word 1 3
  let logstart := img.word 1 4
  let inodestart := img.word 1 5
  let bmapstart := img.word 1 6
  [(0, 1), (1, 2), (logstart, logstart + nlog), (inodestart, inodestart + (ninodes / IPB + 1)),
    (bmapstart, bmapstart + (size / BPB + 1)), (size - nblocks, size)]

/-- No block is in two regions. -/
def RegionsDisjoint (img : Image) : Prop :=
  (regions img).Pairwise fun r s => ∀ b, ¬ ((r.1 ≤ b ∧ b < r.2) ∧ s.1 ≤ b ∧ b < s.2)

/-- The bitmap marks the metadata and the blocks that an inode has, and no others. -/
def BitmapExact (img : Image) : Prop :=
  ∀ b < BPB, img.bit b = true ↔ b < nmeta ∨ ∃ i s, addrAt img (img.dinode i) s = b

namespace Finished

variable (h : Finished files m img)

include h

theorem regionsDisjoint : RegionsDisjoint img := by
  have hword : ∀ k < 7, img.word 1 k = superblock.getD k 0 % 2 ^ 32 := by
    intro k hk
    have hfield : getLE (putWords (fun _ => 0) 0 superblock.length fun k => superblock.getD k 0)
        (0 + 4 * k) 4 = superblock.getD k 0 % 2 ^ 32 := getLE_putWords hk
    rw [Image.word, h.low (by decide)]
    rw [Nat.zero_add] at hfield
    exact hfield
  have hregions : regions img = [(0, 1), (1, 2), (2, 32), (32, 58), (58, 59), (59, 1000)] := by
    simp only [regions, hword 0 (by decide), hword 1 (by decide), hword 2 (by decide),
      hword 3 (by decide), hword 4 (by decide), hword 5 (by decide), hword 6 (by decide)]
    decide
  rw [RegionsDisjoint, hregions]
  simp only [pairwise_cons, mem_cons, not_mem_nil, or_false, forall_eq_or_imp,
    forall_eq, List.Pairwise.nil, and_true, IsEmpty.forall_iff, implies_true]
  refine ⟨⟨?_, ?_, ?_, ?_, ?_⟩, ⟨?_, ?_, ?_, ?_⟩, ⟨?_, ?_, ?_⟩, ⟨?_, ?_⟩, ?_⟩ <;>
    (intro b hb; omega)

theorem bitmapExact : BitmapExact img := by
  intro b hb
  rw [h.bit_eq hb, decide_eq_true_iff]
  have hge : m.freeblock ≤ FSSIZE := h.built.fresh.ge
  have hle : nmeta ≤ m.freeblock := h.built.fresh.le
  by_cases hmeta : b < nmeta
  · exact iff_of_true (Nat.lt_of_lt_of_le hmeta hle) (.inl hmeta)
  have hmetale : nmeta ≤ b := Nat.le_of_not_lt hmeta
  -- a free inode has no blocks, so that it does not matter that `refs` passes over it
  have hrefs : (∃ i s, addrAt img (img.dinode i) s = b) ↔
      ∃ p, refs img img.dinode p = b := by
    have hpos : b ≠ 0 := Nat.ne_of_gt (Nat.lt_of_lt_of_le (by decide) hmetale)
    constructor
    · rintro ⟨i, s, haddr⟩
      refine ⟨(i, s), ?_⟩
      rw [refs_of_type, haddr]
      intro hfree
      rw [h.dinode_free hfree] at haddr
      cases s <;> exact hpos haddr.symm
    · rintro ⟨⟨i, s⟩, hp⟩
      refine ⟨i, s, ?_⟩
      rw [refs] at hp
      split at hp
      next => exact absurd hp.symm hpos
      next => exact hp
  rw [or_iff_right hmeta, hrefs]
  by_cases hdata : b < FSSIZE
  · rw [← h.owned.owns.used_iff b ⟨hmetale, hdata⟩, h.bit_eq hb, decide_eq_true_iff]
  · refine iff_of_false (fun hlt => hdata (Nat.lt_of_lt_of_le hlt hge)) ?_
    rintro ⟨p, rfl⟩
    have hpos : refs img img.dinode p ≠ 0 :=
      Nat.ne_of_gt (Nat.lt_of_lt_of_le (by decide) hmetale)
    exact hdata (h.owned.owns.mem_pool p hpos).2

/-- The root directory has a hole iff its entries fill its blocks. -/
theorem noHole_root_iff :
    NoHole img (img.dinode rootInum) ↔ (files.length + 2) % (BSIZE / direntSize) ≠ 0 := by
  have htype := h.built.rootOpen.type
  have hhole := h.built.consistent.noHole rootInum htype
  have hexact := h.built.rootExact
  have hsize := h.built.rootSize
  have hentry : direntSize = 16 := rfl
  have hB : BSIZE = 512 := rfl
  have hfixed : (img.dinode rootInum).size
      = ((m.view.dinode rootInum).size / BSIZE + 1) * BSIZE := by
    rw [h.dinode_root]
    rfl
  have hper : BSIZE / direntSize = 32 := rfl
  rw [hentry] at hsize
  rw [hB] at hfixed
  rw [hper]
  constructor
  · intro hno hmod
    -- the last block of the rounded size begins at the old one
    have hlast := hno ((m.view.dinode rootInum).size / 512) (by rw [hfixed, hB]; omega)
    rw [h.blockAt_eq htype] at hlast
    exact hlast (hexact _ (by rw [hB]; omega))
  · intro hmod bn hbn
    rw [h.blockAt_eq htype]
    apply hhole
    rw [hfixed] at hbn
    rw [hB] at hbn ⊢
    omega

/-- The other inodes have none. -/
theorem noHole_other (hj : j ≠ rootInum) : NoHole img (img.dinode j) := by
  by_cases hfree : (img.dinode j).type = 0
  · intro bn hbn
    rw [h.dinode_free hfree] at hbn
    exact absurd hbn (Nat.not_lt_zero _)
  · have htype : (m.view.dinode j).type ≠ 0 := by rwa [← h.type_eq j]
    apply (h.built.consistent.noHole j htype).congr _ (h.blockAt_eq htype)
    rw [h.dinode_other hj]

end Finished

/-- **When the image is sound**: the regions and the bitmap always are, and there is no hole unless
the entries of the root directory fill its blocks. -/
theorem mkfs_sound_iff (h : mkfs files = some img) :
    (∀ i, NoHole img (img.dinode i)) ∧ RegionsDisjoint img ∧ BitmapExact img ↔
      (files.length + 2) % (BSIZE / direntSize) ≠ 0 := by
  obtain ⟨m, hfinished⟩ := mkfs_finished h
  rw [← hfinished.noHole_root_iff]
  constructor
  · exact fun hall => hall.1 rootInum
  · intro hroot
    refine ⟨fun i => ?_, hfinished.regionsDisjoint, hfinished.bitmapExact⟩
    by_cases hi : i = rootInum
    · exact hi ▸ hroot
    · exact hfinished.noHole_other hi

/-- Two files: `_a` with one byte, and `b`, which is empty. -/
def twoFiles : List HostFile := [⟨[underscore, 97], [7], by decide⟩, ⟨[98], [], by decide⟩]

theorem mkfs_sound_twoFiles : ∃ img, mkfs twoFiles = some img ∧
    (∀ i, NoHole img (img.dinode i)) ∧ RegionsDisjoint img ∧ BitmapExact img := by
  have hfits : Fits twoFiles := ⟨by decide, by decide, by decide, by decide⟩
  obtain ⟨img, hmkfs⟩ := mkfs_total hfits
  exact ⟨img, hmkfs, (mkfs_sound_iff hmkfs).mpr (by decide)⟩

/-- Thirty empty files, `a0` and so on. -/
def thirtyFiles : List HostFile :=
  (finRange 30).map fun k : Fin 30 =>
    ⟨[97, BitVec.ofNat 8 (k.val + 48)], [], by revert k; decide⟩

/-- With thirty files the root directory has 32 entries, which fill one block; its size is rounded
up to two. -/
theorem mkfs_hole : ∃ img, mkfs thirtyFiles = some img ∧
    (img.dinode rootInum).size = 2 * BSIZE ∧ blockAt img (img.dinode rootInum) 1 = 0 := by
  have hempty : ∀ f ∈ thirtyFiles, f.data = [] := by
    intro f hf
    obtain ⟨k, -, rfl⟩ := mem_map.mp hf
    rfl
  have hslash : ∀ f ∈ thirtyFiles, slash ∉ f.name := by
    have hnames : ∀ k : Fin 30, slash ∉ [97, BitVec.ofNat 8 (k.val + 48)] := by decide
    intro f hf
    obtain ⟨k, -, rfl⟩ := mem_map.mp hf
    exact hnames k
  have hlength : thirtyFiles.length = 30 := rfl
  have hfits : Fits thirtyFiles :=
    ⟨by decide, fun f hf => by rw [hempty f hf]; exact Nat.zero_le _, hslash, by decide⟩
  obtain ⟨img, hmkfs⟩ := mkfs_total hfits
  obtain ⟨m, h⟩ := mkfs_finished hmkfs
  have hsize := h.built.rootSize
  rw [hlength] at hsize
  refine ⟨img, hmkfs, ?_, ?_⟩
  · rw [h.dinode_root, fixedRoot, hsize]
    rfl
  · rw [h.blockAt_eq h.built.rootOpen.type]
    exact h.built.rootExact 1 (by rw [hsize]; decide)

/-! ### Entries of directories -/

theorem direntInum_dirent {inum : ℕ} (h : inum < 2 ^ 16) (name : List Byte) :
    direntInum (dirent inum name) = inum := by
  have hbytes : direntInum (dirent inum name)
      = (BitVec.ofNat 8 inum).toNat + 256 * ((BitVec.ofNat 8 (inum / 256)).toNat + 256 * 0) := rfl
  rw [hbytes, BitVec.toNat_ofNat, BitVec.toNat_ofNat]
  omega

theorem direntName_dirent (inum : ℕ) (name : List Byte) :
    direntName (dirent inum name) = strncpy DIRSIZ name := rfl

theorem strncpy_cons {n : ℕ} {d : Byte} {q : List Byte} (hd : d ≠ 0) :
    strncpy (n + 1) (d :: q) = d :: strncpy n q := if_neg hd

theorem strncmp_cons {n : ℕ} {c d : Byte} {p q : List Byte} (hc : c ≠ 0) :
    strncmp (n + 1) (c :: p) (d :: q) = if c = d then strncmp n p q else false := by
  show (if c ≠ 0 ∧ c = d then strncmp n p q else decide (c = d)) = _
  by_cases hcd : c = d
  · rw [if_pos hcd, if_pos ⟨hc, hcd⟩]
  · rw [if_neg hcd, if_neg fun hboth => hcd hboth.2]
    exact decide_eq_false hcd

/-- A name is found iff it agrees with the stored one as far as that goes. -/
theorem strncmp_strncpy : ∀ (n : ℕ) {p q : List Byte}, 0 ∉ p → 0 ∉ q →
    (strncmp n p (strncpy n q) = true ↔ p.take n = q.take n)
  | 0, _, _, _, _ => iff_of_true rfl rfl
  | n + 1, [], [], _, _ => iff_of_true rfl rfl
  | n + 1, [], d :: q, _, hq => by
    have hd : d ≠ 0 := fun hd => hq (hd ▸ mem_cons_self)
    have hend : strncmp (n + 1) [] (d :: strncpy n q) = false :=
      (if_neg fun hboth => hboth.1 rfl).trans (decide_eq_false hd.symm)
    rw [strncpy_cons hd, hend]
    exact iff_of_false Bool.false_ne_true (cons_ne_nil _ _).symm
  | n + 1, c :: p, [], hp, _ => by
    have hc : c ≠ 0 := fun hc => hp (hc ▸ mem_cons_self)
    have hend : strncmp (n + 1) (c :: p) (0 :: replicate n 0) = false := by
      rw [strncmp_cons hc, if_neg hc]
    exact iff_of_false (fun heq => Bool.false_ne_true (hend.symm.trans heq)) (cons_ne_nil _ _)
  | n + 1, c :: p, d :: q, hp, hq => by
    have hc : c ≠ 0 := fun hc => hp (hc ▸ mem_cons_self)
    have hd : d ≠ 0 := fun hd => hq (hd ▸ mem_cons_self)
    have ih := strncmp_strncpy n (fun hmem => hp (mem_cons_of_mem c hmem))
      (fun hmem => hq (mem_cons_of_mem d hmem))
    rw [strncpy_cons hd, strncmp_cons hc, take_succ_cons, take_succ_cons, cons.injEq]
    by_cases hcd : c = d
    · rw [if_pos hcd, ih]
      exact (and_iff_right hcd).symm
    · rw [if_neg hcd]
      exact iff_of_false Bool.false_ne_true fun hboth => hcd hboth.1

/-- One entry of a directory. -/
theorem slice_direntBytes {f : Memory} {pre post : List (ℕ × List Byte)} {e : ℕ × List Byte}
    (h : slice f 0 (direntSize * (pre ++ e :: post).length) = direntBytes (pre ++ e :: post)) :
    slice f (direntSize * pre.length) direntSize = dirent e.1 e.2 := by
  have hlen : direntSize * (pre ++ e :: post).length
      = direntSize * pre.length + (direntSize + direntSize * post.length) := by
    rw [length_append, length_cons, Nat.mul_add, Nat.mul_succ, Nat.add_comm direntSize]
  have hbytes : direntBytes (pre ++ e :: post)
      = direntBytes pre ++ (dirent e.1 e.2 ++ direntBytes post) := by
    rw [direntBytes, flatMap_append, flatMap_cons]
    rfl
  rw [hlen, hbytes, slice_add, Nat.zero_add, slice_add] at h
  have hrest := (append_inj h (by rw [length_slice, length_direntBytes])).2
  exact (append_inj hrest (by rw [length_slice, length_dirent])).1

/-! ### A lookup by the kernel -/

/-- A read that does not change the inode does not change the state. -/
theorem State.readi_eq {s : State} {ip : Ip} {off n : ℕ} {count : Count} {bytes : List Byte}
    (hinum : (s.icache ip).inum < NINODES)
    (hread : OnDisk.readi s.img (s.icache ip).din off n
      = .ok (s.img, (s.icache ip).din, count, bytes)) :
        s.readi ip off n = .ok (s, count, bytes) := by
  have hself : s.set ip (s.icache ip) = s := by
    rw [State.set, update_eq_self]
  rw [State.readi, State.onInode]
  simp only [dif_pos hinum, hread, bind, Except.bind]
  exact congrArg (fun t : State => Except.ok ({ t with img := s.img }, count, bytes)) hself

/-- The inode in memory is a directory with these entries, and perhaps empty ones after them. -/
structure Lists (s : State) (dp : Ip) (entries : List (ℕ × List Byte)) : Prop where
  inum : (s.icache dp).inum < NINODES
  type : (s.icache dp).din.type = T_DIR
  le : direntSize * entries.length ≤ (s.icache dp).din.size
  small : (s.icache dp).din.size + direntSize < 2 ^ 32
  there : ∀ k < direntSize * entries.length, blockAt s.img (s.icache dp).din (k / BSIZE) ≠ 0
  bytes : slice (byteAt s.img (s.icache dp).din) 0 (direntSize * entries.length)
    = direntBytes entries

section

variable {s : State} {dp : Ip} {pre post : List (ℕ × List Byte)} {e : ℕ × List Byte}
  {p : List Byte → Bool}

theorem Lists.readi (h : Lists s dp (pre ++ e :: post)) :
    s.readi dp (direntSize * pre.length) direntSize
      = .ok (s, .bytes direntSize, dirent e.1 e.2) := by
  have hlen : direntSize * pre.length + direntSize ≤ direntSize * (pre ++ e :: post).length := by
    rw [length_append, length_cons, ← Nat.mul_succ]
    exact Nat.mul_le_mul_left _ (by omega)
  have hle := h.le
  have hsmall := h.small
  have hdev : (s.icache dp).din.type ≠ T_DEV := by
    rw [h.type]
    decide
  have hcount : min direntSize ((s.icache dp).din.size - direntSize * pre.length) = direntSize := by
    omega
  have hread : OnDisk.readi s.img (s.icache dp).din (direntSize * pre.length) direntSize = _ :=
    readi_bytes hdev (by omega) (by omega) fun k hk => h.there _ (by omega)
  rw [hcount, slice_direntBytes h.bytes] at hread
  exact State.readi_eq h.inum hread

/-- **The first entry with `p`** is where the loop over the directory ends. -/
theorem scan_first (stop : Stop) (hp : p (dirent e.1 e.2) = true) (post : List (ℕ × List Byte)) :
    ∀ (rest pre : List (ℕ × List Byte)) {fuel : ℕ}, Lists s dp (pre ++ (rest ++ e :: post)) →
    (∀ e ∈ rest, p (dirent e.1 e.2) = false) → rest.length < fuel →
    scan dp stop p fuel s (direntSize * pre.length)
      = .ok (s, direntSize * (pre ++ rest).length, some (dirent e.1 e.2))
  | _, _, 0, _, _, hfuel => absurd hfuel (Nat.not_lt_zero _)
  | [], pre, fuel + 1, h, _, _ => by
    have hlt : direntSize * pre.length < (s.icache dp).din.size := by
      have hle := h.le
      have hentry : direntSize = 16 := rfl
      rw [length_append, nil_append, length_cons, hentry] at hle
      rw [hentry]
      omega
    have hread := h.readi
    unfold scan
    rw [if_pos hlt, hread, append_nil]
    simp only [bind, Except.bind, ne_eq, not_true_eq_false, if_false, hp, if_true]
  | d :: rest, pre, fuel + 1, h, hnone, hfuel => by
    have hlt : direntSize * pre.length < (s.icache dp).din.size := by
      have hle := h.le
      have hentry : direntSize = 16 := rfl
      rw [length_append, cons_append, length_cons, hentry] at hle
      rw [hentry]
      omega
    have hread : s.readi dp (direntSize * pre.length) direntSize
        = .ok (s, .bytes direntSize, dirent d.1 d.2) := Lists.readi h
    have hd : p (dirent d.1 d.2) = false := hnone d mem_cons_self
    have hassoc : pre ++ d :: rest = pre ++ [d] ++ rest := by
      rw [append_assoc, singleton_append]
    have hlists : Lists s dp (pre ++ [d] ++ (rest ++ e :: post)) := by
      rw [append_assoc]
      exact h
    have hstep := scan_first stop hp post rest (pre ++ [d]) hlists
      (fun x hx => hnone x (mem_cons_of_mem d hx)) (Nat.lt_of_succ_lt_succ hfuel)
    rw [length_append, length_singleton, Nat.mul_succ] at hstep
    unfold scan
    rw [if_pos hlt, hread, hassoc, ← hstep]
    simp only [bind, Except.bind, ne_eq, not_true_eq_false, if_false, hd, Bool.false_eq_true]

/-- **`dirlookup`** takes a reference to the inode of the first entry with the name. -/
theorem dirlookup_first {name : List Byte} (h : Lists s dp (pre ++ e :: post))
    (hinum : e.1 ≠ 0 ∧ e.1 < 2 ^ 16) (hname : namecmp name (strncpy DIRSIZ e.2) = true)
    (hnone : ∀ e ∈ pre, namecmp name (strncpy DIRSIZ e.2) = false) {s' : State} {ip : Ip}
    (higet : iget s e.1 = .ok (s', ip)) :
    dirlookup s dp name = .ok (s', some (ip, direntSize * pre.length)) := by
  have hfuel : pre.length < (s.icache dp).din.size + 1 := by
    have hle := h.le
    have hentry : direntSize = 16 := rfl
    rw [length_append, hentry] at hle
    omega
  have hscan := scan_first .dirlookupRead (s := s) (e := e)
    (p := fun de => direntInum de ≠ 0 ∧ namecmp name (direntName de))
    (by simp [direntInum_dirent hinum.2, direntName_dirent, hinum.1, hname]) post pre [] h
    (by intro d hd; simp [direntName_dirent, hnone d hd]) hfuel
  rw [nil_append, length_nil, Nat.mul_zero] at hscan
  rw [dirlookup, if_neg (not_not_intro h.type), State.scan, hscan]
  simp only [bind, Except.bind, direntInum_dirent hinum.2, higet]

end

/-- A file of the root directory is looked up by its name, on an image that was just mounted, and
all of it is read: its size, and what `readi` returns. -/
def lookupAndRead (img : Image) (name : List Byte) :
    Except Stop (Option (ℕ × Count × List Byte)) := do
  let (s, dp) ← iget (State.boot img) ROOTINO
  let s ← ilock s dp
  let (s, found) ← dirlookup s dp name
  match found with
  | none => .ok none
  | some (ip, _) =>
    let s ← iunlock s dp
    let s ← ilock s ip
    let size := (s.icache ip).din.size
    let (_, count, bytes) ← s.readi ip 0 size
    .ok (some (size, count, bytes))

/-- An inode that is not in memory is read from the disk. -/
theorem ilock_new {s : State} {ip : Ip} (href : (s.icache ip).ref = 1)
    (hlocked : (s.icache ip).locked = false) (hvalid : (s.icache ip).valid = false)
    (hinum : (s.icache ip).inum = i) (htype : (s.img.dinode i).type ≠ 0) :
    ilock s ip = .ok (s.set ip { s.icache ip with
      locked := true, valid := true, din := s.img.dinode i }) := by
  have hlt : (s.icache ip).inum < NINODES := hinum ▸ i.isLt
  have hi : (⟨(s.icache ip).inum, hlt⟩ : Inum) = i := Fin.ext hinum
  rw [ilock]
  simp only [href, hlocked, hvalid, dif_pos hlt, hi, if_neg htype]
  rfl

theorem iunlock_locked {s : State} {ip : Ip} (href : 0 < (s.icache ip).ref)
    (hlocked : (s.icache ip).locked = true) : iunlock s ip = .ok (releasesleep s ip) := by
  apply if_neg
  rintro (hfree | hnone)
  · rw [hlocked] at hfree
    cases hfree
  · omega

theorem releasesleep_self {s : State} {ip : Ip} :
    (releasesleep s ip).icache ip = { s.icache ip with locked := false } :=
  update_self ..

theorem releasesleep_of_ne {s : State} {ip k : Ip} (h : k ≠ ip) :
    (releasesleep s ip).icache k = s.icache k :=
  State.set_icache_of_ne h

/-- All of a file is read. -/
theorem readi_all {x : Dinode} (hdev : x.type ≠ T_DEV) (hhole : NoHole img x)
    (hlt : x.size < 2 ^ 32) :
    OnDisk.readi img x 0 x.size = .ok (img, x, .bytes x.size, contents img x) := by
  have hcount : min x.size (x.size - 0) = x.size := Nat.min_self _
  have hread : OnDisk.readi img x 0 x.size = _ :=
    readi_bytes hdev (Nat.zero_le _) (by rwa [Nat.zero_add]) fun k hk => by
      rw [hcount] at hk
      rw [Nat.zero_add]
      exact hhole.blockAt_ne hk
  rwa [hcount] at hread

/-- The state in which the root directory has been locked, after mounting. -/
def rootLocked (img : Image) : State :=
  (State.boot img).set 0 ⟨ROOTINO, 1, true, true, img.dinode rootInum⟩

/-- The same, after a look at an entry of the root directory. -/
theorem iget_rootLocked {inum : ℕ} (h : inum ≠ ROOTINO) :
    iget (rootLocked img) inum
      = .ok ((rootLocked img).set 1 ⟨inum, 1, false, false, emptyDinode 0⟩, 1) := by
  have hcached : (rootLocked img).cached inum = none := by
    apply find?_eq_none.mpr
    intro ip _
    by_cases hip : ip = 0
    · subst hip
      simp [rootLocked, h.symm]
    · simp [rootLocked, State.set_icache_of_ne hip, State.boot]
  have hempty : (rootLocked img).empty = some 1 := rfl
  rw [iget, hcached]
  simp only [hempty]
  rfl

theorem ilock_boot (h : (img.dinode rootInum).type ≠ 0) :
    ilock ((State.boot img).set 0 ⟨ROOTINO, 1, false, false, emptyDinode 0⟩) 0
      = .ok (rootLocked img) := by
  rw [ilock_new (i := rootInum) rfl rfl rfl rfl h, rootLocked]
  simp only [State.set_set, State.set_icache_self, State.set_img]
  rfl

namespace Finished

variable (h : Finished files m img) {f : HostFile}

include h

theorem rootType : (img.dinode rootInum).type = T_DIR := by
  rw [h.type_eq, h.built.rootType]

/-- The root directory lists the files. -/
theorem lists : Lists (rootLocked img) 0 (rootEntries files) := by
  have htype := h.built.rootOpen.type
  have hsize : direntSize * (rootEntries files).length = (m.view.dinode rootInum).size := by
    rw [length_rootEntries, h.built.rootSize]
  have hfixed : (img.dinode rootInum).size
      = ((m.view.dinode rootInum).size / BSIZE + 1) * BSIZE := by
    rw [h.dinode_root]
    rfl
  have hbound : (m.view.dinode rootInum).size ≤ 3200 := by
    have hlen := h.built.length_le
    have hentry : direntSize = 16 := rfl
    rw [h.built.rootSize, hentry]
    omega
  have hB : BSIZE = 512 := rfl
  have hentry : direntSize = 16 := rfl
  have hdin : ((rootLocked img).icache 0).din = img.dinode rootInum := rfl
  have himg : (rootLocked img).img = img := rfl
  refine ⟨rootInum.isLt, h.rootType, ?_, ?_, ?_, ?_⟩
  · rw [hdin, hsize, hfixed, hB]
    omega
  · rw [hdin, hfixed, hB, hentry]
    omega
  · intro k hk
    rw [hsize] at hk
    rw [hdin, himg, h.blockAt_eq htype]
    exact (h.built.consistent.noHole rootInum htype).blockAt_ne hk
  · rw [hdin, himg, hsize, ← h.built.rootContents, contents]
    exact slice_congr fun k _ hk => h.byteAt_eq htype (by omega)

/-- **A file** has its bytes. -/
theorem file {j : ℕ} (hj : files[j]? = some f) (hi : (i : ℕ) = j + 2) :
    (img.dinode i).type = T_FILE ∧ NoHole img (img.dinode i) ∧
      (img.dinode i).size = f.data.length ∧ contents img (img.dinode i) = f.data := by
  obtain ⟨htype, hcontents⟩ := h.built.file j f hj i hi
  have hroot : i ≠ rootInum := by
    rintro rfl
    exact absurd (Nat.succ.inj hi).symm (Nat.succ_ne_zero j)
  have hne : (m.view.dinode i).type ≠ 0 := by
    rw [htype]
    decide
  have hsame : contents img (img.dinode i) = f.data := by
    rw [← hcontents, contents, contents, h.dinode_other hroot]
    have hbyte : ∀ k < (m.view.dinode i).size,
        byteAt img (m.view.dinode i) k = byteAt m.view (m.view.dinode i) k := by
      intro k hk
      rw [← h.byteAt_eq hne hk, h.dinode_other hroot]
    exact slice_congr fun k _ hk => hbyte k (by omega)
  refine ⟨(h.type_eq i).trans htype, h.noHole_other hroot, ?_, hsame⟩
  rw [← hsame, contents, length_slice]

/-- The kernel reads a file whose name is found first where it should be. -/
theorem lookupAndRead_eq {j : ℕ} {pre post : List (ℕ × List Byte)} {name : List Byte}
    (hj : files[j]? = some f) (hentries : rootEntries files = pre ++ (j + 2, name) :: post)
    (hname : namecmp f.entryName (strncpy DIRSIZ name) = true)
    (hnone : ∀ e ∈ pre, namecmp f.entryName (strncpy DIRSIZ e.2) = false) :
    lookupAndRead img f.entryName
      = .ok (some (f.data.length, .bytes f.data.length, f.data)) := by
  have hlt : j + 2 < NINODES := by
    have hlen := h.built.length_le
    have hj' := (List.getElem?_eq_some_iff.mp hj).1
    have hN : NINODES = 200 := rfl
    omega
  obtain ⟨htype, hhole, hsize, hcontents⟩ := h.file (i := ⟨j + 2, hlt⟩) hj rfl
  have hlists := h.lists
  rw [hentries] at hlists
  have hrootType : (img.dinode rootInum).type ≠ 0 := by
    rw [h.rootType]
    decide
  have hsmall : j + 2 < 2 ^ 16 := Nat.lt_trans hlt (by decide)
  have hlookup := dirlookup_first hlists ⟨Nat.succ_ne_zero _, hsmall⟩ hname hnone
    (iget_rootLocked (Nat.succ_succ_ne_one j))
  -- the two entries of the cache, after the root directory has been unlocked
  generalize hs : (rootLocked img).set 1 ⟨j + 2, 1, false, false, emptyDinode 0⟩ = s at hlookup
  have hroot : s.icache 0 = ⟨ROOTINO, 1, true, true, img.dinode rootInum⟩ := by
    rw [← hs]
    rfl
  have hnew : s.icache 1 = ⟨j + 2, 1, false, false, emptyDinode 0⟩ := by
    rw [← hs]
    rfl
  have himg : s.img = img := by
    rw [← hs]
    rfl
  have hunlock : iunlock s 0 = .ok (releasesleep s 0) :=
    iunlock_locked (by rw [hroot]; exact Int.one_pos) (by rw [hroot])
  have hnew' : (releasesleep s 0).icache 1 = ⟨j + 2, 1, false, false, emptyDinode 0⟩ := by
    rw [releasesleep_of_ne (by decide), hnew]
  have himg' : (releasesleep s 0).img = img := himg
  have hlock : ilock (releasesleep s 0) 1 = _ :=
    ilock_new (i := ⟨j + 2, hlt⟩) (by rw [hnew']) (by rw [hnew']) (by rw [hnew']) (by rw [hnew'])
      (by rw [himg', htype]; decide)
  rw [himg', hnew'] at hlock
  generalize ht : (releasesleep s 0).set 1 ⟨j + 2, 1, true, true, img.dinode ⟨j + 2, hlt⟩⟩ = t
    at hlock
  have hfile : t.icache 1 = ⟨j + 2, 1, true, true, img.dinode ⟨j + 2, hlt⟩⟩ := by
    rw [← ht]
    exact State.set_icache_self
  have himg'' : t.img = img := by
    rw [← ht]
    exact himg'
  have hread : t.readi 1 0 f.data.length = .ok (t, .bytes f.data.length, f.data) := by
    apply State.readi_eq
    · rw [hfile]
      exact hlt
    · have hall := readi_all (by rw [htype]; decide) hhole Image.fits_dinode.size
      rw [hsize, hcontents] at hall
      rw [himg'', hfile]
      exact hall
  have hdin : (t.icache 1).din.size = f.data.length := by
    rw [hfile, hsize]
  have hget : iget (State.boot img) ROOTINO
      = .ok ((State.boot img).set 0 ⟨ROOTINO, 1, false, false, emptyDinode 0⟩, 0) := rfl
  unfold lookupAndRead
  simp only [hget, bind, Except.bind, ilock_boot hrootType, hlookup, hunlock, hlock, hdin, hread]

end Finished

/-! ### Names -/

theorem HostFile.nul_notMem_entryName (f : HostFile) : 0 ∉ f.entryName := by
  rw [HostFile.entryName]
  split
  · exact fun hmem => f.nul_notMem (mem_of_mem_tail hmem)
  · exact f.nul_notMem

/-- The entries before that of file number `j`. -/
theorem rootEntries_split {j : ℕ} {f : HostFile} (hj : files[j]? = some f) :
    ∃ pre post, rootEntries files = pre ++ (j + 2, f.entryName) :: post ∧
      ∀ e ∈ pre, e.2 = dot ∨ e.2 = dotdot ∨ ∃ k < j, ∃ g, files[k]? = some g ∧
        e.2 = g.entryName := by
  obtain ⟨hlt, hget⟩ := List.getElem?_eq_some_iff.mp hj
  have hentry : (rootEntries files)[j + 2]? = some (j + 2, f.entryName) := by
    rw [rootEntries, getElem?_cons_succ, getElem?_cons_succ, getElem?_mapIdx, hj]
    rfl
  obtain ⟨hlt', hget'⟩ := List.getElem?_eq_some_iff.mp hentry
  refine ⟨(rootEntries files).take (j + 2), (rootEntries files).drop (j + 3), ?_, ?_⟩
  · rw [← hget', getElem_cons_drop, take_append_drop]
  · intro e he
    rw [rootEntries, take_succ_cons, take_succ_cons] at he
    rcases mem_cons.mp he with rfl | he
    · exact .inl rfl
    rcases mem_cons.mp he with rfl | he
    · exact .inr (.inl rfl)
    obtain ⟨k, hk, rfl⟩ := mem_take_iff_getElem.mp he
    have hkj : k < j := Nat.lt_of_lt_of_le hk (Nat.min_le_left ..)
    refine .inr (.inr ⟨k, hkj, files[k], getElem?_eq_getElem (Nat.lt_trans hkj hlt), ?_⟩)
    rw [getElem_mapIdx]

/-- A name of at most `n` bytes agrees with another one in the first `n` only if they are equal. -/
theorem eq_of_take_eq {n : ℕ} {p q : List Byte} (hq : q.length < n) (h : p.take n = q.take n) :
    p = q := by
  have hqn : q.take n = q := take_of_length_le (Nat.le_of_lt hq)
  have hlen := congrArg length h
  rw [hqn, length_take] at hlen
  rw [← hqn, ← h, take_of_length_le (by omega)]

/-- **`mkfs` and the kernel agree**: the kernel finds each of the files by its name and reads the
bytes that it was given, if the names are different and none is `.` or `..`. -/
theorem mkfs_agrees (hnames : (files.map fun f => f.entryName.take DIRSIZ).Nodup)
    (hdots : ∀ f ∈ files, f.entryName ≠ dot ∧ f.entryName ≠ dotdot)
    (hlength : ∀ f ∈ files, f.data.length ≤ MAXFILE * BSIZE) (hcount : files.length ≤ 198)
    (hblocks : blocksUsed files ≤ FSSIZE) :
    ((∀ f ∈ files, slash ∉ f.name) → ∃ img, mkfs files = some img) ∧
      ∀ img, mkfs files = some img → ∀ f ∈ files, lookupAndRead img f.entryName
        = .ok (some (f.data.length, .bytes f.data.length, f.data)) := by
  refine ⟨fun hslash => mkfs_total ⟨hcount, hlength, hslash, hblocks⟩, ?_⟩
  intro img hmkfs f hf
  obtain ⟨m, h⟩ := mkfs_finished hmkfs
  obtain ⟨j, hj⟩ := mem_iff_getElem?.mp hf
  obtain ⟨pre, post, hentries, hpre⟩ := rootEntries_split hj
  have hnul := f.nul_notMem_entryName
  have hself : namecmp f.entryName (strncpy DIRSIZ f.entryName) = true :=
    (strncmp_strncpy DIRSIZ hnul hnul).mpr rfl
  apply h.lookupAndRead_eq hj hentries hself
  -- no entry before it has the name
  intro e he
  rw [← Bool.not_eq_true]
  rcases hpre e he with hdot | hdot | ⟨k, hkj, g, hg, hname⟩
  · rw [hdot, namecmp, strncmp_strncpy DIRSIZ hnul (by decide)]
    exact fun htake => (hdots f hf).1 (eq_of_take_eq (by decide) htake)
  · rw [hdot, namecmp, strncmp_strncpy DIRSIZ hnul (by decide)]
    exact fun htake => (hdots f hf).2 (eq_of_take_eq (by decide) htake)
  · rw [hname, namecmp, strncmp_strncpy DIRSIZ hnul g.nul_notMem_entryName]
    intro htake
    obtain ⟨hklt, rfl⟩ := List.getElem?_eq_some_iff.mp hg
    obtain ⟨hjlt, rfl⟩ := List.getElem?_eq_some_iff.mp hj
    have hjmap : j < (files.map fun f => f.entryName.take DIRSIZ).length := by
      rwa [length_map]
    have hkmap : k < (files.map fun f => f.entryName.take DIRSIZ).length := by
      rwa [length_map]
    have hsame : (files.map fun f => f.entryName.take DIRSIZ)[j]
        = (files.map fun f => f.entryName.take DIRSIZ)[k] := by
      rw [getElem_map, getElem_map, htake]
    exact absurd (hnames.getElem_inj_iff.mp hsame) (Nat.ne_of_gt hkj)

theorem mkfs_agrees_twoFiles : ∃ img, mkfs twoFiles = some img ∧
    lookupAndRead img [97] = .ok (some (1, .bytes 1, [7])) ∧
      lookupAndRead img [98] = .ok (some (0, .bytes 0, [])) := by
  have hnames : (twoFiles.map fun f => f.entryName.take DIRSIZ).Nodup := by decide
  have hagree := mkfs_agrees hnames (by decide) (by decide) (by decide) (by decide)
  obtain ⟨img, hmkfs⟩ := hagree.1 (by decide)
  have hread := hagree.2 img hmkfs
  simp only [twoFiles, forall_mem_cons] at hread
  exact ⟨img, hmkfs, hread.1, hread.2.1⟩

/-- A file that is named `_.` -/
def dotFile : HostFile := ⟨[underscore, 46], [7], by decide⟩

/-- The root directory is found in itself. -/
theorem Finished.lookupAndRead_dot (h : Finished files m img) {r : ℕ × Count × List Byte}
    (hread : lookupAndRead img dot = .ok (some r)) :
    r.1 = (direntSize * (files.length + 2) / BSIZE + 1) * BSIZE := by
  have hrootType : (img.dinode rootInum).type ≠ 0 := by
    rw [h.rootType]
    decide
  have hsize : (img.dinode rootInum).size
      = (direntSize * (files.length + 2) / BSIZE + 1) * BSIZE := by
    rw [h.dinode_root, fixedRoot, h.built.rootSize]
  have hget : iget (State.boot img) ROOTINO
      = .ok ((State.boot img).set 0 ⟨ROOTINO, 1, false, false, emptyDinode 0⟩, 0) := rfl
  have hlists : Lists (rootLocked img) 0 ([] ++ (ROOTINO, dot) :: (rootEntries files).tail) :=
    h.lists
  have hfound : iget (rootLocked img) ROOTINO
      = .ok ((rootLocked img).set 0 ⟨ROOTINO, 2, true, true, img.dinode rootInum⟩, 0) := rfl
  have hself : namecmp dot (strncpy DIRSIZ dot) = true := by decide
  have hlookup := dirlookup_first hlists ⟨by decide, by decide⟩ hself
    (fun e he => absurd he not_mem_nil) hfound
  generalize hs : (rootLocked img).set 0 ⟨ROOTINO, 2, true, true, img.dinode rootInum⟩ = s
    at hlookup
  have hroot : s.icache 0 = ⟨ROOTINO, 2, true, true, img.dinode rootInum⟩ := by
    rw [← hs]
    exact State.set_icache_self
  have hunlock : iunlock s 0 = .ok (releasesleep s 0) :=
    iunlock_locked (by rw [hroot]; exact Int.sign_eq_one_iff_pos.mp rfl) (by rw [hroot])
  have hfree : (releasesleep s 0).icache 0
      = ⟨ROOTINO, 2, false, true, img.dinode rootInum⟩ := by
    rw [releasesleep_self, hroot]
  have hlock : ilock (releasesleep s 0) 0 = .ok ((releasesleep s 0).set 0
      ⟨ROOTINO, 2, true, true, img.dinode rootInum⟩) := by
    rw [ilock, hfree]
    rfl
  unfold lookupAndRead at hread
  simp only [hget, bind, Except.bind, ilock_boot hrootType, hlookup, hunlock, hlock,
    State.set_icache_self, hsize] at hread
  split at hread
  next => cases hread
  next =>
    cases hread
    rfl

/-- **A file that is not found.** The name `.` is that of the first entry of the root directory, so
that the root directory itself is found, with its size of one block. -/
theorem mkfs_shadowed : ([dotFile].map fun f => f.entryName.take DIRSIZ).Nodup ∧
    dotFile.data.length ≤ MAXFILE * BSIZE ∧ blocksUsed [dotFile] ≤ FSSIZE ∧
      ∃ img, mkfs [dotFile] = some img ∧ lookupAndRead img dotFile.entryName
        ≠ .ok (some (dotFile.data.length, .bytes dotFile.data.length, dotFile.data)) := by
  refine ⟨by decide, by decide, by decide, ?_⟩
  have hfits : Fits [dotFile] := ⟨by decide, by decide, by decide, by decide⟩
  obtain ⟨img, hmkfs⟩ := mkfs_total hfits
  obtain ⟨m, h⟩ := mkfs_finished hmkfs
  refine ⟨img, hmkfs, fun hread => ?_⟩
  have hsize := h.lookupAndRead_dot hread
  exact absurd hsize (by decide)

end Xv6.OnDisk
