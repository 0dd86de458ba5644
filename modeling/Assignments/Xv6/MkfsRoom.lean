import Assignments.Xv6.MkfsBuilt

/-!
# When `mkfs` writes an image

`mkfs` stops when it runs out of blocks or inodes, when a file is too long, and when a name has a
slash. Otherwise it writes an image (`mkfs_total`).

How many blocks a file takes depends on its length only (`blocksFor`), as long as it has no blocks
behind its end and no indirect block that it does not need (`Tight`). An append to such a file
takes the blocks between the old length and the new one (`Mkfs.iappend_total`).
-/

namespace Xv6.OnDisk

open Framework Function

/-- The blocks of a file of `n` bytes, the indirect block among them. -/
def blocksFor (n : ℕ) : ℕ := (n + (BSIZE - 1)) / BSIZE + if NDIRECT * BSIZE < n then 1 else 0

theorem blocksFor_eq (n : ℕ) : blocksFor n = (n + 511) / 512 + if 6144 < n then 1 else 0 := rfl

theorem blocksFor_mono {n k : ℕ} (h : n ≤ k) : blocksFor n ≤ blocksFor k := by
  rw [blocksFor_eq, blocksFor_eq]
  split <;> split <;> omega

/-- More bytes in a block that is there already. -/
theorem blocksFor_inside {off n : ℕ} (hoff : off % BSIZE ≠ 0) (hfit : off % BSIZE + n ≤ BSIZE) :
    blocksFor (off + n) = blocksFor off := by
  rw [blocksFor_eq, blocksFor_eq]
  simp only [BSIZE] at hoff hfit
  split <;> split <;> omega

/-- The first bytes in a new block. -/
theorem blocksFor_next {off n : ℕ} (hoff : off % BSIZE = 0) (hn : 0 < n) (hfit : n ≤ BSIZE) :
    blocksFor (off + n) = blocksFor off + if off = NDIRECT * BSIZE then 2 else 1 := by
  have hlimit : NDIRECT * BSIZE = 6144 := rfl
  rw [blocksFor_eq, blocksFor_eq, hlimit]
  simp only [BSIZE] at hoff hfit
  split <;> split <;> split <;> omega

/-- A file of `off` bytes has the blocks that it needs, and no others. -/
structure Filled (img : Image) (x : Dinode) (off : ℕ) : Prop where
  there : ∀ bn, blockAt img x bn ≠ 0 ↔ bn * BSIZE < off
  indirect : x.indirect ≠ 0 → NDIRECT * BSIZE < off

/-- There is no indirect block, if it is not needed. -/
def Tight (x : Dinode) : Prop := x.indirect ≠ 0 → NDIRECT * BSIZE < x.size

theorem Filled.of_tight {img : Image} {x : Dinode} (hhole : NoHole img x) (hexact : Exact img x)
    (htight : Tight x) : Filled img x x.size where
  there bn := by
    refine ⟨fun hne => ?_, hhole bn⟩
    by_contra hge
    exact hne (hexact bn (Nat.le_of_not_lt hge))
  indirect := htight

/-- Bytes are put at the end of the file. -/
theorem Filled.wrote {img img' : Image} {tbl : Inum → Dinode} {i : Inum} {off : ℕ}
    {src : List Byte} {x' : Dinode} (h : Filled img (tbl i) off)
    (hw : Wrote img tbl i off src img' x')
    (hindirect : x'.indirect ≠ 0 → NDIRECT * BSIZE < off + src.length) :
    Filled img' x' (off + src.length) where
  there bn := by
    constructor
    · intro hne
      rcases hw.only bn hne with hold | ⟨k, hk, rfl⟩
      · exact Nat.lt_of_lt_of_le ((h.there bn).mp hold) (Nat.le_add_right ..)
      · exact Nat.lt_of_le_of_lt (Nat.div_mul_le_self ..) (Nat.add_lt_add_left hk off)
    · intro hlt
      by_cases hold : bn * BSIZE < off
      · have hne := (h.there bn).mpr hold
        rwa [hw.kept bn hne]
      · -- the first byte of the block is one of those written
        have hthere := hw.there (bn * BSIZE - off) (by omega)
        have hindex : (off + (bn * BSIZE - off)) / BSIZE = bn := by
          rw [Nat.add_sub_cancel' (Nat.le_of_not_lt hold), Nat.mul_div_cancel _ (by decide)]
        rwa [hindex] at hthere
  indirect := hindirect

namespace Mkfs

variable {m m' : Mkfs} {i : Inum} {p : List Byte} {tbl : Inum → Dinode} {off n : ℕ}

/-! ### The map of blocks -/

/-- What is known of a block that was mapped for the next bytes of a file. -/
def MappedFor (m : Mkfs) (off n : ℕ) (r : Mkfs × Dinode × ℕ) : Prop :=
  r.2.2 < FSSIZE ∧ r.1.freeblock + blocksFor off = m.freeblock + blocksFor (off + n) ∧
    (r.2.1.indirect ≠ 0 → NDIRECT * BSIZE < off + n)

section

variable (hf : m.Fresh) (h : Owned m.view tbl) (htype : (tbl i).type ≠ 0)
  (hfilled : Filled m.view (tbl i) off) (hn : 0 < n) (hfit : off % BSIZE + n ≤ BSIZE)
  (hroom : m.freeblock + blocksFor (off + n) ≤ FSSIZE + blocksFor off)

include hfilled in
/-- The next byte goes to a block that is there iff it is not the first of a block. -/
theorem there_iff : blockAt m.view (tbl i) (off / BSIZE) ≠ 0 ↔ off % BSIZE ≠ 0 := by
  rw [hfilled.there]
  simp only [BSIZE]
  omega

include hn hfit hroom in
/-- One block is taken for the first bytes of a block. -/
theorem room_next (hoff : off % BSIZE = 0) (hpast : off ≠ NDIRECT * BSIZE) :
    m.freeblock < FSSIZE ∧ m.freeblock + 1 + blocksFor off = m.freeblock + blocksFor (off + n) := by
  have hcount := blocksFor_next hoff hn (Nat.le_trans (Nat.le_add_left ..) hfit)
  rw [if_neg hpast] at hcount
  omega

include h htype hfilled hn hfit hroom

theorem bmap_direct (hdirect : off / BSIZE < NDIRECT) :
    ∃ r, m.bmap (tbl i) (off / BSIZE) = some r ∧ m.MappedFor off n r := by
  have hlimit : NDIRECT * BSIZE = 6144 := rfl
  have hlow : off < 6144 := by
    simp only [BSIZE, NDIRECT] at hdirect
    omega
  have hindirect : (tbl i).indirect ≠ 0 → NDIRECT * BSIZE < off + n := fun hne =>
    Nat.lt_of_lt_of_le (hfilled.indirect hne) (Nat.le_add_right ..)
  have hthere := there_iff hfilled
  rw [blockAt_direct hdirect] at hthere
  rw [bmap, dif_pos hdirect]
  by_cases haddr : (tbl i).addrs ⟨off / BSIZE, hdirect⟩ = 0
  · have hoff : off % BSIZE = 0 := not_not.mp fun hne => hthere.mpr hne haddr
    obtain ⟨hlt, hblocks⟩ := room_next hn hfit hroom hoff (by omega)
    rw [if_pos haddr]
    exact ⟨_, rfl, hlt, hblocks, hindirect⟩
  · have hdata : IsData ((tbl i).addrs ⟨off / BSIZE, hdirect⟩) :=
      h.isData (s := .direct ⟨off / BSIZE, hdirect⟩) htype haddr
    rw [if_neg haddr]
    refine ⟨_, rfl, hdata.2, ?_, hindirect⟩
    rw [blocksFor_inside (hthere.mp haddr) hfit]

include hf

theorem bmap_entry (hdirect : ¬ off / BSIZE < NDIRECT) (hmax : off / BSIZE < MAXFILE) :
    ∃ r, m.bmap (tbl i) (off / BSIZE) = some r ∧ m.MappedFor off n r := by
  have hlimit : NDIRECT * BSIZE = 6144 := rfl
  have hhigh : 6144 ≤ off := by
    simp only [BSIZE, NDIRECT] at hdirect
    omega
  have hindirect : NDIRECT * BSIZE < off + n := by omega
  have hentry : off / BSIZE - NDIRECT < NINDIRECT := by
    have hsum : MAXFILE = NDIRECT + NINDIRECT := rfl
    omega
  have hthere := there_iff hfilled
  rw [blockAt_entry hdirect hentry] at hthere
  rw [bmap, dif_neg hdirect]
  by_cases hnone : (tbl i).indirect = 0
  · -- the first entry of an indirect block: both blocks are new
    have hfirst : ¬ NDIRECT * BSIZE < off := by
      intro hlt
      have hblock := (hfilled.there NDIRECT).mpr hlt
      rw [blockAt_entry (Nat.lt_irrefl _) (by decide), if_pos hnone] at hblock
      exact hblock rfl
    have hoff : off = NDIRECT * BSIZE := by omega
    have hmod : off % BSIZE = 0 := by
      rw [hoff]
      rfl
    have hcount := blocksFor_next hmod hn (Nat.le_trans (Nat.le_add_left ..) hfit)
    rw [if_pos hoff] at hcount
    have hensure : m.ensureIndirect (tbl i) = ({ m with freeblock := m.freeblock + 1 },
        { tbl i with indirect := m.freeblock }) := if_pos hnone
    have hlt : m.freeblock < FSSIZE := by omega
    have hword : m.img.word m.freeblock (off / BSIZE - NDIRECT) = 0 := by
      rw [Image.word, hf.zero _ (Nat.le_refl _) hlt]
      rfl
    simp only [hensure, if_pos hlt, if_pos hword]
    refine ⟨_, rfl, ?_, ?_, fun _ => hindirect⟩
    · show m.freeblock + 1 < FSSIZE
      omega
    · show m.freeblock + 1 + 1 + blocksFor off = m.freeblock + blocksFor (off + n)
      omega
  · have hensure : m.ensureIndirect (tbl i) = (m, tbl i) := if_neg hnone
    have hdata : IsData (tbl i).indirect := h.isData (s := .indirect) htype hnone
    have hword : m.view.word (tbl i).indirect (off / BSIZE - NDIRECT)
        = m.img.word (tbl i).indirect (off / BSIZE - NDIRECT) :=
      Image.word_congr (view_of_ne hdata.ne_bmapstart)
    rw [if_neg hnone, hword] at hthere
    simp only [hensure, if_pos hdata.2]
    have hpast : off ≠ NDIRECT * BSIZE := Nat.ne_of_gt (hfilled.indirect hnone)
    by_cases haddr : m.img.word (tbl i).indirect (off / BSIZE - NDIRECT) = 0
    · have hoff : off % BSIZE = 0 := not_not.mp fun hne => hthere.mpr hne haddr
      obtain ⟨hlt, hblocks⟩ := room_next hn hfit hroom hoff hpast
      rw [if_pos haddr]
      exact ⟨_, rfl, hlt, hblocks, fun _ => hindirect⟩
    · have hblock : IsData (m.img.word (tbl i).indirect (off / BSIZE - NDIRECT)) := by
        have hplace : addrAt m.view (tbl i) (.entry ⟨off / BSIZE - NDIRECT, hentry⟩)
            = m.img.word (tbl i).indirect (off / BSIZE - NDIRECT) := by
          rw [addrAt, if_neg hnone, hword]
        have hdata := h.isData htype (hplace ▸ haddr)
        rwa [hplace] at hdata
      rw [if_neg haddr]
      refine ⟨_, rfl, hblock.2, ?_, fun _ => hindirect⟩
      rw [blocksFor_inside (hthere.mp haddr) hfit]

/-- **A block is mapped**, if there is room for it. -/
theorem bmap_total (hmax : off / BSIZE < MAXFILE) :
    ∃ r, m.bmap (tbl i) (off / BSIZE) = some r ∧ m.MappedFor off n r := by
  by_cases hdirect : off / BSIZE < NDIRECT
  · exact bmap_direct h htype hfilled hn hfit hroom hdirect
  · exact bmap_entry hf h htype hfilled hn hfit hroom hdirect hmax

end

/-! ### Appending -/

theorem appendLoop_total : ∀ {fuel : ℕ} {m : Mkfs} {tbl : Inum → Dinode} {off : ℕ} {p : List Byte},
    m.Fresh → Owned m.view tbl → (tbl i).type ≠ 0 → Filled m.view (tbl i) off → p.length ≤ fuel →
    off + p.length ≤ MAXFILE * BSIZE →
    m.freeblock + blocksFor (off + p.length) ≤ FSSIZE + blocksFor off →
    ∃ r, m.appendLoop fuel (tbl i) off p = some r ∧
      r.1.freeblock + blocksFor off = m.freeblock + blocksFor (off + p.length) ∧
        (r.2.1.indirect ≠ 0 → NDIRECT * BSIZE < off + p.length)
  | 0, m, tbl, off, p, _, _, _, hfilled, hfuel, _, _ => by
    have hnil : p = [] := List.length_eq_zero_iff.mp (Nat.le_zero.mp hfuel)
    subst hnil
    exact ⟨_, rfl, rfl, hfilled.indirect⟩
  | fuel + 1, m, tbl, off, p, hf, h, htype, hfilled, hfuel, hmax, hroom => by
    unfold appendLoop
    split
    next hnil =>
      subst hnil
      exact ⟨_, rfl, rfl, hfilled.indirect⟩
    next hne =>
      obtain ⟨n, hcount, -, hoff, hlen, htake, hfit, hpos, hle⟩ := chunk_facts off hne
      have hindex : off / BSIZE < MAXFILE := by
        rw [Nat.div_lt_iff_lt_mul (by decide)]
        omega
      have hmono : blocksFor (off + n) ≤ blocksFor (off + p.length) :=
        blocksFor_mono (Nat.add_le_add_left hle off)
      obtain ⟨⟨m₁, din₁, x⟩, hbmap, hx, hblocks, hindirect⟩ :=
        bmap_total hf h htype hfilled hpos hfit (by omega) hindex
      dsimp only at hx hblocks hindirect
      obtain ⟨-, -, hf₂, hwrote, -⟩ := block_sim hf h htype hindex hbmap hx htake (by rwa [hlen])
      have hself : update tbl i din₁ i = din₁ := update_self ..
      have htype₁ : (update tbl i din₁ i).type ≠ 0 := by
        rw [hself, hwrote.header]
        exact htype
      have hfilled₁ : Filled (m₁.put x off (p.take n)).view (update tbl i din₁ i)
          (off + n) := by
        have hnext := hfilled.wrote hwrote (by rwa [hlen])
        rwa [hlen, ← hself] at hnext
      have hdrop : (p.drop n).length = p.length - n := List.length_drop
      have hsum : off + n + (p.length - n) = off + p.length := by omega
      have hfree : (m₁.put x off (p.take n)).freeblock = m₁.freeblock := rfl
      have hfuel' : (p.drop n).length ≤ fuel := by omega
      have hmax' : off + n + (p.drop n).length ≤ MAXFILE * BSIZE := by omega
      have hroom' : (m₁.put x off (p.take n)).freeblock + blocksFor (off + n + (p.drop n).length)
          ≤ FSSIZE + blocksFor (off + n) := by
        rw [hdrop, hsum, hfree]
        omega
      obtain ⟨r, hrest, hblocks', hindirect'⟩ :=
        appendLoop_total hf₂ hwrote.owned htype₁ hfilled₁ hfuel' hmax' hroom'
      rw [hdrop, hsum] at hblocks' hindirect'
      rw [hself] at hrest
      refine ⟨r, ?_, ?_, hindirect'⟩
      · simp only [if_pos hindex, hbmap, Option.bind_eq_bind, Option.bind_some, if_pos hx, hcount,
          hoff]
        exact hrest
      · rw [hfree] at hblocks'
        omega

/-- A file that is as small as it can be. -/
structure Small (m : Mkfs) (i : Inum) : Prop where
  exact : Exact m.view (m.view.dinode i)
  tight : Tight (m.view.dinode i)

/-- **`iappend`** appends, if there is room for it. -/
theorem iappend_total (hf : m.Fresh) (h : Consistent m.view) (hopen : m.Open i) (hsmall : m.Small i)
    (hp : p ≠ []) {size : ℕ} (hsize : (m.view.dinode i).size = size)
    (hmax : size + p.length ≤ MAXFILE * BSIZE)
    (hroom : m.freeblock + blocksFor (size + p.length) ≤ FSSIZE + blocksFor size) :
    ∃ m', m.iappend i p = some m' ∧ Grown m i p m' ∧ m'.Small i ∧
      m'.freeblock + blocksFor size = m.freeblock + blocksFor (size + p.length) := by
  subst hsize
  have hfilled := Filled.of_tight (h.noHole i hopen.type) hsmall.exact hsmall.tight
  obtain ⟨r, hloop, hblocks, hindirect⟩ :=
    appendLoop_total hf h.owned hopen.type hfilled (Nat.le_refl _) hmax hroom
  have happend : m.iappend i p = some (r.1.winode i { r.2.1 with size := r.2.2 }) := by
    have hdinode : m.rinode i = m.view.dinode i := view_dinode.symm
    rw [iappend, hdinode]
    simp only [hloop, Option.bind_eq_bind, Option.bind_some]
  have hgrown := iappend_grown hf h hopen hp happend
  obtain ⟨r', hloop', hdinode⟩ := iappend_dinode hf h hopen hp happend
  cases hloop.symm.trans hloop'
  refine ⟨_, happend, hgrown, ⟨hgrown.exact hsmall.exact, ?_⟩, hblocks⟩
  rw [hdinode]
  exact hindirect

/-- Another file is not affected. -/
theorem Grown.small_other {j : Inum} (h : Grown m i p m') (hj : j ≠ i)
    (htype : (m.view.dinode j).type ≠ 0) (hsmall : m.Small j) : m'.Small j where
  exact := h.exact_other hj htype hsmall.exact
  tight := by
    rw [h.dinode j hj]
    exact hsmall.tight

theorem appendFile_total : ∀ {fuel : ℕ} {m : Mkfs} {data : List Byte} {size : ℕ}, m.Fresh →
    Consistent m.view → m.Open i → m.Small i → (m.view.dinode i).size = size →
    data.length ≤ fuel → size + data.length ≤ MAXFILE * BSIZE →
    m.freeblock + blocksFor (size + data.length) ≤ FSSIZE + blocksFor size →
    ∃ m', m.appendFile fuel i data = some m' ∧ Grown m i data m' ∧
      m'.freeblock + blocksFor size = m.freeblock + blocksFor (size + data.length)
  | 0, m, data, size, hf, h, _, _, _, hfuel, _, _ => by
    have hnil : data = [] := List.length_eq_zero_iff.mp (Nat.le_zero.mp hfuel)
    subst hnil
    exact ⟨m, rfl, Grown.refl hf h, rfl⟩
  | fuel + 1, m, data, size, hf, h, hopen, hsmall, hsize, hfuel, hmax, hroom => by
    unfold appendFile
    split
    next hnil =>
      subst hnil
      exact ⟨m, rfl, Grown.refl hf h, rfl⟩
    next hne =>
      have hB : 0 < BSIZE := by decide
      have hpos : 0 < data.length := List.length_pos_iff.mpr hne
      have htake : (data.take BSIZE).length = min BSIZE data.length := List.length_take
      have hdrop : (data.drop BSIZE).length = data.length - BSIZE := List.length_drop
      have hsum : size + min BSIZE data.length + (data.length - BSIZE) = size + data.length := by
        omega
      have hmono : blocksFor (size + min BSIZE data.length) ≤ blocksFor (size + data.length) :=
        blocksFor_mono (by omega)
      have hnonempty : data.take BSIZE ≠ [] := by
        rw [← List.length_pos_iff, htake]
        omega
      obtain ⟨m₁, hfirst, hgrown, hsmall₁, hblocks⟩ :=
        iappend_total hf h hopen hsmall hnonempty hsize
        (by omega) (by rw [htake]; omega)
      rw [htake] at hblocks
      have hsize₁ : (m₁.view.dinode i).size = size + min BSIZE data.length := by
        rw [hgrown.size, hsize, htake]
      have hfuel' : (data.drop BSIZE).length ≤ fuel := by omega
      obtain ⟨m', hrest, hgrown', hblocks'⟩ := appendFile_total hgrown.fresh hgrown.consistent
        (hgrown.isOpen hopen) hsmall₁ hsize₁ hfuel' (by omega) (by rw [hdrop, hsum]; omega)
      rw [hdrop, hsum] at hblocks'
      have hboth := hgrown.trans hgrown'
      rw [List.take_append_drop] at hboth
      refine ⟨m', ?_, hboth, by omega⟩
      rw [hfirst]
      exact hrest

end Mkfs

/-! ### All files -/

/-- The blocks in use when the files are on the image. -/
def blocksUsed (files : List HostFile) : ℕ :=
  nmeta + blocksFor (direntSize * (files.length + 2)) +
    (files.map fun f => blocksFor f.data.length).sum

theorem blocksUsed_concat (files : List HostFile) (f : HostFile) :
    blocksUsed (files ++ [f]) = nmeta + blocksFor (direntSize * (files.length + 2) + direntSize) +
      ((files.map fun f => blocksFor f.data.length).sum + blocksFor f.data.length) := by
  rw [blocksUsed, List.length_append, List.map_append, List.sum_append]
  rfl

/-- **What fits on an image.** -/
structure Fits (files : List HostFile) : Prop where
  inodes : files.length ≤ 198
  length : ∀ f ∈ files, f.data.length ≤ MAXFILE * BSIZE
  slash : ∀ f ∈ files, slash ∉ f.name
  blocks : blocksUsed files ≤ FSSIZE

theorem Fits.init {files : List HostFile} {f : HostFile} (h : Fits (files ++ [f])) :
    Fits files where
  inodes := by
    have hlen := h.inodes
    rw [List.length_append] at hlen
    omega
  length g hg := h.length g (List.mem_append_left _ hg)
  slash g hg := h.slash g (List.mem_append_left _ hg)
  blocks := by
    have hblocks := h.blocks
    have hmono : blocksFor (direntSize * (files.length + 2)) ≤
        blocksFor (direntSize * (files.length + 2) + direntSize) :=
      blocksFor_mono (Nat.le_add_right ..)
    rw [blocksUsed_concat] at hblocks
    rw [blocksUsed]
    omega

namespace Mkfs

variable {files : List HostFile} {f : HostFile} {m m' : Mkfs} {i : Inum}

/-- The files are on the image, and they are as small as can be. -/
structure Counted (files : List HostFile) (m : Mkfs) : Prop where
  built : Built files m
  freeblock : m.freeblock = blocksUsed files
  small : m.Small rootInum

/-- A new file has no blocks. -/
theorem Allocated.small {type : BitVec 16} (h : Allocated m type m' i) : m'.Small i where
  exact bn _ := by
    rw [h.dinode_self]
    exact blockAt_empty type bn
  tight hne := by
    rw [h.dinode_self] at hne
    exact absurd rfl hne

theorem Allocated.small_other {type : BitVec 16} {j : Inum} (h : Allocated m type m' i)
    (hj : j ≠ i) (htype : (m.view.dinode j).type ≠ 0) (hsmall : m.Small j) : m'.Small j where
  exact bn hbn := by
    rw [h.blocks j hj htype]
    rw [h.dinode j hj] at hbn
    exact hsmall.exact bn hbn
  tight := by
    rw [h.dinode j hj]
    exact hsmall.tight

theorem ialloc_total (h : m.freeinode < NINODES) (type : BitVec 16) :
    ∃ m' i, m.ialloc type = some (m', i) :=
  ⟨_, _, dif_pos h⟩

/-- The root directory is far from its limit. -/
theorem rootSize_le (h : files.length + 1 ≤ 198) :
    direntSize * (files.length + 2) + direntSize ≤ MAXFILE * BSIZE := by
  have hsize : direntSize = 16 := rfl
  have hmax : MAXFILE * BSIZE = 71680 := rfl
  rw [hsize, hmax]
  omega

theorem addFile_total (h : Counted files m) (hfits : Fits (files ++ [f])) :
    ∃ m', m.addFile rootInum f = some m' ∧ Counted (files ++ [f]) m' := by
  have hmem : f ∈ files ++ [f] := List.mem_append_right _ (List.mem_singleton_self f)
  have hlen := hfits.inodes
  rw [List.length_append, List.length_singleton] at hlen
  have hused := h.freeblock
  have hblocks := hfits.blocks
  rw [blocksUsed] at hused
  rw [blocksUsed_concat] at hblocks
  have hinode : m.freeinode < NINODES := by
    have hfree := h.built.freeinode
    have hN : NINODES = 200 := rfl
    omega
  obtain ⟨m₁, i, halloc⟩ := ialloc_total hinode T_FILE
  have ha := ialloc_allocated h.built.fresh h.built.consistent halloc
  have hne : rootInum ≠ i := by
    intro heq
    have hval : ROOTINO = (i : ℕ) := congrArg Fin.val heq
    rw [ha.eq, h.built.freeinode] at hval
    exact absurd hval.symm (Nat.succ_succ_ne_one _)
  have hrootOpen : m₁.Open rootInum :=
    Open.of_type (.inl (by rw [ha.dinode _ hne, h.built.rootType]))
      (by rw [ha.freeinode]; exact Nat.lt_succ_of_lt h.built.rootOpen.lt)
  have hrootSmall := ha.small_other hne h.built.rootOpen.type h.small
  have hrootSize : (m₁.view.dinode rootInum).size = direntSize * (files.length + 2) := by
    rw [ha.dinode _ hne, h.built.rootSize]
  -- the entry in the root directory
  obtain ⟨m₂, hroot, hg, hsmall₂, hcount₂⟩ := iappend_total ha.fresh ha.consistent hrootOpen
    hrootSmall (dirent_ne_nil i f.entryName) hrootSize
    (by rw [length_dirent]; exact rootSize_le hlen)
    (by rw [length_dirent, ha.freeblock]; omega)
  rw [length_dirent, ha.freeblock] at hcount₂
  have hself : m₂.view.dinode i = { emptyDinode T_FILE with nlink := 1 } :=
    (hg.dinode i hne.symm).trans ha.dinode_self
  have hitype : (m₁.view.dinode i).type ≠ 0 := by
    rw [ha.dinode_self]
    exact (by decide : T_FILE ≠ 0)
  have hopen : m₂.Open i := Open.of_type (.inr (by rw [hself]; rfl))
    (by rw [hg.freeinode, ha.freeinode, ha.eq]; exact Nat.lt_succ_self _)
  have hsmall : m₂.Small i := hg.small_other hne.symm hitype ha.small
  have hzero : (m₂.view.dinode i).size = 0 := by
    rw [hself]
    rfl
  have hempty : blocksFor 0 = 0 := rfl
  -- the bytes of the file
  obtain ⟨m', hfile, hw, hcount⟩ := appendFile_total hg.fresh hg.consistent hopen hsmall hzero
    (Nat.le_refl _) (by rw [Nat.zero_add]; exact hfits.length f hmem)
    (by rw [Nat.zero_add]; omega)
  rw [Nat.zero_add] at hcount
  have hadd : m.addFile rootInum f = some m' := by
    rw [addFile, if_neg (hfits.slash f hmem)]
    simp only [halloc, Option.bind_eq_bind, Option.bind_some, hroot]
    exact hfile
  have hrootType₂ : (m₂.view.dinode rootInum).type ≠ 0 := (hg.isOpen hrootOpen).type
  refine ⟨m', hadd, addFile_built h.built hadd, ?_, hw.small_other hne hrootType₂ hsmall₂⟩
  rw [blocksUsed_concat]
  omega

theorem makeRoot_total : ∃ m, makeRoot = some (m, rootInum) ∧ Counted [] m := by
  obtain ⟨m₁, i, halloc⟩ := ialloc_total (m := start) (by decide) T_DIR
  have ha := ialloc_allocated start_fresh start_consistent halloc
  have hi : i = rootInum := Fin.ext ha.eq
  subst hi
  have hopen : m₁.Open rootInum := Open.of_type (.inl (by rw [ha.dinode_self]; rfl))
    (by rw [ha.freeinode]; exact Nat.lt_succ_self _)
  have hzero : (m₁.view.dinode rootInum).size = 0 := by
    rw [ha.dinode_self]
    rfl
  have hstart : m₁.freeblock = nmeta := ha.freeblock
  obtain ⟨m₂, hdot, hg, hsmall, hcount⟩ := iappend_total ha.fresh ha.consistent hopen ha.small
    (dirent_ne_nil rootInum dot) hzero (by decide) (by rw [hstart]; decide)
  have hone : (m₂.view.dinode rootInum).size = direntSize := by
    rw [hg.size, hzero, length_dirent, Nat.zero_add]
  rw [length_dirent, hstart] at hcount
  have hcounts : blocksFor 0 = 0 ∧ blocksFor (0 + direntSize) = 1 ∧ blocksFor direntSize = 1 ∧
      blocksFor (direntSize + direntSize) = 1 ∧ nmeta = 59 ∧ FSSIZE = 1000 := by decide
  obtain ⟨m₃, hdotdot, hg', hsmall', hcount'⟩ := iappend_total hg.fresh hg.consistent
    (hg.isOpen hopen) hsmall (dirent_ne_nil rootInum dotdot) hone (by decide)
    (by rw [length_dirent]; omega)
  rw [length_dirent] at hcount'
  have hroot : makeRoot = some (m₃, rootInum) := by
    have hino : ((rootInum : Inum) : ℕ) = ROOTINO := rfl
    rw [makeRoot]
    simp only [halloc, Option.bind_eq_bind, Option.bind_some, if_pos hino, hdot, hdotdot]
  refine ⟨m₃, hroot, (makeRoot_built hroot).2, ?_, hsmall'⟩
  have hused : blocksUsed [] = 60 := by decide
  omega

theorem run_total (h : Counted [] m) (hfits : Fits files) :
    ∃ m', run (addFile rootInum) m files = some m' ∧ Counted files m' := by
  induction files using List.reverseRecOn with
  | nil => exact ⟨m, rfl, h⟩
  | append_singleton files f ih =>
    obtain ⟨m₁, hrun, hcounted⟩ := ih hfits.init
    obtain ⟨m', hadd, hcounted'⟩ := addFile_total hcounted hfits
    exact ⟨m', run_concat.mpr ⟨m₁, hrun, hadd⟩, hcounted'⟩

end Mkfs

/-- **`mkfs` writes an image** of files that fit on it. -/
theorem mkfs_total {files : List HostFile} (h : Fits files) : ∃ img, mkfs files = some img := by
  obtain ⟨m₀, hroot, hcounted₀⟩ := Mkfs.makeRoot_total
  obtain ⟨m, hrun, hcounted⟩ := Mkfs.run_total hcounted₀ h
  have hlt : (m.fixRoot rootInum).freeblock < BSIZE * 8 := by
    have hle : m.freeblock ≤ FSSIZE := hcounted.built.fresh.ge
    have hsizes : FSSIZE < BSIZE * 8 := by decide
    exact Nat.lt_of_le_of_lt hle hsizes
  refine ⟨(m.fixRoot rootInum).view, ?_⟩
  rw [mkfs]
  simp only [hroot, Option.bind_eq_bind, Option.bind_some, hrun]
  exact if_pos hlt

end Xv6.OnDisk
