import Assignments.Xv6.BlockOwnership

/-!
# What a file holds

`byteAt img x k` is byte `k` of the file whose inode is `x`. The loop of `writei` stores its bytes
where they belong and leaves all other bytes alone, those of the same file and those of other files
(`Wrote`), although it may allocate blocks on the way. The loop takes one block at a time; the
relation holds for one block (`wrote_block`) and is transitive (`Wrote.append`).

`Consistent img` is what the file system keeps: the blocks are owned, and no allocated inode has a
hole. With it:

* `readi_spec` — a read returns the bytes of the file and changes nothing;
* `writei_spec` — a write changes the bytes that it is given, and the size with them;
* in both cases, and for `itrunc` and `iupdate`, the inode in memory is the one on the disk
  afterwards, and the image is consistent again (`Updated`).
-/

namespace Xv6.OnDisk

open Framework Function

variable {img img' : Image} {tbl : Inum → Dinode} {i j : Inum} {x ip' : Dinode}
  {addr bn off : ℕ} {src : List Byte}

/-- Byte `k` of the file. -/
def byteAt (img : Image) (x : Dinode) (k : ℕ) : Byte :=
  img (blockAt img x (k / BSIZE)) (k % BSIZE)

/-- The bytes of a file. -/
def contents (img : Image) (x : Dinode) : List Byte := slice (byteAt img x) 0 x.size

theorem byteAt_congr {y : Dinode} {k : ℕ}
    (hblock : blockAt img' y (k / BSIZE) = blockAt img x (k / BSIZE))
    (hdata : img' (blockAt img x (k / BSIZE)) = img (blockAt img x (k / BSIZE))) :
    byteAt img' y k = byteAt img x k := by
  rw [byteAt, byteAt, hblock, hdata]

/-! ### One block -/

section

variable (hm : Mapped img (tbl i) bn img' ip' addr)
  (howned : Owned img' (update tbl i ip')) (hi : ip'.type ≠ 0)

include hm howned hi

/-- A block that `bmap` has not just put in place holds what it held. -/
theorem Mapped.data_eq {y : Dinode} (hy : update tbl i ip' j = y) (hj : y.type ≠ 0) {c : ℕ}
    (hc : blockAt img' y c ≠ 0) (hne : blockAt img' y c ≠ addr) :
    img' (blockAt img' y c) = img (blockAt img' y c) := by
  subst hy
  have hself : update tbl i ip' i = ip' := update_self ..
  have hindirect := howned.blockAt_ne_indirect hj hc i (by rwa [hself])
  rw [hself] at hindirect
  exact hm.other _ (howned.blockAt_isData hj hc) hne hindirect.symm

/-- The other inodes do not notice a `bmap`. -/
theorem Mapped.blockAt_elsewhere (hj : j ≠ i) (htype : (tbl j).type ≠ 0) (c : ℕ) :
    blockAt img' (tbl j) c = blockAt img (tbl j) c := by
  have hself : update tbl i ip' i = ip' := update_self ..
  have hother : update tbl i ip' j = tbl j := update_of_ne hj ..
  have htypei : (update tbl i ip' i).type ≠ 0 := by rwa [hself]
  have htypej : (update tbl i ip' j).type ≠ 0 := by rwa [hother]
  apply blockAt_congr
  intro s _
  apply addrAt_congr
  intro hne
  have hplace : addrAt img' (update tbl i ip' j) .indirect = (tbl j).indirect := by
    rw [hother]
    rfl
  apply hm.other
  · rw [← hplace] at hne ⊢
    exact howned.isData htypej hne
  · -- the block that was mapped is a block of inode `i`
    have hself' : blockAt img' (update tbl i ip' i) bn = addr := by
      rw [hself]
      exact hm.blockAt_self
    have hdiff := howned.blockAt_ne_indirect htypei (hself' ▸ hm.isData.ne_zero) j htypej
    rw [hself', hother] at hdiff
    exact hdiff
  · intro heq
    have hslot := howned.slot_eq (s := .indirect) (t := .indirect) htypej htypei
      (hplace ▸ hne) (by rw [hplace, hself]; exact heq)
    exact hj hslot.1

end

/-- A block of data is overwritten: the addresses stay. -/
theorem blockAt_write (h : (tbl i).indirect ≠ addr) (sector : Sector) (c : ℕ) :
    blockAt (update img addr sector) (tbl i) c = blockAt img (tbl i) c :=
  blockAt_congr fun _ _ => addrAt_congr fun _ => update_of_ne h ..

/-! ### The loop of `writei` -/

/-- What it is to write the bytes `src` from `off` on into the file of inode `i`. -/
structure Wrote (img : Image) (tbl : Inum → Dinode) (i : Inum) (off : ℕ) (src : List Byte)
    (img' : Image) (ip' : Dinode) : Prop where
  header : ip' = { tbl i with addrs := ip'.addrs, indirect := ip'.indirect }
  owned : Owned img' (update tbl i ip')
  dinode : ∀ j, img'.dinode j = img.dinode j
  /-- The blocks stay where they are. -/
  kept : ∀ bn, blockAt img (tbl i) bn ≠ 0 → blockAt img' ip' bn = blockAt img (tbl i) bn
  /-- There are blocks for the bytes. -/
  there : ∀ k < src.length, blockAt img' ip' ((off + k) / BSIZE) ≠ 0
  /-- There are no others but those that were there. -/
  only : ∀ bn, blockAt img' ip' bn ≠ 0 →
    blockAt img (tbl i) bn ≠ 0 ∨ ∃ k < src.length, bn = (off + k) / BSIZE
  /-- If there were already, the inode does not change. -/
  same : (∀ k < src.length, blockAt img (tbl i) ((off + k) / BSIZE) ≠ 0) → ip' = tbl i
  written : ∀ k < src.length, byteAt img' ip' (off + k) = src.getD k 0
  untouched : ∀ k, blockAt img (tbl i) (k / BSIZE) ≠ 0 → k < off ∨ off + src.length ≤ k →
    byteAt img' ip' k = byteAt img (tbl i) k
  elsewhere : ∀ j ≠ i, (tbl j).type ≠ 0 → ∀ bn,
    blockAt img' (tbl j) bn = blockAt img (tbl j) bn ∧
      (blockAt img (tbl j) bn ≠ 0 → img' (blockAt img (tbl j) bn) = img (blockAt img (tbl j) bn))

theorem wrote_nil (h : Owned img tbl) : Wrote img tbl i off [] img (tbl i) where
  header := rfl
  owned := by rwa [update_eq_self]
  dinode _ := rfl
  kept _ _ := rfl
  there _ hk := absurd hk (Nat.not_lt_zero _)
  only _ hne := .inl hne
  same _ := rfl
  written _ hk := absurd hk (Nat.not_lt_zero _)
  untouched _ _ _ := rfl
  elsewhere _ _ _ _ := ⟨rfl, fun _ => rfl⟩

/-- **One iteration**: `bmap`, and the bytes go to the block that it returns. -/
theorem wrote_block (htype : (tbl i).type ≠ 0) (hm : Mapped img (tbl i) (off / BSIZE) img' ip' addr)
    (howned : Owned img' (update tbl i ip')) (hsrc : src ≠ [])
    (hfit : off % BSIZE + src.length ≤ BSIZE) :
    Wrote img tbl i off src
      (update img' addr (splice (img' addr) (off % BSIZE) src)) ip' := by
  have hpos : 0 < src.length := List.length_pos_iff.mpr hsrc
  have hB : BSIZE = 512 := rfl
  have hself : update tbl i ip' i = ip' := update_self ..
  have hi : ip'.type ≠ 0 := by
    rw [hm.header]
    exact htype
  have hdata : ∀ j, (update tbl i ip' j).type ≠ 0 →
      (update tbl i ip' j).indirect ≠ addr := by
    have hblock : blockAt img' (update tbl i ip' i) (off / BSIZE) = addr := by
      rw [hself]
      exact hm.blockAt_self
    have hne := howned.blockAt_ne_indirect (i := i) (n := off / BSIZE) (by rwa [hself])
      (hblock ▸ hm.isData.ne_zero)
    rwa [hblock] at hne
  have hdatai : ip'.indirect ≠ addr := by
    have hne := hdata i (by rwa [hself])
    rwa [hself] at hne
  generalize hsector : splice (img' addr) (off % BSIZE) src = sector
  have hblock : ∀ c, blockAt (update img' addr sector) ip' c = blockAt img' ip' c :=
    fun c => blockAt_congr fun _ _ => addrAt_congr fun _ => update_of_ne hdatai ..
  have hblockSelf : blockAt (update img' addr sector) ip' (off / BSIZE) = addr :=
    (hblock _).trans hm.blockAt_self
  have hindex : ∀ k < src.length, (off + k) / BSIZE = off / BSIZE := by
    intro k hk
    rw [hB] at hfit ⊢
    omega
  -- another block of an inode is neither the one written nor changed by `bmap`
  have hkeep : ∀ c, c ≠ off / BSIZE → blockAt img (tbl i) c ≠ 0 →
      update img' addr sector (blockAt img (tbl i) c) = img (blockAt img (tbl i) c) := by
    intro c hc hne
    have hsame := hm.blockAt_other c hc
    have hdiff : blockAt img' ip' c ≠ addr := by
      rw [← hsame] at hne
      intro heq
      have hinj := howned.blockAt_inj (i := i) (j := i) (m := c) (n := off / BSIZE)
        (by rwa [hself]) (by rwa [hself]) (by rwa [hself])
        (by rw [hself, heq, hm.blockAt_self])
      exact hc hinj.2
    rw [← hsame] at hne ⊢
    rw [update_of_ne hdiff]
    exact hm.data_eq howned hi hself hi hne hdiff
  exact
    { header := hm.header
      owned := howned.write hm.isData hdata _
      dinode := fun j => (Image.dinode_update hm.isData.bmapstart_le).trans (hm.dinode j)
      kept := fun c hne => by
        rw [hblock]
        by_cases hc : c = off / BSIZE
        · subst hc
          obtain ⟨himg, hip⟩ := hm.found hne
          rw [himg, hip]
        · exact hm.blockAt_other c hc
      there := fun k hk => by
        rw [hindex k hk, hblockSelf]
        exact hm.isData.ne_zero
      only := fun c hne => by
        rw [hblock] at hne
        by_cases hc : c = off / BSIZE
        · exact .inr ⟨0, hpos, hc⟩
        · rw [hm.blockAt_other c hc] at hne
          exact .inl hne
      same := fun hall => (hm.found (hall 0 hpos)).2
      written := fun k hk => by
        have hoff : (off + k) % BSIZE = off % BSIZE + k := by
          rw [hB] at hfit ⊢
          omega
        rw [byteAt, hindex k hk, hblockSelf, update_self, hoff, ← hsector,
          splice_of_mem hk]
      untouched := fun k hne hk => by
        by_cases hc : k / BSIZE = off / BSIZE
        · rw [hc] at hne
          obtain ⟨himg, hip⟩ := hm.found hne
          have haddr : blockAt img (tbl i) (off / BSIZE) = addr := by
            rw [← hm.blockAt_self, himg, hip]
          have hout : k % BSIZE < off % BSIZE ∨ off % BSIZE + src.length ≤ k % BSIZE := by
            rw [hB] at hc ⊢
            omega
          rw [byteAt, byteAt, hc, hblockSelf, haddr, update_self, ← hsector,
            splice_of_disjoint hout, himg]
        · exact byteAt_congr ((hblock _).trans (hm.blockAt_other _ hc)) (hkeep _ hc hne)
      elsewhere := fun j hj hjtype c => by
        have hother : update tbl i ip' j = tbl j := update_of_ne hj ..
        have hsame := hm.blockAt_elsewhere howned hi hj hjtype c
        have hdataj := hdata j (by rwa [hother])
        rw [hother] at hdataj
        refine ⟨(blockAt_write hdataj _ c).trans hsame, fun hne => ?_⟩
        rw [← hsame] at hne ⊢
        have hdiff : blockAt img' (tbl j) c ≠ addr := by
          intro heq
          have hinj := howned.blockAt_inj (i := j) (j := i) (m := c) (n := off / BSIZE)
            (by rwa [hother]) (by rwa [hself]) (by rwa [hother])
            (by rw [hself, hother, heq, hm.blockAt_self])
          exact hj hinj.1
        rw [update_of_ne hdiff]
        exact hm.data_eq howned hi hother hjtype hne hdiff }

/-- **One write after the other.** -/
theorem Wrote.append {img₁ img₂ : Image} {ip₁ ip₂ : Dinode} {off₂ : ℕ} {src₂ : List Byte}
    (h₁ : Wrote img tbl i off src img₁ ip₁) (hoff : off + src.length = off₂)
    (h₂ : Wrote img₁ (update tbl i ip₁) i off₂ src₂ img₂ ip₂) :
    Wrote img tbl i off (src ++ src₂) img₂ ip₂ := by
  subst hoff
  have hself : update tbl i ip₁ i = ip₁ := update_self ..
  have hkept : ∀ bn, blockAt img₁ ip₁ bn ≠ 0 → blockAt img₂ ip₂ bn = blockAt img₁ ip₁ bn := by
    have hkept₂ := h₂.kept
    rwa [hself] at hkept₂
  have huntouched : ∀ k, blockAt img₁ ip₁ (k / BSIZE) ≠ 0 →
      k < off + src.length ∨ off + src.length + src₂.length ≤ k →
      byteAt img₂ ip₂ k = byteAt img₁ ip₁ k := by
    have huntouched₂ := h₂.untouched
    rwa [hself] at huntouched₂
  have hlater : ∀ k < (src ++ src₂).length, src.length ≤ k →
      ∃ m < src₂.length, off + k = off + src.length + m ∧ k - src.length = m := by
    intro k hk hle
    rw [List.length_append] at hk
    exact ⟨k - src.length, by omega, by omega, rfl⟩
  exact
    { header := by
        have hheader := h₂.header
        rw [hself, h₁.header] at hheader
        exact hheader
      owned := by
        have howned := h₂.owned
        rwa [update_idem] at howned
      dinode := fun j => (h₂.dinode j).trans (h₁.dinode j)
      kept := fun bn hne => by
        have hfirst := h₁.kept bn hne
        rw [← hfirst] at hne
        exact (hkept bn hne).trans hfirst
      there := fun k hk => by
        by_cases hlt : k < src.length
        · have hne := h₁.there k hlt
          rwa [hkept _ hne]
        · obtain ⟨m, hm, heq, -⟩ := hlater k hk (Nat.le_of_not_lt hlt)
          rw [heq]
          exact h₂.there m hm
      only := fun bn hne => by
        rcases h₂.only bn hne with hold | ⟨k, hk, hbn⟩
        · rw [hself] at hold
          rcases h₁.only bn hold with hold | ⟨k, hk, hbn⟩
          · exact .inl hold
          · exact .inr ⟨k, by rw [List.length_append]; omega, hbn⟩
        · refine .inr ⟨src.length + k, by rw [List.length_append]; omega, ?_⟩
          rw [hbn, Nat.add_assoc]
      same := fun hall => by
        have hip₁ : ip₁ = tbl i := h₁.same fun k hk =>
          hall k (by rw [List.length_append]; omega)
        have hip₂ : ip₂ = ip₁ := by
          have hsame := h₂.same
          rw [hself] at hsame
          apply hsame
          intro k hk
          have hne := hall (src.length + k) (by rw [List.length_append]; omega)
          rw [← Nat.add_assoc] at hne
          rwa [h₁.kept _ hne]
        exact hip₂.trans hip₁
      written := fun k hk => by
        by_cases hlt : k < src.length
        · rw [huntouched _ (h₁.there k hlt) (.inl (Nat.add_lt_add_left hlt off)),
            h₁.written k hlt, List.getD_append _ _ _ _ hlt]
        · obtain ⟨m, hm, heq, hsub⟩ := hlater k hk (Nat.le_of_not_lt hlt)
          rw [heq, h₂.written m hm, List.getD_append_right _ _ _ _ (Nat.le_of_not_lt hlt), hsub]
      untouched := fun k hne hk => by
        rw [List.length_append] at hk
        have hkeep := h₁.kept _ hne
        rw [huntouched k (hkeep ▸ hne) (by omega)]
        exact h₁.untouched k hne (by omega)
      elsewhere := fun j hj hjtype bn => by
        have hother : update tbl i ip₁ j = tbl j := update_of_ne hj ..
        obtain ⟨hblock₁, hdata₁⟩ := h₁.elsewhere j hj hjtype bn
        obtain ⟨hblock₂, hdata₂⟩ := h₂.elsewhere j hj (by rwa [hother]) bn
        rw [hother] at hblock₂ hdata₂
        refine ⟨hblock₂.trans hblock₁, fun hne => ?_⟩
        rw [hblock₁] at hdata₂
        exact (hdata₂ hne).trans (hdata₁ hne) }

theorem writeLoop_spec : ∀ {fuel : ℕ} {img : Image} {tbl : Inum → Dinode} (off : ℕ)
    {src : List Byte}, Owned img tbl → (tbl i).type ≠ 0 → src.length ≤ fuel →
    Ensures Fine (writeLoop fuel img (tbl i) off src) fun r => Wrote img tbl i off src r.1 r.2
  | 0, img, tbl, off, src, h, _, hfuel => by
    have hnil : src = [] := List.length_eq_zero_iff.mp (Nat.le_zero.mp hfuel)
    subst hnil
    exact Ensures.ok (wrote_nil h)
  | fuel + 1, img, tbl, off, src, h, htype, hfuel => by
    unfold writeLoop
    apply Ensures.ite
    · rintro rfl
      exact Ensures.ok (wrote_nil h)
    · intro hsrc
      apply (bmap_spec h htype (off / BSIZE)).bind
      rintro ⟨img₁, ip₁, addr⟩ ⟨hm, howned⟩
      dsimp only at hm howned ⊢
      have hpos : 0 < src.length := List.length_pos_iff.mpr hsrc
      have hmod : off % BSIZE < BSIZE := Nat.mod_lt _ (by decide)
      generalize hcount : min src.length (BSIZE - off % BSIZE) = m
      have hm₀ : 0 < m := by omega
      have hlen : (src.take m).length = m := by
        rw [List.length_take]
        omega
      have htake : src.take m ≠ [] := by
        rw [← List.length_pos_iff, hlen]
        exact hm₀
      have hfirst := wrote_block htype hm howned htake (by omega)
      have hself : update tbl i ip₁ i = ip₁ := update_self ..
      have htype₁ : ip₁.type ≠ 0 := by
        rw [hm.header]
        exact htype
      have hfuel' : (src.drop m).length ≤ fuel := by
        rw [List.length_drop]
        omega
      have hrest := writeLoop_spec (off + m) hfirst.owned (by rwa [hself]) hfuel'
      rw [hself] at hrest
      apply hrest.mono
      intro r hr
      have hboth := hfirst.append (by rw [hlen]) hr
      rwa [List.take_append_drop] at hboth

/-! ### The loop of `readi` -/

theorem blockAt_direct (hdirect : bn < NDIRECT) : blockAt img x bn = x.addrs ⟨bn, hdirect⟩ := by
  simp [blockAt, slotOf, hdirect, addrAt]

theorem blockAt_entry (hdirect : ¬ bn < NDIRECT) (hentry : bn - NDIRECT < NINDIRECT) :
    blockAt img x bn = if x.indirect = 0 then 0 else img.word x.indirect (bn - NDIRECT) := by
  simp [blockAt, slotOf, hdirect, hentry, addrAt]

/-- A block that is there is found. -/
theorem bmap_found (h : blockAt img x bn ≠ 0) : bmap img x bn = .ok (img, x, blockAt img x bn) := by
  unfold bmap
  split
  next hdirect =>
    rw [blockAt_direct hdirect] at h ⊢
    exact if_neg h
  next hdirect =>
    by_cases hentry : bn - NDIRECT < NINDIRECT
    · have hind : x.indirect ≠ 0 := by
        intro hzero
        rw [blockAt_entry hdirect hentry, if_pos hzero] at h
        exact h rfl
      rw [blockAt_entry hdirect hentry, if_neg hind] at h ⊢
      simp [hentry, ensureIndirect, hind, h, bind, Except.bind]
    · simp [blockAt, slotOf, hdirect, hentry] at h

theorem readLoop_eq : ∀ {fuel off n : ℕ}, n ≤ fuel →
    (∀ k < n, blockAt img x ((off + k) / BSIZE) ≠ 0) →
    readLoop fuel img x off n = .ok (img, x, slice (byteAt img x) off n)
  | 0, off, n, hfuel, _ => by
    rw [Nat.le_zero.mp hfuel]
    rfl
  | fuel + 1, off, n, hfuel, hthere => by
    unfold readLoop
    split
    next hzero =>
      rw [hzero]
      rfl
    next hne =>
      have hB : BSIZE = 512 := rfl
      have hfirst : blockAt img x (off / BSIZE) ≠ 0 := hthere 0 (Nat.pos_of_ne_zero hne)
      generalize hcount : min n (BSIZE - off % BSIZE) = m
      have hm : 0 < m ∧ m ≤ n ∧ off % BSIZE + m ≤ BSIZE := by
        rw [hB] at hcount ⊢
        omega
      have hrest : readLoop fuel img x (off + m) (n - m)
          = .ok (img, x, slice (byteAt img x) (off + m) (n - m)) := by
        apply readLoop_eq (by omega)
        intro k hk
        have hnext := hthere (m + k) (by omega)
        rwa [← Nat.add_assoc] at hnext
      have hbytes : slice (img (blockAt img x (off / BSIZE))) (off % BSIZE) m
          = slice (byteAt img x) off m := by
        apply List.map_congr_left
        intro k hk
        have hlt : k < m := List.mem_range.mp hk
        have hdiv : (off + k) / BSIZE = off / BSIZE := by
          rw [hB] at hm ⊢
          omega
        have hmod : (off + k) % BSIZE = off % BSIZE + k := by
          rw [hB] at hm ⊢
          omega
        rw [byteAt, hdiv, hmod]
      rw [bmap_found hfirst]
      simp only [bind, Except.bind, hrest, hbytes]
      rw [← slice_add, Nat.add_sub_cancel' hm.2.1]

/-! ### Consistent images -/

/-- **What the file system keeps**: the blocks are owned by the inodes on the disk, and no allocated
inode has a hole. -/
structure Consistent (img : Image) : Prop where
  owned : Owned img img.dinode
  noHole : ∀ i, (img.dinode i).type ≠ 0 → NoHole img (img.dinode i)

/-- Inode `i` has become `ip'`, on the disk as well as in memory; the other inodes have not
changed. -/
structure Updated (img : Image) (i : Inum) (img' : Image) (ip' : Dinode) : Prop where
  consistent : Consistent img'
  dinode_self : img'.dinode i = ip'
  dinode_other : ∀ j ≠ i, img'.dinode j = img.dinode j

theorem NoHole.blockAt_ne (h : NoHole img x) {k : ℕ} (hk : k < x.size) :
    blockAt img x (k / BSIZE) ≠ 0 :=
  h _ (Nat.lt_of_le_of_lt (Nat.div_mul_le_self k BSIZE) hk)

theorem NoHole.congr {y : Dinode} (h : NoHole img x) (hsize : y.size = x.size)
    (hblock : ∀ bn, blockAt img' y bn = blockAt img x bn) : NoHole img' y := by
  intro bn hbn
  rw [hblock]
  exact h bn (hsize ▸ hbn)

/-- An inode that was read from the disk fits on it. -/
theorem Image.fits_dinode : (img.dinode i).Fits where
  size := getLE_lt
  addrs _ := getLE_lt
  indirect := getLE_lt

/-- The addresses of an allocated inode fit into `uint`s. -/
theorem Owned.fits (h : Owned img tbl) (htype : (tbl i).type ≠ 0) (hsize : (tbl i).size < 2 ^ 32) :
    (tbl i).Fits := by
  have hslot : ∀ s, addrAt img (tbl i) s < 2 ^ 32 := by
    intro s
    by_cases hs : addrAt img (tbl i) s = 0
    · rw [hs]
      exact Nat.two_pow_pos 32
    · exact (h.isData htype hs).lt
  exact ⟨hsize, fun k => hslot (.direct k), hslot .indirect⟩

/-- The addresses of an inode of the table do not change when an inode block is written. -/
theorem Owned.blockAt_setDinode (h : Owned img tbl) (htype : (tbl j).type ≠ 0) (y : Dinode)
    (c : ℕ) : blockAt (img.setDinode i y) (tbl j) c = blockAt img (tbl j) c :=
  blockAt_congr fun _ _ => addrAt_congr fun hne =>
    Image.setDinode_of_ne (h.isData (s := .indirect) htype hne).ne_IBLOCK

/-- **`iupdate`** of an inode that owns its blocks. -/
theorem updated_iupdate {img₁ : Image} (hfits : ip'.Fits)
    (howned : Owned img₁ (update img.dinode i ip'))
    (hdinode : ∀ j, img₁.dinode j = img.dinode j) (hself : ip'.type ≠ 0 → NoHole img₁ ip')
    (hother : ∀ j ≠ i, (img.dinode j).type ≠ 0 → NoHole img₁ (img.dinode j)) :
    Updated img i (iupdate img₁ i ip') ip' := by
  have htbl : (iupdate img₁ i ip').dinode = update img.dinode i ip' := by
    funext j
    rw [update_apply]
    split
    next hj => rw [hj, iupdate, Image.dinode_setDinode hfits]
    next hj => rw [iupdate, Image.dinode_setDinode_of_ne hj, hdinode]
  refine ⟨⟨htbl ▸ howned.iupdate i ip', ?_⟩, ?_, ?_⟩
  · intro j hj
    rw [htbl] at hj ⊢
    have hold : NoHole img₁ (update img.dinode i ip' j) := by
      rw [update_apply] at hj ⊢
      split
      next hji =>
        rw [if_pos hji] at hj
        exact hself hj
      next hji =>
        rw [if_neg hji] at hj
        exact hother j hji hj
    exact hold.congr rfl (howned.blockAt_setDinode hj ip')
  · rw [htbl, update_self]
  · intro j hj
    rw [htbl, update_of_ne hj]

/-- An image without files is consistent if the bitmap marks the metadata only. -/
theorem consistent_of_free (hfree : ∀ i, (img.dinode i).type = 0)
    (hbit : ∀ b < FSSIZE, img.bit b = decide (b < nmeta)) : Consistent img where
  owned :=
    { owns :=
        { mem_pool := fun p hp => absurd (if_pos (hfree p.1)) hp
          unique := fun p _ hp => absurd (if_pos (hfree p.1)) hp
          used_iff := fun b hb => by
            rw [hbit b hb.2, decide_eq_true_iff]
            refine ⟨fun hlt => absurd hb.1 (Nat.not_le_of_lt hlt), ?_⟩
            rintro ⟨p, hp⟩
            rw [refs, if_pos (hfree p.1)] at hp
            exact absurd hp.symm hb.ne_zero }
      metadata := fun b hb => by
        rw [hbit b (Nat.lt_trans hb (by decide))]
        exact decide_eq_true hb }
  noHole i hi := absurd (hfree i) hi

namespace Consistent

variable (h : Consistent img)

include h

/-- The bytes of a file do not change when an inode block is written. -/
theorem contents_iupdate (hj : (img.dinode j).type ≠ 0) (y : Dinode) :
    contents (iupdate img i y) (img.dinode j) = contents img (img.dinode j) := by
  apply slice_congr
  intro k _ hk
  have hne := (h.noHole j hj).blockAt_ne (Nat.zero_add _ ▸ hk)
  have hdata := h.owned.blockAt_isData hj hne
  exact byteAt_congr (h.owned.blockAt_setDinode hj y _) (Image.setDinode_of_ne hdata.ne_IBLOCK)

/-- A field that is no address is changed: the type stays, unless the inode owns nothing. -/
theorem setHeader {y : Dinode} (hfits : y.Fits) (htype : y.type = (img.dinode i).type)
    (hsize : y.size = (img.dinode i).size) (haddrs : y.addrs = (img.dinode i).addrs)
    (hindirect : y.indirect = (img.dinode i).indirect) : Updated img i (iupdate img i y) y := by
  have haddr : ∀ s, addrAt img y s = addrAt img (img.dinode i) s := by
    intro s
    cases s with
    | direct k => rw [addrAt, addrAt, haddrs]
    | indirect => rw [addrAt, addrAt, hindirect]
    | entry j => rw [addrAt, addrAt, hindirect]
  apply updated_iupdate hfits _ (fun _ => rfl) _ fun j _ hj => h.noHole j hj
  · exact ⟨by rw [refs_setHeader htype haddr]; exact h.owned.owns, h.owned.metadata⟩
  · intro hy
    exact (h.noHole i (htype ▸ hy)).congr hsize fun _ => blockAt_congr fun s _ => haddr s

/-- An inode with no blocks becomes another one with none. -/
theorem setEmpty {y : Dinode} (hold : ∀ s, refs img img.dinode (i, s) = 0) (hsize : y.size = 0)
    (haddrs : y.addrs = fun _ => 0) (hindirect : y.indirect = 0) :
    Updated img i (iupdate img i y) y := by
  have haddr : ∀ s, addrAt img y s = 0 := by
    intro s
    cases s with
    | direct k => rw [addrAt, haddrs]
    | indirect => exact hindirect
    | entry j => exact if_pos hindirect
  have hrefs : refs img (update img.dinode i y) = refs img img.dinode := by
    funext p
    obtain ⟨j, s⟩ := p
    by_cases hj : j = i
    · subst hj
      rw [hold, refs, update_self, haddr]
      split <;> rfl
    · simp only [refs, update_of_ne hj]
  have hpos : 0 < 2 ^ 32 := Nat.two_pow_pos 32
  apply updated_iupdate _ _ (fun _ => rfl) _ fun j _ hj => h.noHole j hj
  · exact ⟨hsize ▸ hpos, fun k => by rw [haddrs]; exact hpos, hindirect ▸ hpos⟩
  · exact ⟨hrefs ▸ h.owned.owns, h.owned.metadata⟩
  · intro _ bn hbn
    rw [hsize] at hbn
    exact absurd hbn (Nat.not_lt_zero _)

/-- `itrunc`, which cannot fail. -/
theorem itrunc (htype : (img.dinode i).type ≠ 0) :
    Ensures (fun _ => False) (itrunc img i (img.dinode i)) fun r =>
      r.2 = { img.dinode i with addrs := fun _ => 0, indirect := 0, size := 0 } ∧
        Updated img i r.1 r.2 := by
  apply (itrunc_spec h.owned htype).mono
  rintro ⟨img', ip'⟩ ⟨htrunc, howned⟩
  have htbl : img'.dinode = update img.dinode i ip' := by
    funext j
    rw [update_apply]
    split
    next hj => rw [hj, htrunc.dinode_self]
    next hj => exact htrunc.dinode_other j hj
  refine ⟨htrunc.eq, ⟨htbl ▸ howned, ?_⟩, htrunc.dinode_self, htrunc.dinode_other⟩
  intro j hj
  by_cases hji : j = i
  · subst hji
    intro bn hbn
    rw [htrunc.dinode_self, htrunc.eq] at hbn
    exact absurd hbn (Nat.not_lt_zero _)
  · rw [htrunc.dinode_other j hji] at hj ⊢
    apply (h.noHole j hj).congr rfl
    intro bn
    exact blockAt_congr fun _ _ => addrAt_congr fun hne =>
      htrunc.data _ (h.owned.isData (s := .indirect) hj hne)

end Consistent

/-! ### Reading -/

/-- A read of blocks that are there returns bytes of the file, up to its end. -/
theorem readi_bytes (hdev : x.type ≠ T_DEV) {n : ℕ} (hoff : off ≤ x.size) (hlt : off + n < 2 ^ 32)
    (hthere : ∀ k < min n (x.size - off), blockAt img x ((off + k) / BSIZE) ≠ 0) :
    readi img x off n = .ok (img, x, .bytes (min n (x.size - off)),
      slice (byteAt img x) off (min n (x.size - off))) := by
  have hguard : ¬ (x.size < off ∨ 2 ^ 32 ≤ off + n) := by omega
  have hcount : (if x.size < off + n then x.size - off else n) = min n (x.size - off) := by
    split <;> omega
  rw [readi, if_neg hdev, if_neg hguard]
  simp only [hcount]
  rw [readLoop_eq (Nat.le_refl _) hthere]
  rfl

/-- **`readi`** changes nothing; if it returns all the bytes that it is asked for, they are in the
file. -/
theorem readi_spec (h : NoHole img x) (off n : ℕ) :
    ∃ count bytes, readi img x off n = .ok (img, x, count, bytes) ∧
      (count = .bytes n → off + n ≤ x.size ∧ bytes = slice (byteAt img x) off n) := by
  by_cases hdev : x.type = T_DEV
  · exact ⟨.device, [], if_pos hdev, Count.noConfusion⟩
  by_cases hguard : x.size < off ∨ 2 ^ 32 ≤ off + n
  · exact ⟨.failed, [], (if_neg hdev).trans (if_pos hguard), Count.noConfusion⟩
  · have hread : readi img x off n = _ := readi_bytes hdev (by omega) (by omega)
      fun k hk => h.blockAt_ne (by omega)
    refine ⟨_, _, hread, fun hcount => ?_⟩
    have hmin : min n (x.size - off) = n := Count.bytes.inj hcount
    exact ⟨by omega, by rw [hmin]⟩

/-! ### Writing -/

/-- There is no block behind the end of the file. -/
def Exact (img : Image) (x : Dinode) : Prop := ∀ bn, x.size ≤ bn * BSIZE → blockAt img x bn = 0

/-- What a write of `src` at `off` means for the contents of files. -/
structure Written (img : Image) (i : Inum) (off : ℕ) (src : List Byte) (img' : Image)
    (ip' : Dinode) : Prop where
  le_size : off ≤ (img.dinode i).size
  size : ip'.size = max (img.dinode i).size (off + src.length)
  written : ∀ k < src.length, byteAt img' ip' (off + k) = src.getD k 0
  untouched : ∀ k < (img.dinode i).size, k < off ∨ off + src.length ≤ k →
    byteAt img' ip' k = byteAt img (img.dinode i) k
  elsewhere : ∀ j ≠ i, (img.dinode j).type ≠ 0 → ∀ k < (img.dinode j).size,
    byteAt img' (img'.dinode j) k = byteAt img (img.dinode j) k
  /-- No block is behind the end of the file, if none was. -/
  exact : Exact img (img.dinode i) → Exact img' ip'
  blocks : ∀ j ≠ i, (img.dinode j).type ≠ 0 → ∀ bn,
    blockAt img' (img'.dinode j) bn = blockAt img (img.dinode j) bn

variable {img₁ : Image} {ip₁ : Dinode}

section

variable (hw : Wrote img img.dinode i off src img₁ ip₁)

include hw

/-- The other files after the loop of `writei`. -/
theorem Wrote.noHole_elsewhere (h : Consistent img) (hj : j ≠ i) (htype : (img.dinode j).type ≠ 0) :
    NoHole img₁ (img.dinode j) :=
  (h.noHole j htype).congr rfl fun bn => (hw.elsewhere j hj htype bn).1

theorem Wrote.byteAt_elsewhere (h : Consistent img) (hj : j ≠ i) (htype : (img.dinode j).type ≠ 0)
    {k : ℕ} (hk : k < (img.dinode j).size) :
    byteAt img₁ (img.dinode j) k = byteAt img (img.dinode j) k := by
  obtain ⟨hblock, hdata⟩ := hw.elsewhere j hj htype (k / BSIZE)
  exact byteAt_congr hblock (hdata ((h.noHole j htype).blockAt_ne hk))

/-- The loop puts no block behind the bytes that it writes. -/
theorem Wrote.exact (h : Exact img (img.dinode i)) {y : Dinode}
    (hblock : ∀ bn, blockAt img' y bn = blockAt img₁ ip₁ bn)
    (hsize : y.size = max (img.dinode i).size (off + src.length)) : Exact img' y := by
  intro bn hbn
  by_contra hne
  rw [hblock] at hne
  rcases hw.only bn hne with hold | ⟨k, hk, rfl⟩
  · exact hold (h bn (by omega))
  · have hle := Nat.div_mul_le_self (off + k) BSIZE
    omega

variable (h : Consistent img) (htype : (img.dinode i).type ≠ 0) (hoff : off ≤ (img.dinode i).size)

include h htype hoff

/-- A write inside the file. -/
theorem Wrote.inside (hle : src = [] ∨ off + src.length ≤ (img.dinode i).size) :
    ip₁ = img.dinode i ∧ Updated img i img₁ ip₁ ∧ Written img i off src img₁ ip₁ := by
  have hhole : NoHole img (img.dinode i) := h.noHole i htype
  have hlt : ∀ k < src.length, off + k < (img.dinode i).size := by
    intro k hk
    rcases hle with rfl | hle
    · exact absurd hk (Nat.not_lt_zero k)
    · omega
  -- all blocks are there, so that nothing is allocated
  have hsame : ip₁ = img.dinode i := hw.same fun k hk => hhole.blockAt_ne (hlt k hk)
  have htbl : img₁.dinode = img.dinode := funext hw.dinode
  have howned : Owned img₁ img₁.dinode := by
    have howned := hw.owned
    rwa [hsame, update_eq_self, ← htbl] at howned
  refine ⟨hsame, ⟨⟨howned, ?_⟩, by rw [htbl, hsame], fun j _ => hw.dinode j⟩, ?_⟩
  · intro j hj
    rw [htbl] at hj ⊢
    by_cases hji : j = i
    · subst hji
      intro bn hbn
      have hne := hhole bn hbn
      rw [← hsame, hw.kept bn hne]
      exact hne
    · exact hw.noHole_elsewhere h hji hj
  · have hsize : ip₁.size = max (img.dinode i).size (off + src.length) := by
      rw [hsame]
      rcases hle with rfl | hle
      · simp [hoff]
      · omega
    exact
      { le_size := hoff
        size := hsize
        written := hw.written
        untouched := fun k hk => hw.untouched k (hhole.blockAt_ne hk)
        elsewhere := fun j hj htypej k hk => by
          rw [htbl]
          exact hw.byteAt_elsewhere h hj htypej hk
        exact := fun hexact => hw.exact hexact (fun _ => rfl) hsize
        blocks := fun j hj htypej bn => by
          rw [htbl]
          exact (hw.elsewhere j hj htypej bn).1 }

/-- A write that makes the file longer: the new size is written to the disk, and the new addresses
with it. -/
theorem Wrote.grows (hlt : off + src.length < 2 ^ 32)
    (hgrow : (img.dinode i).size < off + src.length) :
    Updated img i (iupdate img₁ i { ip₁ with size := off + src.length })
        { ip₁ with size := off + src.length } ∧
      Written img i off src (iupdate img₁ i { ip₁ with size := off + src.length })
        { ip₁ with size := off + src.length } := by
  have hhole : NoHole img (img.dinode i) := h.noHole i htype
  have htype₁ : ip₁.type ≠ 0 := by
    rw [hw.header]
    exact htype
  generalize hy : ({ ip₁ with size := off + src.length } : Dinode) = y
  have hsize : y.size = off + src.length := by rw [← hy]
  have htypey : y.type ≠ 0 := by rwa [← hy]
  have haddr : ∀ s, addrAt img₁ y s = addrAt img₁ ip₁ s := by
    intro s
    rw [← hy]
    cases s <;> rfl
  have hblock : ∀ bn, blockAt img₁ y bn = blockAt img₁ ip₁ bn := fun bn =>
    blockAt_congr fun s _ => haddr s
  have hself₁ : update img.dinode i ip₁ i = ip₁ := update_self ..
  have hself : update img.dinode i y i = y := update_self ..
  have howned : Owned img₁ (update img.dinode i y) := by
    have hrefs : refs img₁ (update (update img.dinode i ip₁) i y)
        = refs img₁ (update img.dinode i ip₁) := by
      apply refs_setHeader
      · rw [hself₁, ← hy]
      · rwa [hself₁]
    rw [update_idem] at hrefs
    exact ⟨hrefs ▸ hw.owned.owns, hw.owned.metadata⟩
  have hfits : y.Fits := by
    have hfits := howned.fits (i := i) (by rwa [hself]) (by rwa [hself, hsize])
    rwa [hself] at hfits
  have hholey : NoHole img₁ y := by
    intro bn hbn
    rw [hblock]
    by_cases hold : bn * BSIZE < (img.dinode i).size
    · have hne := hhole bn hold
      rwa [hw.kept bn hne]
    · -- a new block: one of the bytes is in it
      have hthere := hw.there (bn * BSIZE - off) (by omega)
      have hindex : (off + (bn * BSIZE - off)) / BSIZE = bn := by
        rw [Nat.add_sub_cancel' (by omega), Nat.mul_div_cancel _ (by decide)]
      rwa [hindex] at hthere
  have hupdated : Updated img i (iupdate img₁ i y) y :=
    updated_iupdate hfits howned hw.dinode (fun _ => hholey) fun j hj htypej =>
      hw.noHole_elsewhere h hj htypej
  have hmax : y.size = max (img.dinode i).size (off + src.length) := by
    rw [hsize, Nat.max_eq_right (Nat.le_of_lt hgrow)]
  have hkeep : ∀ bn, blockAt (iupdate img₁ i y) y bn = blockAt img₁ ip₁ bn := by
    intro bn
    have hkeep := howned.blockAt_setDinode (i := i) (j := i) (by rwa [hself]) y bn
    rw [hself] at hkeep
    exact hkeep.trans (hblock bn)
  -- the inode block is no block of data
  have hbyte : ∀ k, blockAt img₁ ip₁ (k / BSIZE) ≠ 0 →
      byteAt (iupdate img₁ i y) y k = byteAt img₁ ip₁ k := by
    intro k hne
    have hdata := howned.blockAt_isData (i := i) (n := k / BSIZE) (by rwa [hself])
      (by rwa [hself, hblock])
    rw [hself, hblock] at hdata
    exact byteAt_congr (hkeep _) (Image.setDinode_of_ne hdata.ne_IBLOCK)
  have hkeepj : ∀ j ≠ i, (img.dinode j).type ≠ 0 → ∀ bn,
      blockAt (iupdate img₁ i y) (img.dinode j) bn = blockAt img₁ (img.dinode j) bn := by
    intro j hj htypej bn
    have hother : update img.dinode i y j = img.dinode j := update_of_ne hj ..
    have hkeep := howned.blockAt_setDinode (i := i) (j := j) (by rwa [hother]) y bn
    rwa [hother] at hkeep
  refine ⟨hupdated, ?_⟩
  exact
    { le_size := hoff
      size := hmax
      written := fun k hk => (hbyte _ (hw.there k hk)).trans (hw.written k hk)
      untouched := fun k hk hout => by
        have hne := hhole.blockAt_ne hk
        rw [hbyte k (by rwa [hw.kept _ hne])]
        exact hw.untouched k hne hout
      elsewhere := fun j hj htypej k hk => by
        have hother : update img.dinode i y j = img.dinode j := update_of_ne hj ..
        rw [hupdated.dinode_other j hj, ← hw.byteAt_elsewhere h hj htypej hk]
        have hdata := howned.blockAt_isData (i := j) (n := k / BSIZE) (by rwa [hother])
          (by rw [hother]
              exact (hw.noHole_elsewhere h hj htypej).blockAt_ne hk)
        rw [hother] at hdata
        exact byteAt_congr (hkeepj j hj htypej _) (Image.setDinode_of_ne hdata.ne_IBLOCK)
      exact := fun hexact => hw.exact hexact hkeep hmax
      blocks := fun j hj htypej bn => by
        rw [hupdated.dinode_other j hj, hkeepj j hj htypej]
        exact (hw.elsewhere j hj htypej bn).1 }

end

/-- What `writei` makes of the file, and what it returns. It fails for a device, for an offset
beyond the end, and for a file that would get too long. -/
def WriteOutcome (img : Image) (i : Inum) (off : ℕ) (src : List Byte)
    (r : Image × Dinode × Count) : Prop :=
  r.2.2 = .bytes src.length ∧ Written img i off src r.1 r.2.1 ∨
    r.1 = img ∧ r.2.1 = img.dinode i ∧ ((img.dinode i).type = T_DEV ∨
      (img.dinode i).size < off ∨ MAXFILE * BSIZE < off + src.length)

/-- **`writei`**: the bytes are in the file, and the inode in memory is the one on the disk; or else
nothing has changed. -/
theorem writei_spec (h : Consistent img) (htype : (img.dinode i).type ≠ 0) (off : ℕ)
    (src : List Byte) :
    Ensures Fine (writei img i (img.dinode i) off src) fun r =>
      Updated img i r.1 r.2.1 ∧ r.2.1.type = (img.dinode i).type ∧
        WriteOutcome img i off src r := by
  have hunchanged : Updated img i img (img.dinode i) := ⟨h, rfl, fun _ _ => rfl⟩
  have hmax : MAXFILE * BSIZE < 2 ^ 32 := by decide
  unfold writei
  apply Ensures.ite
  · exact fun hdev => Ensures.ok ⟨hunchanged, rfl, .inr ⟨rfl, rfl, .inl hdev⟩⟩
  intro _
  apply Ensures.ite
  · intro hguard
    refine Ensures.ok ⟨hunchanged, rfl, .inr ⟨rfl, rfl, .inr ?_⟩⟩
    exact hguard.imp_right (Nat.lt_of_lt_of_le hmax)
  intro hguard
  apply Ensures.ite
  · exact fun hlong => Ensures.ok ⟨hunchanged, rfl, .inr ⟨rfl, rfl, .inr (.inr hlong)⟩⟩
  intro _
  have hoff : off ≤ (img.dinode i).size := by omega
  apply (writeLoop_spec off h.owned htype (Nat.le_refl _)).bind
  rintro ⟨img₁, ip₁⟩ hw
  dsimp only at hw ⊢
  have hsize₁ : ip₁.size = (img.dinode i).size := by rw [hw.header]
  have htype₁ : ip₁.type = (img.dinode i).type := by rw [hw.header]
  apply Ensures.ite
  · rintro ⟨-, hgrow⟩
    obtain ⟨hupdated, hwritten⟩ := hw.grows h htype hoff (by omega) (hsize₁ ▸ hgrow)
    exact Ensures.ok ⟨hupdated, htype₁, .inl ⟨rfl, hwritten⟩⟩
  · intro hstay
    have hle : src = [] ∨ off + src.length ≤ (img.dinode i).size := by
      rw [hsize₁] at hstay
      rw [← List.length_eq_zero_iff]
      omega
    obtain ⟨-, hupdated, hwritten⟩ := hw.inside h htype hoff hle
    exact Ensures.ok ⟨hupdated, htype₁, .inl ⟨rfl, hwritten⟩⟩

/-! ### Contents -/

/-- A write at the end of the file appends to it. -/
theorem Written.append (hw : Written img i (img.dinode i).size src img' ip') :
    contents img' ip' = contents img (img.dinode i) ++ src := by
  have hsize : ip'.size = (img.dinode i).size + src.length := by
    have hsize := hw.size
    omega
  have hold : slice (byteAt img' ip') 0 (img.dinode i).size
      = slice (byteAt img (img.dinode i)) 0 (img.dinode i).size :=
    slice_congr fun k _ hk => hw.untouched k (by omega) (by omega)
  have hnew : slice (byteAt img' ip') (0 + (img.dinode i).size) src.length = src := by
    apply List.ext_getElem
    · rw [length_slice]
    · intro k hk hk'
      rw [getElem_slice, Nat.zero_add, hw.written k hk', List.getD_eq_getElem _ _ hk']
  rw [contents, hsize, slice_add, hold, hnew, contents]

/-- Other files are not changed. -/
theorem Written.contents_elsewhere (hw : Written img i off src img' ip')
    (hdinode : img'.dinode j = img.dinode j) (hj : j ≠ i) (htype : (img.dinode j).type ≠ 0) :
    contents img' (img'.dinode j) = contents img (img.dinode j) := by
  have hsize : (img'.dinode j).size = (img.dinode j).size := by rw [hdinode]
  rw [contents, hsize]
  exact slice_congr fun k _ hk => hw.elsewhere j hj htype k (by omega)

end Xv6.OnDisk
