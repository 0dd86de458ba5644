import Assignments.Xv6.DiskInode

/-!
# Who owns which block

The routines of `DiskInode` keep `Owned`: no block is in two places, and the bitmap marks the
blocks that are in one. A new block is marked first and put in its place afterwards, and `itrunc`
clears the marks of the blocks in an indirect block before that block is given up itself; in
between the places are compared with what they are going to be.

* `balloc_spec`, `Owned.link` — a new block was free and is zeroed, and may be put in an empty slot;
* `bmap_spec` — what `bmap` does to the inode and the disk (`Mapped`);
* `itrunc_spec` — all blocks of an inode are given back, and none of them was free.
-/

namespace Xv6.OnDisk

open Framework Function

variable {img img' : Image} {tbl : Inum → Dinode} {i j : Inum} {b c : ℕ} {x : Dinode} {s : Slot}
  {bn : ℕ} {k : Fin NINDIRECT}

theorem nmeta_eq : nmeta = 59 := rfl

theorem bmapstart_eq : bmapstart = 58 := rfl

theorem not_isData_zero : ¬ IsData 0 := by decide

theorem IsData.ne_bmapstart (h : IsData b) : b ≠ bmapstart := by
  have hle : 59 ≤ b := h.1
  rw [bmapstart_eq]
  omega

theorem IsData.ne_zero (h : IsData b) : b ≠ 0 := by
  rintro rfl
  exact not_isData_zero h

/-- An address on the disk fits into a `uint`. -/
theorem IsData.lt (h : IsData b) : b < 2 ^ 32 := by
  have hlt : b < 1000 := h.2
  omega

/-! ### A new block -/

/-- What `balloc` does: a free data block is marked and zeroed. -/
structure Allocated (img img' : Image) (b : ℕ) : Prop where
  isData : IsData b
  free : img.bit b = false
  eq : img' = update (img.setBit b true) b fun _ => 0

/-- **A block returned by `balloc` was free, and is zero-filled.** -/
theorem balloc_spec (h : ∀ b < nmeta, img.bit b = true) :
    Ensures (· = .ballocOutOfBlocks) (balloc img) fun r => Allocated img r.1 r.2 := by
  unfold balloc
  split
  next b hfind =>
    have hfree : img.bit b = false := by simpa using List.find?_some hfind
    have hlt : b < FSSIZE := List.mem_range.mp (List.mem_of_find?_eq_some hfind)
    refine Ensures.ok ⟨⟨?_, hlt⟩, hfree, rfl⟩
    by_contra hmeta
    have hused := h b (Nat.lt_of_not_le hmeta)
    rw [hfree] at hused
    cases hused
  next => exact Ensures.error rfl

namespace Allocated

variable (ha : Allocated img img' b)

include ha

theorem zero : img' b = fun _ => 0 := by
  rw [ha.eq, update_self]

/-- Only the new block and the bitmap have changed. -/
theorem other (hc : c ≠ b) (hmap : c ≠ bmapstart) : img' c = img c := by
  rw [ha.eq, update_of_ne hc, Image.setBit_of_ne ha.isData.2 hmap]

theorem bit (hc : c < FSSIZE) : img'.bit c = update img.bit b true c := by
  rw [ha.eq, Image.bit_update hc ha.isData.ne_bmapstart, update_apply]
  split
  next hcb => rw [hcb, Image.bit_setBit]
  next hcb => exact Image.bit_setBit_of_ne hcb

theorem dinode : img'.dinode j = img.dinode j := by
  have hle : bmapstart ≤ b := by
    have hdata : nmeta ≤ b := ha.isData.1
    rw [nmeta_eq] at hdata
    rw [bmapstart_eq]
    omega
  rw [ha.eq, Image.dinode_update hle, Image.dinode_setBit ha.isData.2]

end Allocated

/-! ### The slots -/

theorem addrAt_congr (h : x.indirect ≠ 0 → img' x.indirect = img x.indirect) :
    addrAt img' x s = addrAt img x s := by
  cases s with
  | direct k => rfl
  | indirect => rfl
  | entry j =>
    simp only [addrAt]
    split
    next => rfl
    next hne => exact Image.word_congr (h hne)

theorem refs_of_type (h : (tbl i).type ≠ 0) : refs img tbl (i, s) = addrAt img (tbl i) s :=
  if_neg h

/-- The disk may change where no allocated inode has its indirect block. -/
theorem refs_congr (h : ∀ i, (tbl i).type ≠ 0 → (tbl i).indirect ≠ 0 →
    img' (tbl i).indirect = img (tbl i).indirect) : refs img' tbl = refs img tbl := by
  funext p
  unfold refs
  split
  next => rfl
  next htype => exact addrAt_congr (h p.1 htype)

section

variable (htype : (tbl i).type ≠ 0)

include htype

/-- Putting an address into `addrs`. -/
theorem refs_setDirect {k : Fin NDIRECT} :
    refs img (update tbl i { tbl i with addrs := update (tbl i).addrs k b })
      = update (refs img tbl) (i, .direct k) b := by
  funext ⟨j, s⟩
  simp only [refs, update_apply, Prod.mk.injEq]
  by_cases hj : j = i
  · subst hj
    simp only [if_true, if_neg htype, true_and]
    cases s with
    | direct k' => simp [addrAt, update_apply]
    | indirect => simp [addrAt]
    | entry j => simp [addrAt]
  · simp [hj]

/-- Giving an inode an indirect block that lists nothing. -/
theorem refs_setIndirect (hnone : (tbl i).indirect = 0) (hzero : ∀ j, img.word b j = 0) :
    refs img (update tbl i { tbl i with indirect := b })
      = update (refs img tbl) (i, .indirect) b := by
  funext ⟨j, s⟩
  simp only [refs, update_apply, Prod.mk.injEq]
  by_cases hj : j = i
  · subst hj
    simp only [if_true, if_neg htype, true_and]
    cases s with
    | direct k => simp [addrAt]
    | indirect => simp [addrAt]
    | entry j => simp [addrAt, hnone, hzero]
  · simp [hj]

/-- Taking away the indirect block of an inode. -/
theorem refs_clearIndirect :
    refs img (update tbl i { tbl i with indirect := 0 }) = fun p =>
      if p.1 = i ∧ (∀ k, p.2 ≠ .direct k) then 0 else refs img tbl p := by
  funext ⟨j, s⟩
  simp only [refs, update_apply]
  by_cases hj : j = i
  · subst hj
    cases s with
    | direct k => simp [addrAt]
    | indirect => simp [addrAt]
    | entry j => simp [addrAt]
  · simp [hj]

/-- Writing an address into the indirect block of an inode, which is that of no other. -/
theorem refs_setWord (hi : (tbl i).indirect ≠ 0)
    (hother : ∀ j ≠ i, (tbl j).type ≠ 0 → (tbl j).indirect ≠ (tbl i).indirect) (hb : b < 2 ^ 32) :
    refs (img.setWord (tbl i).indirect k b) tbl
      = update (refs img tbl) (i, .entry k) b := by
  funext ⟨j, s⟩
  simp only [refs, update_apply, Prod.mk.injEq]
  split
  next hfree =>
    have hne : j ≠ i := by
      rintro rfl
      exact htype hfree
    simp [hne]
  next hjtype =>
    by_cases hj : j = i
    · subst hj
      cases s with
      | direct k' => simp [addrAt]
      | indirect => simp [addrAt]
      | entry k' =>
        by_cases hk : k' = k
        · subst hk
          simp [addrAt, hi, Image.word_setWord hb]
        · have hval : (k' : ℕ) ≠ k := fun heq => hk (Fin.ext heq)
          simp [addrAt, hi, hk, Image.word_setWord_of_ne hval]
    · have hsame : addrAt (img.setWord (tbl i).indirect k b) (tbl j) s = addrAt img (tbl j) s :=
        addrAt_congr fun _ => Image.setWord_of_ne (hother j hj hjtype)
      simp [hj, hsame]

end

namespace Owned

variable (h : Owned img tbl)

include h

theorem isData (htype : (tbl i).type ≠ 0) (hs : addrAt img (tbl i) s ≠ 0) :
    IsData (addrAt img (tbl i) s) := by
  have hpool := h.owns.mem_pool (i, s)
  rw [refs_of_type htype] at hpool
  exact hpool hs

/-- A block is in one slot only. -/
theorem slot_eq {t : Slot} (hi : (tbl i).type ≠ 0) (hj : (tbl j).type ≠ 0)
    (hs : addrAt img (tbl i) s ≠ 0) (heq : addrAt img (tbl i) s = addrAt img (tbl j) t) :
    i = j ∧ s = t := by
  have hunique := h.owns.unique (i, s) (j, t)
  rw [refs_of_type hi, refs_of_type hj] at hunique
  exact Prod.mk.inj (hunique hs heq)

theorem addrAt_ne (htype : (tbl i).type ≠ 0) (hb : IsData b) (hfree : img.bit b = false) :
    addrAt img (tbl i) s ≠ b := by
  have hne := h.owns.ne_of_free hb hfree (i, s)
  rwa [refs_of_type htype] at hne

/-- A block that is not an indirect block may be written. -/
theorem refs_eq (hother : ∀ c, IsData c → c ≠ b → img' c = img c)
    (hb : ∀ i, (tbl i).type ≠ 0 → (tbl i).indirect ≠ 0 → (tbl i).indirect ≠ b) :
    refs img' tbl = refs img tbl := by
  apply refs_congr
  intro i htype hne
  exact hother _ (h.isData (s := .indirect) htype hne) (hb i htype hne)

/-- The slots do not notice that a block was allocated. -/
theorem refs_alloc (ha : Allocated img img' b) : refs img' tbl = refs img tbl := by
  apply h.refs_eq (b := b)
  · exact fun c hc hne => ha.other hne hc.ne_bmapstart
  · exact fun i htype _ => h.addrAt_ne (s := .indirect) htype ha.isData ha.free

/-- **A new block is put in an empty slot.** -/
theorem link {img₁ : Image} (ha : Allocated img img₁ b) {tbl' : Inum → Dinode} {p : Inum × Slot}
    (hp : refs img tbl p = 0) (hrefs : refs img' tbl' = update (refs img tbl) p b)
    (hbit : ∀ c < FSSIZE, img'.bit c = img₁.bit c) : Owned img' tbl' where
  owns := by
    rw [hrefs]
    apply (h.owns.link hp ha.isData not_isData_zero ha.free).congr fun _ => rfl
    exact fun c hc => (hbit c hc.2).trans (ha.bit hc.2)
  metadata c hc := by
    have hlt : c < FSSIZE := Nat.lt_trans hc (by decide)
    rw [hbit c hlt, ha.bit hlt, update_apply]
    split
    · rfl
    · exact h.metadata c hc

/-- A data block that holds no addresses is written. -/
theorem write (hb : IsData b) (hdata : ∀ i, (tbl i).type ≠ 0 → (tbl i).indirect ≠ b)
    (sector : Sector) :
    Owned (update img b sector) tbl where
  owns := by
    rw [h.refs_eq (fun c _ hne => update_of_ne hne ..) fun i htype _ => hdata i htype]
    exact h.owns.congr (fun _ => rfl) fun c hc => Image.bit_update hc.2 hb.ne_bmapstart
  metadata c hc := by
    rw [Image.bit_update (Nat.lt_trans hc (by decide)) hb.ne_bmapstart]
    exact h.metadata c hc

/-- The blocks in `addrs` or in an indirect block hold no addresses. -/
theorem ne_indirect (hi : (tbl i).type ≠ 0) (hs : s ≠ .indirect) (hne : addrAt img (tbl i) s ≠ 0) :
    ∀ j, (tbl j).type ≠ 0 → (tbl j).indirect ≠ addrAt img (tbl i) s := by
  intro j hj heq
  exact hs (h.slot_eq (t := .indirect) hi hj hne heq.symm).2

end Owned

/-! ### The blocks of an inode, by number -/

theorem slotOf_ne_indirect : slotOf bn ≠ some .indirect := by
  unfold slotOf
  split
  · simp
  · split <;> simp

/-- Another block has another slot. -/
theorem slotOf_inj {bn bn' : ℕ} (h : slotOf bn = some s) (h' : slotOf bn' = some s) : bn = bn' := by
  unfold slotOf at h h'
  split at h <;> split at h'
  · have heq := h.trans h'.symm
    simpa using heq
  · split at h'
    · cases h.trans h'.symm
    · cases h'
  · split at h
    · cases h.trans h'.symm
    · cases h
  · split at h <;> split at h'
    · have heq := h.trans h'.symm
      simp only [Option.some.injEq, Slot.entry.injEq, Fin.mk.injEq] at heq
      omega
    · cases h'
    · cases h
    · cases h

theorem blockAt_of_slot (h : slotOf bn = some s) : blockAt img x bn = addrAt img x s := by
  rw [blockAt, h]

/-- A block of an inode is in a slot, which is not that of the indirect block. -/
theorem exists_slot (h : blockAt img x bn ≠ 0) :
    ∃ s, slotOf bn = some s ∧ s ≠ .indirect ∧ blockAt img x bn = addrAt img x s := by
  cases hslot : slotOf bn with
  | none => simp [blockAt, hslot] at h
  | some s =>
    refine ⟨s, rfl, ?_, blockAt_of_slot hslot⟩
    rintro rfl
    exact slotOf_ne_indirect hslot

theorem blockAt_congr {y : Dinode}
    (h : ∀ s, slotOf bn = some s → addrAt img' y s = addrAt img x s) :
    blockAt img' y bn = blockAt img x bn := by
  unfold blockAt
  split
  next s hslot => exact h s hslot
  next => rfl

section

variable (h : Owned img tbl) (hi : (tbl i).type ≠ 0)

include h hi

/-- Two numbers of blocks of allocated inodes with the same address are the same. -/
theorem Owned.blockAt_inj {m n : ℕ} (hj : (tbl j).type ≠ 0) (hne : blockAt img (tbl i) m ≠ 0)
    (heq : blockAt img (tbl i) m = blockAt img (tbl j) n) : i = j ∧ m = n := by
  obtain ⟨s, hs, -, haddr⟩ := exists_slot hne
  obtain ⟨t, ht, -, haddr'⟩ := exists_slot (heq ▸ hne)
  rw [haddr, haddr'] at heq
  rw [haddr] at hne
  obtain ⟨rfl, rfl⟩ := h.slot_eq hi hj hne heq
  exact ⟨rfl, slotOf_inj hs ht⟩

theorem Owned.blockAt_isData {n : ℕ} (hne : blockAt img (tbl i) n ≠ 0) :
    IsData (blockAt img (tbl i) n) := by
  obtain ⟨s, -, -, haddr⟩ := exists_slot hne
  rw [haddr] at hne ⊢
  exact h.isData hi hne

theorem Owned.blockAt_ne_indirect {n : ℕ} (hne : blockAt img (tbl i) n ≠ 0) :
    ∀ j, (tbl j).type ≠ 0 → (tbl j).indirect ≠ blockAt img (tbl i) n := by
  obtain ⟨s, -, hs, haddr⟩ := exists_slot hne
  rw [haddr] at hne ⊢
  exact h.ne_indirect hi hs hne

end

/-! ### `bmap` -/

/-- What `bmap` of block `bn` does to an inode: block `bn` is at `addr` afterwards, and the others
are where they were. A block that was there already is found, and nothing changes; otherwise the new
block is zeroed, and besides it only the indirect block and the bitmap have changed. -/
structure Mapped (img : Image) (ip : Dinode) (bn : ℕ) (img' : Image) (ip' : Dinode) (addr : ℕ) :
    Prop where
  isData : IsData addr
  blockAt_self : blockAt img' ip' bn = addr
  blockAt_other : ∀ c ≠ bn, blockAt img' ip' c = blockAt img ip c
  header : ip' = { ip with addrs := ip'.addrs, indirect := ip'.indirect }
  found : blockAt img ip bn ≠ 0 → img' = img ∧ ip' = ip
  fresh : blockAt img ip bn = 0 → img' addr = fun _ => 0
  other : ∀ c, IsData c → c ≠ addr → c ≠ ip'.indirect → img' c = img c
  dinode : ∀ j, img'.dinode j = img.dinode j

/-- Anything but the panic of `bfree`. -/
def Fine (e : Stop) : Prop := e ≠ .freeingFreeBlock

/-- `balloc` in an image whose blocks are owned. -/
theorem balloc_fine (h : Owned img tbl) :
    Ensures Fine (balloc img) fun r => Allocated img r.1 r.2 := by
  apply (balloc_spec h.metadata).weaken
  rintro e rfl
  exact Stop.noConfusion

theorem IsData.bmapstart_le (h : IsData b) : bmapstart ≤ b := by
  have hle : 59 ≤ b := h.1
  rw [bmapstart_eq]
  omega

/-- The addresses of the inode that is worked on, after one of them was put in. -/
theorem addrAt_of_refs {t : Slot} (hx : x.type ≠ 0) (htype : (tbl i).type ≠ 0)
    (h : refs img' (update tbl i x) = update (refs img tbl) (i, t) b) (s : Slot) :
    addrAt img' x s = if s = t then b else addrAt img (tbl i) s := by
  have hself : update tbl i x i = x := update_self ..
  have hrefs : refs img' (update tbl i x) (i, s)
      = addrAt img' (update tbl i x i) s := refs_of_type (by rwa [hself])
  rw [← hself, ← hrefs, h, update_apply]
  simp only [Prod.mk.injEq, true_and, refs_of_type htype]

theorem mapped_of_found {n : ℕ} (h : Owned img tbl) (htype : (tbl i).type ≠ 0)
    (hne : blockAt img (tbl i) n ≠ 0) :
    Mapped img (tbl i) n img (tbl i) (blockAt img (tbl i) n) where
  isData := h.blockAt_isData htype hne
  blockAt_self := rfl
  blockAt_other _ _ := rfl
  header := rfl
  found _ := ⟨rfl, rfl⟩
  fresh hzero := absurd hzero hne
  other _ _ _ _ := rfl
  dinode _ := rfl

/-- A new block in `addrs`. -/
theorem bmap_direct (h : Owned img tbl) (htype : (tbl i).type ≠ 0) {k : Fin NDIRECT}
    (hnone : (tbl i).addrs k = 0) (ha : Allocated img img' b) :
    Mapped img (tbl i) k img' { tbl i with addrs := update (tbl i).addrs k b } b ∧
      Owned img'
        (update tbl i { tbl i with addrs := update (tbl i).addrs k b }) := by
  have hrefs : refs img' (update tbl i
      { tbl i with addrs := update (tbl i).addrs k b })
      = update (refs img tbl) (i, .direct k) b := by
    rw [refs_setDirect htype, h.refs_alloc ha]
  have hempty : refs img tbl (i, .direct k) = 0 := (refs_of_type htype).trans hnone
  have hslot : slotOf k = some (.direct k) := by simp [slotOf]
  have hone : addrAt img (tbl i) (.direct k) = 0 := hnone
  have haddr := addrAt_of_refs (by exact htype) htype hrefs
  refine ⟨?_, h.link ha hempty hrefs fun _ _ => rfl⟩
  exact
    { isData := ha.isData
      blockAt_self := by rw [blockAt_of_slot hslot, haddr, if_pos rfl]
      blockAt_other := fun c hc => blockAt_congr fun s hs => by
        rw [haddr, if_neg]
        rintro rfl
        exact hc (slotOf_inj hs hslot)
      header := rfl
      found := fun hne => absurd ((blockAt_of_slot hslot).trans hone) hne
      fresh := fun _ => ha.zero
      other := fun c hc hne _ => ha.other hne hc.ne_bmapstart
      dinode := fun j => ha.dinode }

/-- What `ensureIndirect` does: the inode has an indirect block afterwards, and no other address of
it has changed. -/
structure Ensured (img : Image) (ip : Dinode) (img' : Image) (ip' : Dinode) : Prop where
  indirect_ne : ip'.indirect ≠ 0
  header : ip' = { ip with indirect := ip'.indirect }
  same : ∀ s, s ≠ .indirect → addrAt img' ip' s = addrAt img ip s
  found : ip.indirect ≠ 0 → img' = img ∧ ip' = ip
  other : ∀ c, IsData c → c ≠ ip'.indirect → img' c = img c
  dinode : ∀ j, img'.dinode j = img.dinode j

theorem ensureIndirect_spec (h : Owned img tbl) (htype : (tbl i).type ≠ 0) :
    Ensures Fine (ensureIndirect img (tbl i)) fun r =>
      Ensured img (tbl i) r.1 r.2 ∧ Owned r.1 (update tbl i r.2) := by
  unfold ensureIndirect
  apply Ensures.ite
  · intro hnone
    apply (balloc_fine h).bind
    intro r ha
    apply Ensures.ok
    have hzero : ∀ j, r.1.word r.2 j = 0 := by
      intro j
      rw [ha.eq]
      exact Image.word_update_zero
    have hrefs : refs r.1 (update tbl i { tbl i with indirect := r.2 })
        = update (refs img tbl) (i, .indirect) r.2 := by
      rw [refs_setIndirect htype hnone hzero, h.refs_alloc ha]
    have hempty : refs img tbl (i, .indirect) = 0 := (refs_of_type htype).trans hnone
    refine ⟨?_, h.link ha hempty hrefs fun _ _ => rfl⟩
    exact
      { indirect_ne := ha.isData.ne_zero
        header := rfl
        same := fun s hs => (addrAt_of_refs (by exact htype) htype hrefs s).trans (if_neg hs)
        found := fun hne => absurd hnone hne
        other := fun c hc hne => ha.other hne hc.ne_bmapstart
        dinode := fun j => ha.dinode }
  · intro hne
    refine Ensures.ok ⟨⟨hne, rfl, fun _ _ => rfl, fun _ => ⟨rfl, rfl⟩, fun _ _ _ => rfl,
      fun _ => rfl⟩, ?_⟩
    rwa [update_eq_self]

/-- A new block in the indirect block. -/
theorem bmap_entry (h : Owned img tbl) (htype : (tbl i).type ≠ 0) (hind : (tbl i).indirect ≠ 0)
    (hnone : img.word (tbl i).indirect k = 0) (ha : Allocated img img' b) :
    Mapped img (tbl i) (NDIRECT + k) (img'.setWord (tbl i).indirect k b) (tbl i) b ∧
      Owned (img'.setWord (tbl i).indirect k b) tbl := by
  have hindData : IsData (tbl i).indirect := h.isData (s := .indirect) htype hind
  have hunique : ∀ j ≠ i, (tbl j).type ≠ 0 → (tbl j).indirect ≠ (tbl i).indirect := by
    intro j hne hj heq
    have hslot := h.slot_eq (s := .indirect) (t := .indirect) htype hj hind heq.symm
    exact hne hslot.1.symm
  have hrefs : refs (img'.setWord (tbl i).indirect k b) tbl
      = update (refs img tbl) (i, .entry k) b := by
    rw [refs_setWord htype hind hunique ha.isData.lt, h.refs_alloc ha]
  have hword : addrAt img (tbl i) (.entry k) = 0 := (if_neg hind).trans hnone
  have hempty : refs img tbl (i, .entry k) = 0 := (refs_of_type htype).trans hword
  have hslot : slotOf (NDIRECT + k) = some (.entry k) := by simp [slotOf]
  have hne : b ≠ (tbl i).indirect :=
    (h.addrAt_ne (s := .indirect) htype ha.isData ha.free).symm
  have haddr : ∀ s, addrAt (img'.setWord (tbl i).indirect k b) (tbl i) s
      = if s = .entry k then b else addrAt img (tbl i) s := by
    apply addrAt_of_refs htype htype
    rw [update_eq_self, hrefs]
  refine ⟨?_, h.link ha hempty hrefs fun c hc => Image.bit_update hc hindData.ne_bmapstart⟩
  exact
    { isData := ha.isData
      blockAt_self := by rw [blockAt_of_slot hslot, haddr, if_pos rfl]
      blockAt_other := fun c hc => blockAt_congr fun s hs => by
        rw [haddr, if_neg]
        rintro rfl
        exact hc (slotOf_inj hs hslot)
      header := rfl
      found := fun hfound => absurd ((blockAt_of_slot hslot).trans hword) hfound
      fresh := fun _ => (Image.setWord_of_ne hne).trans ha.zero
      other := fun c hc hcb hci => (Image.setWord_of_ne hci).trans (ha.other hcb hc.ne_bmapstart)
      dinode := fun j => (Image.dinode_update hindData.bmapstart_le).trans ha.dinode }

/-- An indirect block is made first. -/
theorem Ensured.mapped {ip ip₁ ip₂ : Dinode} {img₁ img₂ : Image} {bn addr : ℕ}
    (he : Ensured img ip img₁ ip₁) (hslot : slotOf bn = some (.entry k))
    (hm : Mapped img₁ ip₁ bn img₂ ip₂ addr) (hind : ip₂.indirect = ip₁.indirect) :
    Mapped img ip bn img₂ ip₂ addr := by
  have hblock : ∀ c, blockAt img₁ ip₁ c = blockAt img ip c := fun c =>
    blockAt_congr fun s hs => he.same s fun heq => slotOf_ne_indirect (heq ▸ hs)
  exact
    { hm with
      blockAt_other := fun c hc => (hm.blockAt_other c hc).trans (hblock c)
      header := by
        have hheader := hm.header
        rw [he.header] at hheader
        exact hheader
      found := fun hne => by
        -- the address is in the indirect block, so there is one
        have hold : ip.indirect ≠ 0 := by
          intro hzero
          rw [blockAt_of_slot hslot] at hne
          exact hne (if_pos hzero)
        obtain ⟨himg, hip⟩ := he.found hold
        obtain ⟨himg', hip'⟩ := hm.found ((hblock bn).symm ▸ hne)
        exact ⟨himg'.trans himg, hip'.trans hip⟩
      fresh := fun hzero => hm.fresh ((hblock bn).trans hzero)
      other := fun c hc hca hci =>
        (hm.other c hc hca hci).trans (he.other c hc (hind ▸ hci))
      dinode := fun j => (hm.dinode j).trans (he.dinode j) }

/-- **`bmap`** gives the inode the block it is asked for and keeps the ownership of blocks. -/
theorem bmap_spec (h : Owned img tbl) (htype : (tbl i).type ≠ 0) (bn : ℕ) :
    Ensures Fine (bmap img (tbl i) bn) fun r =>
      Mapped img (tbl i) bn r.1 r.2.1 r.2.2 ∧ Owned r.1 (update tbl i r.2.1) := by
  unfold bmap
  split
  next hdirect =>
    have hblock : blockAt img (tbl i) bn = (tbl i).addrs ⟨bn, hdirect⟩ := by
      simp [blockAt, slotOf, hdirect, addrAt]
    apply Ensures.ite
    · intro hnone
      apply (balloc_fine h).bind
      intro r ha
      exact Ensures.ok (bmap_direct h htype hnone ha)
    · intro hne
      apply Ensures.ok
      rw [← hblock] at hne ⊢
      exact ⟨mapped_of_found h htype hne, by rwa [update_eq_self]⟩
  next hdirect =>
    apply Ensures.ite
    · intro hindirect
      apply (ensureIndirect_spec h htype).bind
      rintro ⟨img₁, ip₁⟩ ⟨he, howned⟩
      dsimp only at he howned ⊢
      have hself : update tbl i ip₁ i = ip₁ := update_self ..
      have htype₁ : ip₁.type ≠ 0 := by
        rw [he.header]
        exact htype
      obtain ⟨k, hk⟩ : ∃ k : Fin NINDIRECT, bn = NDIRECT + k :=
        ⟨⟨bn - NDIRECT, hindirect⟩, by simp only; omega⟩
      have hslot : slotOf bn = some (.entry k) := by
        subst hk
        simp [slotOf]
      have hsub : bn - NDIRECT = k := by omega
      simp only [hsub]
      apply Ensures.ite
      · intro hnone
        apply (balloc_fine howned).bind
        intro r ha
        apply Ensures.ok
        have hentry := bmap_entry (i := i) howned (by rwa [hself])
          (by rw [hself]; exact he.indirect_ne)
          (by rw [hself]; exact hnone) ha
        rw [hself, ← hk] at hentry
        exact ⟨he.mapped hslot hentry.1 rfl, hentry.2⟩
      · intro hne
        apply Ensures.ok
        have hfound : blockAt img₁ ip₁ bn = img₁.word ip₁.indirect k := by
          rw [blockAt_of_slot hslot]
          exact if_neg he.indirect_ne
        have hmapped := mapped_of_found (i := i) (n := bn) howned (by rwa [hself])
          (by rwa [hself, hfound])
        rw [hself, hfound] at hmapped
        exact ⟨he.mapped hslot hmapped rfl, howned⟩
    · intro _
      exact Ensures.error Stop.noConfusion

/-! ### `itrunc` -/

/-- While `itrunc` gives blocks back, the places have `R`, and of the disk `img` only the bitmap has
changed. -/
structure Freeing (img : Image) (R : Inum × Slot → ℕ) (img' : Image) : Prop where
  owns : Owns R img'.bit IsData
  metadata : ∀ b < nmeta, img'.bit b = true
  same : ∀ c ≠ bmapstart, img' c = img c

/-- **A block that is in a place is not free.** -/
theorem Freeing.bfree {R : Inum × Slot → ℕ} {p : Inum × Slot} (h : Freeing img R img')
    (hp : R p ≠ 0) : Ensures (fun _ => False) (bfree img' (R p)) (Freeing img (update R p 0)) := by
  have hdata : IsData (R p) := h.owns.mem_pool p hp
  have hused : ¬ img'.bit (R p) = false := by simp [h.owns.marked hp]
  have hbit : ∀ c, (img'.setBit (R p) false).bit c = update img'.bit (R p) false c := by
    intro c
    rw [update_apply]
    split
    next hc => rw [hc, Image.bit_setBit]
    next hc => exact Image.bit_setBit_of_ne hc
  rw [OnDisk.bfree, if_neg hused]
  refine Ensures.ok ⟨?_, ?_, ?_⟩
  · exact (h.owns.unlink hp not_isData_zero).congr (fun _ => rfl) fun c _ => hbit c
  · intro c hc
    have hne : c ≠ R p := fun heq => Nat.not_le_of_lt hc (heq ▸ hdata.1)
    rw [Image.bit_setBit_of_ne hne]
    exact h.metadata c hc
  · intro c hc
    rw [Image.setBit_of_ne hdata.2 hc]
    exact h.same c hc

/-- The invariant of the first loop: the slots before `rest` are empty. -/
structure DirectFreed (img : Image) (tbl : Inum → Dinode) (i : Inum) (rest : List (Fin NDIRECT))
    (r : Image × Dinode) : Prop where
  freeing : Freeing img (refs img (update tbl i r.2)) r.1
  header : r.2 = { tbl i with addrs := r.2.addrs }
  empty : ∀ k, k ∉ rest → r.2.addrs k = 0

theorem DirectFreed.step {k : Fin NDIRECT} {rest : List (Fin NDIRECT)} {r : Image × Dinode}
    (htype : (tbl i).type ≠ 0) (h : DirectFreed img tbl i (k :: rest) r) :
    Ensures (fun _ => False) (freeDirect r k) (DirectFreed img tbl i rest) := by
  have hself : update tbl i r.2 i = r.2 := update_self ..
  have htype' : (update tbl i r.2 i).type ≠ 0 := by
    rw [hself, h.header]
    exact htype
  have hplace : refs img (update tbl i r.2) (i, .direct k) = r.2.addrs k := by
    rw [refs_of_type htype', hself]
    rfl
  have hrest : ∀ j, j ∉ rest → j ≠ k → r.2.addrs j = 0 := fun j hj hne =>
    h.empty j (by simp [hne, hj])
  unfold freeDirect
  apply Ensures.ite
  · intro hne
    have hfree := h.freeing.bfree (hplace ▸ hne)
    rw [hplace] at hfree
    apply hfree.bind
    intro img' hfreeing
    have hrefs : refs img (update tbl i
        { r.2 with addrs := update r.2.addrs k 0 })
        = update (refs img (update tbl i r.2)) (i, .direct k) 0 := by
      rw [← refs_setDirect htype', hself, update_idem]
    refine Ensures.ok ⟨?_, ?_, ?_⟩
    · rwa [← hrefs] at hfreeing
    · simp only
      rw [h.header]
    · intro j hj
      simp only [update_apply]
      split
      next => rfl
      next hjk => exact hrest j hj hjk
  · intro hzero
    refine Ensures.ok ⟨h.freeing, h.header, fun j hj => ?_⟩
    by_cases hjk : j = k
    · exact hjk ▸ not_not.mp hzero
    · exact hrest j hj hjk

/-- The places without the entries before `rest` of an indirect block, which itself is not
cleared. -/
def withoutEntries (R : Inum × Slot → ℕ) (i : Inum) (rest : List (Fin NINDIRECT))
    (p : Inum × Slot) : ℕ :=
  if p.1 = i ∧ ∃ j, p.2 = .entry j ∧ j ∉ rest then 0 else R p

theorem withoutEntries_all {R : Inum × Slot → ℕ} {l : List (Fin NINDIRECT)} (h : ∀ j, j ∈ l) :
    withoutEntries R i l = R := by
  funext p
  apply if_neg
  rintro ⟨-, j, -, hj⟩
  exact hj (h j)

theorem withoutEntries_cons {R : Inum × Slot → ℕ} {j : Fin NINDIRECT} {rest : List (Fin NINDIRECT)}
    (h : (j :: rest).Nodup) :
    withoutEntries R i rest = update (withoutEntries R i (j :: rest)) (i, .entry j) 0 := by
  have hj : j ∉ rest := (List.nodup_cons.mp h).1
  funext ⟨n, s⟩
  simp only [withoutEntries, update_apply, Prod.mk.injEq, List.mem_cons, not_or]
  by_cases hs : n = i ∧ s = .entry j
  · rw [if_pos hs, if_pos ⟨hs.1, j, hs.2, hj⟩]
  · rw [if_neg hs]
    congr 1
    apply propext
    constructor
    · rintro ⟨rfl, k, rfl, hk⟩
      exact ⟨rfl, k, rfl, fun heq => hs ⟨rfl, heq ▸ rfl⟩, hk⟩
    · rintro ⟨rfl, k, rfl, -, hk⟩
      exact ⟨rfl, k, rfl, hk⟩

theorem freeEntries_spec {R : Inum × Slot → ℕ} {a : ℕ} (ha : IsData a)
    (hR : ∀ j : Fin NINDIRECT, R (i, .entry j) = img.word a j) {l : List (Fin NINDIRECT)}
    (hl : l.Nodup) (h : Freeing img (withoutEntries R i l) img') :
    Ensures (fun _ => False) (l.foldlM (freeEntry a) img')
      (Freeing img (withoutEntries R i [])) := by
  have hloop : Ensures (fun _ => False) (l.foldlM (freeEntry a) img') fun img' =>
      List.Nodup ([] : List (Fin NINDIRECT)) ∧ Freeing img (withoutEntries R i []) img' := by
    apply Ensures.foldlM (fun rest img' => rest.Nodup ∧ Freeing img (withoutEntries R i rest) img')
      ⟨hl, h⟩
    rintro j rest img₁ ⟨hnodup, hfreeing⟩
    have hplace : withoutEntries R i (j :: rest) (i, .entry j) = img₁.word a j := by
      rw [Image.word_congr (hfreeing.same a ha.ne_bmapstart), ← hR]
      apply if_neg
      rintro ⟨-, k, hk, hmem⟩
      cases hk
      exact hmem List.mem_cons_self
    have hnext := withoutEntries_cons (R := R) (i := i) hnodup
    unfold freeEntry
    apply Ensures.ite
    · intro hne
      have hfree := hfreeing.bfree (hplace ▸ hne)
      rw [hplace] at hfree
      apply hfree.mono
      intro img₂ hfreeing₂
      rw [← hnext] at hfreeing₂
      exact ⟨hnodup.of_cons, hfreeing₂⟩
    · intro hzero
      refine Ensures.ok ⟨hnodup.of_cons, ?_⟩
      rwa [hnext, update_eq_self_iff.mpr (hplace.trans (not_not.mp hzero)).symm]
  exact hloop.mono fun _ hpost => hpost.2

theorem freeIndirect_spec (htype : (tbl i).type ≠ 0) (h : Freeing img (refs img tbl) img') :
    Ensures (fun _ => False) (freeIndirect img' (tbl i)) fun r =>
      r.2 = { tbl i with indirect := 0 } ∧
        Freeing img (refs img (update tbl i r.2)) r.1 := by
  unfold freeIndirect
  apply Ensures.ite
  · intro hne
    have hplace : refs img tbl (i, .indirect) = (tbl i).indirect := refs_of_type htype
    have hdata : IsData (tbl i).indirect := by
      have hpool := h.owns.mem_pool (i, .indirect)
      rw [hplace] at hpool
      exact hpool hne
    have hwords : ∀ j : Fin NINDIRECT,
        refs img tbl (i, .entry j) = img.word (tbl i).indirect j := by
      intro j
      rw [refs_of_type htype]
      exact if_neg hne
    have hstart : Freeing img (withoutEntries (refs img tbl) i (List.finRange NINDIRECT)) img' := by
      rwa [withoutEntries_all List.mem_finRange]
    apply (freeEntries_spec hdata hwords (List.nodup_finRange _) hstart).bind
    intro img₁ hfreeing
    have hlast : withoutEntries (refs img tbl) i [] (i, .indirect) = (tbl i).indirect := by
      rw [← hplace]
      apply if_neg
      rintro ⟨-, j, hj, -⟩
      cases hj
    have hfree := hfreeing.bfree (hlast ▸ hne)
    rw [hlast] at hfree
    apply hfree.bind
    intro img₂ hfreeing₂
    refine Ensures.ok ⟨rfl, ?_⟩
    have hrefs : refs img (update tbl i { tbl i with indirect := 0 })
        = update (withoutEntries (refs img tbl) i []) (i, .indirect) 0 := by
      rw [refs_clearIndirect htype]
      funext ⟨n, s⟩
      simp only [withoutEntries, update_apply, Prod.mk.injEq]
      cases s <;> by_cases hn : n = i <;> simp [hn]
    rwa [hrefs]
  · intro hzero
    have hsame : tbl i = { tbl i with indirect := 0 } := by
      rw [← not_not.mp hzero]
    exact Ensures.ok ⟨hsame, by rwa [update_eq_self]⟩

/-- What `itrunc` does: the inode has no blocks any more, in memory and on the disk, and besides it
only the bitmap has changed. -/
structure Truncated (img : Image) (i : Inum) (ip : Dinode) (img' : Image) (ip' : Dinode) :
    Prop where
  eq : ip' = { ip with addrs := fun _ => 0, indirect := 0, size := 0 }
  dinode_self : img'.dinode i = ip'
  dinode_other : ∀ j ≠ i, img'.dinode j = img.dinode j
  data : ∀ c, IsData c → img' c = img c

theorem IsData.ne_IBLOCK (h : IsData b) : b ≠ IBLOCK i :=
  Nat.ne_of_gt (Nat.lt_of_lt_of_le (IBLOCK_lt i).2 h.bmapstart_le)

/-- Writing an inode to the disk has no part in which blocks it owns. -/
theorem Owned.iupdate (h : Owned img tbl) (i : Inum) (x : Dinode) :
    Owned (iupdate img i x) tbl where
  owns := by
    have hrefs : refs (OnDisk.iupdate img i x) tbl = refs img tbl :=
      refs_congr fun j htype hne =>
        Image.setDinode_of_ne (h.isData (s := .indirect) htype hne).ne_IBLOCK
    rw [hrefs]
    exact h.owns.congr (fun _ => rfl) fun c hc => Image.bit_setDinode hc.2
  metadata c hc := by
    rw [OnDisk.iupdate, Image.bit_setDinode (Nat.lt_trans hc (by decide))]
    exact h.metadata c hc

/-- Fields of an inode that are no addresses. -/
theorem refs_setHeader {y : Dinode} (htype : y.type = (tbl i).type)
    (haddr : ∀ s, addrAt img y s = addrAt img (tbl i) s) :
    refs img (update tbl i y) = refs img tbl := by
  funext ⟨j, s⟩
  simp only [refs, update_apply]
  by_cases hj : j = i
  · subst hj
    simp only [if_true, htype, haddr]
  · simp only [if_neg hj]

/-- **`itrunc`** gives all blocks of the inode back, without a panic. -/
theorem itrunc_spec (h : Owned img tbl) (htype : (tbl i).type ≠ 0) :
    Ensures (fun _ => False) (itrunc img i (tbl i)) fun r =>
      Truncated img i (tbl i) r.1 r.2 ∧ Owned r.1 (update tbl i r.2) := by
  unfold itrunc
  have hstart : DirectFreed img tbl i (List.finRange NDIRECT) (img, tbl i) := by
    refine ⟨?_, rfl, fun k hk => absurd (List.mem_finRange k) hk⟩
    rw [update_eq_self]
    exact ⟨h.owns, h.metadata, fun _ _ => rfl⟩
  apply (Ensures.foldlM (DirectFreed img tbl i) hstart fun k rest r hr => hr.step htype).bind
  rintro ⟨img₁, ip₁⟩ ⟨hfreeing, hheader, hempty⟩
  have hself : update tbl i ip₁ i = ip₁ := update_self ..
  have haddrs : ip₁.addrs = fun _ => 0 := funext fun k => hempty k List.not_mem_nil
  dsimp only at hfreeing hheader ⊢
  have hindirect := freeIndirect_spec (i := i) (by rw [hself, hheader]; exact htype) hfreeing
  rw [hself] at hindirect
  apply hindirect.bind
  rintro ⟨img₂, ip₂⟩ ⟨hip₂, hfreeing₂⟩
  rw [update_idem] at hfreeing₂
  dsimp only at hip₂ hfreeing₂ ⊢
  apply Ensures.ok
  have heq : ({ ip₂ with size := 0 } : Dinode)
      = { tbl i with addrs := fun _ => 0, indirect := 0, size := 0 } := by
    rw [hip₂, haddrs, hheader]
  have howned₂ : Owned img₂ (update tbl i ip₂) := by
    refine ⟨?_, hfreeing₂.metadata⟩
    have hrefs : refs img₂ (update tbl i ip₂) = refs img (update tbl i ip₂) := by
      apply refs_congr
      intro j hj hne
      have hdata := hfreeing₂.owns.mem_pool (j, .indirect)
      rw [refs_of_type hj] at hdata
      exact hfreeing₂.same _ (hdata hne).ne_bmapstart
    rw [hrefs]
    exact hfreeing₂.owns
  have howned : Owned img₂ (update tbl i { ip₂ with size := 0 }) := by
    have hself₂ : update tbl i ip₂ i = ip₂ := update_self ..
    have hrefs : refs img₂ (update (update tbl i ip₂) i { ip₂ with size := 0 })
        = refs img₂ (update tbl i ip₂) := by
      apply refs_setHeader
      · rw [hself₂]
      · intro s
        rw [hself₂]
        cases s <;> rfl
    rw [update_idem] at hrefs
    exact ⟨hrefs ▸ howned₂.owns, howned₂.metadata⟩
  have hfits : Dinode.Fits { ip₂ with size := 0 } := by
    rw [heq]
    have hzero : 0 < 2 ^ 32 := Nat.two_pow_pos 32
    exact ⟨hzero, fun _ => hzero, hzero⟩
  refine ⟨⟨heq, Image.dinode_setDinode hfits, ?_, ?_⟩, howned.iupdate i _⟩
  · intro j hj
    apply (Image.dinode_setDinode_of_ne hj).trans
    exact Image.dinode_congr (hfreeing₂.same _ (Nat.ne_of_lt (IBLOCK_lt j).2))
  · intro c hc
    apply (Image.setDinode_of_ne hc.ne_IBLOCK).trans
    exact hfreeing₂.same c hc.ne_bmapstart

end Xv6.OnDisk
