import Assignments.Xv6.MkfsImage

/-!
# What `mkfs` has put on the image

The image after each part of `main` of `mkfs.c`, seen with the bitmap it would have if `mkfs` ended
then (`Mkfs.view`):

* `Mkfs.Grown m i p m'` — bytes were appended to one file, and the other files are as they were.
  `iappend` does that, and so does the loop that reads a file (`iappend_grown`, `appendFile_grown`);
* `Mkfs.Allocated m type m' i` — an empty file was made;
* `Mkfs.Built files m` — the root directory lists the files, in their order, and each of them holds
  its bytes. This is the invariant of the loop of `main` (`built_of_run`).

The size of the root directory is rounded up at the end. `Mkfs.Finished` says what is on the image
then; the blocks of the root directory are those of its size before.
-/

namespace Xv6.OnDisk

open Framework

namespace Mkfs

variable {m m₁ m' : Mkfs} {i j : Inum} {p q data : List Byte}

/-! ### Appending -/

/-- The bytes `p` were appended to inode `i`. -/
structure Grown (m : Mkfs) (i : Inum) (p : List Byte) (m' : Mkfs) : Prop where
  fresh : m'.Fresh
  freeinode : m'.freeinode = m.freeinode
  consistent : Consistent m'.view
  low : ∀ b < inodestart, m'.img b = m.img b
  type : (m'.view.dinode i).type = (m.view.dinode i).type
  contents : contents m'.view (m'.view.dinode i) = contents m.view (m.view.dinode i) ++ p
  exact : Exact m.view (m.view.dinode i) → Exact m'.view (m'.view.dinode i)
  dinode : ∀ j ≠ i, m'.view.dinode j = m.view.dinode j
  others : ∀ j ≠ i, (m.view.dinode j).type ≠ 0 →
    OnDisk.contents m'.view (m'.view.dinode j) = OnDisk.contents m.view (m.view.dinode j)
  blocks : ∀ j ≠ i, (m.view.dinode j).type ≠ 0 → ∀ bn,
    blockAt m'.view (m'.view.dinode j) bn = blockAt m.view (m.view.dinode j) bn

theorem Grown.refl (hf : m.Fresh) (h : Consistent m.view) : Grown m i [] m where
  fresh := hf
  freeinode := rfl
  consistent := h
  low _ _ := rfl
  type := rfl
  contents := (List.append_nil _).symm
  exact h := h
  dinode _ _ := rfl
  others _ _ _ := rfl
  blocks _ _ _ _ := rfl

theorem Grown.trans (h₁ : Grown m i p m₁) (h₂ : Grown m₁ i q m') : Grown m i (p ++ q) m' where
  fresh := h₂.fresh
  freeinode := h₂.freeinode.trans h₁.freeinode
  consistent := h₂.consistent
  low b hb := (h₂.low b hb).trans (h₁.low b hb)
  type := h₂.type.trans h₁.type
  contents := by rw [h₂.contents, h₁.contents, List.append_assoc]
  exact h := h₂.exact (h₁.exact h)
  dinode j hj := (h₂.dinode j hj).trans (h₁.dinode j hj)
  others j hj htype :=
    (h₂.others j hj (by rwa [h₁.dinode j hj])).trans (h₁.others j hj htype)
  blocks j hj htype bn :=
    (h₂.blocks j hj (by rwa [h₁.dinode j hj]) bn).trans (h₁.blocks j hj htype bn)

/-- No block is behind the end of another file, if none was. -/
theorem Grown.exact_other (h : Grown m i p m') (hj : j ≠ i) (htype : (m.view.dinode j).type ≠ 0)
    (hexact : Exact m.view (m.view.dinode j)) : Exact m'.view (m'.view.dinode j) := by
  intro bn hbn
  rw [h.blocks j hj htype]
  rw [h.dinode j hj] at hbn
  exact hexact bn hbn

/-- A file that can be appended to. -/
structure Open (m : Mkfs) (i : Inum) : Prop where
  type : (m.view.dinode i).type ≠ 0
  dev : (m.view.dinode i).type ≠ T_DEV
  lt : (i : ℕ) < m.freeinode

theorem Open.of_type (htype : (m.view.dinode i).type = T_DIR ∨ (m.view.dinode i).type = T_FILE)
    (hlt : (i : ℕ) < m.freeinode) : m.Open i := by
  rcases htype with htype | htype
  · exact ⟨htype ▸ (by decide : T_DIR ≠ 0), htype ▸ (by decide : T_DIR ≠ T_DEV), hlt⟩
  · exact ⟨htype ▸ (by decide : T_FILE ≠ 0), htype ▸ (by decide : T_FILE ≠ T_DEV), hlt⟩

theorem Grown.isOpen (h : Grown m i p m') (hopen : m.Open i) : m'.Open i where
  type := by
    rw [h.type]
    exact hopen.type
  dev := by
    rw [h.type]
    exact hopen.dev
  lt := by
    rw [h.freeinode]
    exact hopen.lt

/-- **`iappend`** appends. -/
theorem iappend_grown (hf : m.Fresh) (h : Consistent m.view) (hopen : m.Open i) (hp : p ≠ [])
    (happend : m.iappend i p = some m') : Grown m i p m' := by
  obtain ⟨⟨r, -, hwrite⟩, hmax, hfresh, hinodes, hlow⟩ :=
    iappend_sim hf h hopen.type hopen.dev hopen.lt hp happend
  generalize ({ r.2.1 with size := (m.view.dinode i).size + p.length } : Dinode) = din at hwrite
  obtain ⟨hupdated, htype, houtcome⟩ := (writei_spec h hopen.type _ _).of_eq_ok hwrite
  dsimp only at hupdated htype
  have hself : m'.view.dinode i = din := hupdated.dinode_self
  rcases houtcome with ⟨-, hwritten⟩ | ⟨-, -, hfail⟩
  · dsimp only at hwritten
    rw [← hself] at hwritten htype
    exact
      { hwritten with
        fresh := hfresh
        freeinode := hinodes
        consistent := hupdated.consistent
        low := hlow
        type := htype
        contents := hwritten.append
        dinode := hupdated.dinode_other
        others := fun j hj hjtype =>
          hwritten.contents_elsewhere (hupdated.dinode_other j hj) hj hjtype }
  · -- none of the reasons for which `writei` would fail
    rcases hfail with hdev | hoff | hlong
    · exact absurd hdev hopen.dev
    · exact absurd hoff (Nat.lt_irrefl _)
    · exact absurd hlong (Nat.not_lt_of_le hmax)

/-- The inode is the one that the loop of `iappend` makes. -/
theorem iappend_dinode (hf : m.Fresh) (h : Consistent m.view) (hopen : m.Open i) (hp : p ≠ [])
    (happend : m.iappend i p = some m') :
    ∃ r, m.appendLoop p.length (m.view.dinode i) (m.view.dinode i).size p = some r ∧
      m'.view.dinode i = { r.2.1 with size := (m.view.dinode i).size + p.length } := by
  obtain ⟨⟨r, hloop, hwrite⟩, -⟩ := iappend_sim hf h hopen.type hopen.dev hopen.lt hp happend
  obtain ⟨hupdated, -⟩ := (writei_spec h hopen.type _ _).of_eq_ok hwrite
  exact ⟨r, hloop, hupdated.dinode_self⟩

theorem appendFile_grown : ∀ {fuel : ℕ} {m : Mkfs} {data : List Byte}, m.Fresh →
    Consistent m.view → m.Open i → data.length ≤ fuel → m.appendFile fuel i data = some m' →
    Grown m i data m'
  | 0, m, data, hf, h, _, hfuel, happend => by
    have hnil : data = [] := List.length_eq_zero_iff.mp (Nat.le_zero.mp hfuel)
    subst hnil
    cases happend
    exact Grown.refl hf h
  | fuel + 1, m, data, hf, h, hopen, hfuel, happend => by
    unfold appendFile at happend
    split at happend
    next hnil =>
      subst hnil
      cases happend
      exact Grown.refl hf h
    next hne =>
      obtain ⟨m₁, hfirst, hrest⟩ := Option.bind_eq_some_iff.mp happend
      have hB : 0 < BSIZE := by decide
      have hpos : 0 < data.length := List.length_pos_iff.mpr hne
      have htake : data.take BSIZE ≠ [] := by
        rw [← List.length_pos_iff, List.length_take]
        omega
      have hgrown := iappend_grown hf h hopen htake hfirst
      have hdrop : (data.drop BSIZE).length ≤ fuel := by
        rw [List.length_drop]
        omega
      have hboth := hgrown.trans
        (appendFile_grown hgrown.fresh hgrown.consistent (hgrown.isOpen hopen) hdrop hrest)
      rwa [List.take_append_drop] at hboth

/-! ### A new file -/

/-- An empty file has no blocks. -/
theorem blockAt_empty {img : Image} (type : BitVec 16) (bn : ℕ) :
    blockAt img { emptyDinode type with nlink := 1 } bn = 0 := by
  rw [blockAt]
  cases slotOf bn with
  | none => rfl
  | some s => cases s <;> rfl

/-- An inode of this type was made. -/
structure Allocated (m : Mkfs) (type : BitVec 16) (m' : Mkfs) (i : Inum) : Prop where
  eq : (i : ℕ) = m.freeinode
  fresh : m'.Fresh
  freeinode : m'.freeinode = m.freeinode + 1
  freeblock : m'.freeblock = m.freeblock
  consistent : Consistent m'.view
  low : ∀ b < inodestart, m'.img b = m.img b
  dinode_self : m'.view.dinode i = { emptyDinode type with nlink := 1 }
  dinode : ∀ j ≠ i, m'.view.dinode j = m.view.dinode j
  others : ∀ j ≠ i, (m.view.dinode j).type ≠ 0 →
    contents m'.view (m'.view.dinode j) = contents m.view (m.view.dinode j)
  blocks : ∀ j ≠ i, (m.view.dinode j).type ≠ 0 → ∀ bn,
    blockAt m'.view (m'.view.dinode j) bn = blockAt m.view (m.view.dinode j) bn

theorem ialloc_allocated {type : BitVec 16} (hf : m.Fresh) (h : Consistent m.view)
    (halloc : m.ialloc type = some (m', i)) : Allocated m type m' i := by
  unfold ialloc at halloc
  split at halloc
  next hlt =>
    cases halloc
    generalize hi : (⟨m.freeinode, hlt⟩ : Inum) = i
    have hival : (i : ℕ) = m.freeinode := by rw [← hi]
    -- the counter does not show on the image
    have hview : (view { m with freeinode := m.freeinode + 1 }) = m.view := rfl
    have hf₁ : Fresh { m with freeinode := m.freeinode + 1 } :=
      ⟨hf.le, hf.ge, hf.zero, fun j hj => hf.inode j (Nat.le_of_succ_le hj)⟩
    have hfree : ∀ s, refs m.view m.view.dinode (i, s) = 0 := by
      intro s
      have hzero : m.view.dinode i = emptyDinode 0 :=
        view_dinode.trans (hf.inode i (Nat.le_of_eq hival.symm))
      rw [refs, if_pos (by rw [hzero]; rfl)]
    have hupdated := h.setEmpty (i := i) (y := { emptyDinode type with nlink := 1 })
      hfree rfl rfl rfl
    have himg : OnDisk.iupdate m.view i { emptyDinode type with nlink := 1 }
        = (winode { m with freeinode := m.freeinode + 1 } i
            { emptyDinode type with nlink := 1 }).view := by
      rw [OnDisk.iupdate, ← hview, setDinode_view]
    rw [himg] at hupdated
    exact
      { hupdated with
        eq := hival
        fresh := hf₁.winode (by rw [hival]; exact Nat.lt_succ_self _) _
        freeinode := rfl
        freeblock := rfl
        low := fun b hb =>
          Image.setDinode_of_ne (Nat.ne_of_lt (Nat.lt_of_lt_of_le hb (IBLOCK_lt i).1))
        dinode := hupdated.dinode_other
        others := fun j hj htype => by
          rw [hupdated.dinode_other j hj, ← himg]
          exact h.contents_iupdate htype _
        blocks := fun j hj htype bn => by
          rw [hupdated.dinode_other j hj, ← himg]
          exact h.owned.blockAt_setDinode htype _ bn }
  next => cases halloc

/-! ### The files so far -/

end Mkfs

/-- The number of the root directory. -/
def rootInum : Inum := ⟨ROOTINO, by decide⟩

/-- What the root directory lists: the numbers of the inodes, and the names. -/
def rootEntries (files : List HostFile) : List (ℕ × List Byte) :=
  (ROOTINO, dot) :: (ROOTINO, dotdot) :: files.mapIdx fun j f => (j + 2, f.entryName)

/-- A directory with these entries. -/
def direntBytes (entries : List (ℕ × List Byte)) : List Byte :=
  entries.flatMap fun e => dirent e.1 e.2

theorem length_strncpy : ∀ (n : ℕ) (t : List Byte), (strncpy n t).length = n
  | 0, _ => rfl
  | n + 1, t => by
    unfold strncpy
    split
    · exact List.length_replicate
    · rw [List.length_cons, length_strncpy n]

theorem length_dirent (inum : ℕ) (name : List Byte) : (dirent inum name).length = direntSize := by
  rw [dirent, List.length_cons, List.length_cons, length_strncpy]
  rfl

theorem dirent_ne_nil (inum : ℕ) (name : List Byte) : dirent inum name ≠ [] := List.cons_ne_nil _ _

theorem length_direntBytes (entries : List (ℕ × List Byte)) :
    (direntBytes entries).length = direntSize * entries.length := by
  induction entries with
  | nil => rfl
  | cons e entries ih =>
    rw [direntBytes, List.flatMap_cons, List.length_append, length_dirent, List.length_cons,
      Nat.mul_succ, Nat.add_comm]
    exact congrArg (· + direntSize) ih

theorem length_rootEntries (files : List HostFile) :
    (rootEntries files).length = files.length + 2 := by
  rw [rootEntries, List.length_cons, List.length_cons, List.length_mapIdx]

theorem rootEntries_concat (files : List HostFile) (f : HostFile) :
    rootEntries (files ++ [f]) = rootEntries files ++ [(files.length + 2, f.entryName)] := by
  rw [rootEntries, List.mapIdx_concat]
  rfl

theorem direntBytes_concat (entries : List (ℕ × List Byte)) (e : ℕ × List Byte) :
    direntBytes (entries ++ [e]) = direntBytes entries ++ dirent e.1 e.2 := by
  rw [direntBytes, List.flatMap_append, List.flatMap_singleton]
  rfl

namespace Mkfs

variable {files : List HostFile} {f : HostFile} {root : Inum}

/-- **The files are on the image**, each with its name and its bytes. -/
structure Built (files : List HostFile) (m : Mkfs) : Prop where
  fresh : m.Fresh
  consistent : Consistent m.view
  freeinode : m.freeinode = files.length + 2
  length_le : files.length ≤ 198
  low : ∀ b < inodestart, m.img b = start.img b
  null : ∀ i : Inum, (i : ℕ) = 0 → m.view.dinode i = emptyDinode 0
  rootType : (m.view.dinode rootInum).type = T_DIR
  rootContents : contents m.view (m.view.dinode rootInum) = direntBytes (rootEntries files)
  rootExact : Exact m.view (m.view.dinode rootInum)
  file : ∀ (j : ℕ) (f : HostFile), files[j]? = some f → ∀ i : Inum, (i : ℕ) = j + 2 →
    (m.view.dinode i).type = T_FILE ∧ contents m.view (m.view.dinode i) = f.data

/-- The size of the root directory. -/
theorem Built.rootSize (h : Built files m) :
    (m.view.dinode rootInum).size = direntSize * (files.length + 2) := by
  have hlength := congrArg List.length h.rootContents
  rwa [contents, length_slice, length_direntBytes, length_rootEntries] at hlength

theorem Grown.size (h : Grown m i p m') :
    (m'.view.dinode i).size = (m.view.dinode i).size + p.length := by
  have hlength := congrArg List.length h.contents
  rwa [List.length_append, OnDisk.contents, OnDisk.contents, length_slice, length_slice] at hlength

theorem Built.rootOpen (h : Built files m) : m.Open rootInum :=
  Open.of_type (.inl h.rootType) (by rw [h.freeinode]; exact Nat.succ_lt_succ (Nat.succ_pos _))

/-- Appending to the root directory, and to the new file, leaves the other files alone. -/
theorem addFile_built (h : Built files m) (hadd : m.addFile rootInum f = some m') :
    Built (files ++ [f]) m' := by
  unfold addFile at hadd
  split at hadd
  next => cases hadd
  next =>
    obtain ⟨⟨m₁, i⟩, halloc, hadd⟩ := Option.bind_eq_some_iff.mp hadd
    obtain ⟨m₂, hroot, hfile⟩ := Option.bind_eq_some_iff.mp hadd
    have ha := ialloc_allocated h.fresh h.consistent halloc
    have hi : (i : ℕ) = files.length + 2 := ha.eq.trans h.freeinode
    have hne : rootInum ≠ i := by
      intro heq
      have hval : ROOTINO = (i : ℕ) := congrArg Fin.val heq
      rw [hi] at hval
      exact absurd hval.symm (Nat.succ_succ_ne_one _)
    have hrootType : (m.view.dinode rootInum).type ≠ 0 := h.rootOpen.type
    have hrootOpen : m₁.Open rootInum :=
      Open.of_type (.inl (by rw [ha.dinode _ hne, h.rootType]))
        (by rw [ha.freeinode]; exact Nat.lt_succ_of_lt h.rootOpen.lt)
    have hg := iappend_grown ha.fresh ha.consistent hrootOpen (dirent_ne_nil _ _) hroot
    have hself : m₂.view.dinode i = { emptyDinode T_FILE with nlink := 1 } :=
      (hg.dinode i hne.symm).trans ha.dinode_self
    have hopen : m₂.Open i := Open.of_type (.inr (by rw [hself]; rfl))
      (by rw [hg.freeinode, ha.freeinode, ha.eq]; exact Nat.lt_succ_self _)
    have hw := appendFile_grown hg.fresh hg.consistent hopen (Nat.le_refl _) hfile
    have hempty : contents m₂.view (m₂.view.dinode i) = [] := by
      rw [hself]
      rfl
    -- an inode that is neither the root nor the new one
    have hother : ∀ j, j ≠ i → j ≠ rootInum → m'.view.dinode j = m.view.dinode j := by
      intro j hji hjr
      rw [hw.dinode j hji, hg.dinode j hjr, ha.dinode j hji]
    have hrootTypes : (m₁.view.dinode rootInum).type ≠ 0 ∧ (m₂.view.dinode rootInum).type ≠ 0 := by
      rw [hg.type, ha.dinode _ hne]
      exact ⟨hrootType, hrootType⟩
    have hrootExact : Exact m₁.view (m₁.view.dinode rootInum) := by
      intro bn hbn
      rw [ha.blocks _ hne hrootType]
      rw [ha.dinode _ hne] at hbn
      exact h.rootExact bn hbn
    exact
      { hw with
        freeinode := by
          rw [hw.freeinode, hg.freeinode, ha.freeinode, h.freeinode, List.length_append]
          rfl
        length_le := by
          have hlt : (i : ℕ) < 200 := i.isLt
          rw [List.length_append, List.length_singleton]
          omega
        low := fun b hb => by rw [hw.low b hb, hg.low b hb, ha.low b hb, h.low b hb]
        null := fun j hj => by
          have hji : j ≠ i := by
            rintro rfl
            rw [hj] at hi
            exact absurd hi (Nat.succ_ne_zero _).symm
          have hjr : j ≠ rootInum := by
            rintro rfl
            exact absurd hj Nat.one_ne_zero
          rw [hother j hji hjr]
          exact h.null j hj
        rootType := by rw [hw.dinode _ hne, hg.type, ha.dinode _ hne, h.rootType]
        rootContents := by
          rw [hw.others _ hne hrootTypes.2, hg.contents, ha.others _ hne hrootType, h.rootContents,
            rootEntries_concat, direntBytes_concat, hi]
        rootExact := hw.exact_other hne hrootTypes.2 (hg.exact hrootExact)
        file := fun j g hj k hk => by
          by_cases hlast : j < files.length
          · rw [List.getElem?_append_left hlast] at hj
            obtain ⟨htype, hcontents⟩ := h.file j g hj k hk
            have hki : k ≠ i := by
              rintro rfl
              omega
            have hkr : k ≠ rootInum := by
              rintro rfl
              exact absurd (Nat.succ.inj hk).symm (Nat.succ_ne_zero j)
            have hktype : (m.view.dinode k).type ≠ 0 := by
              rw [htype]
              decide
            have hktype₁ : (m₁.view.dinode k).type ≠ 0 := by rwa [ha.dinode k hki]
            have hktype₂ : (m₂.view.dinode k).type ≠ 0 := by rwa [hg.dinode k hkr]
            rw [hw.others k hki hktype₂, hg.others k hkr hktype₁, ha.others k hki hktype,
              hother k hki hkr]
            exact ⟨htype, hcontents⟩
          · -- the new file
            have hlen : j = files.length := by
              have hlt := (List.getElem?_eq_some_iff.mp hj).1
              rw [List.length_append, List.length_singleton] at hlt
              omega
            subst hlen
            rw [List.getElem?_concat_length] at hj
            cases hj
            have hki : k = i := Fin.ext (hk.trans hi.symm)
            subst hki
            rw [hw.type, hw.contents, hempty, List.nil_append, hself]
            exact ⟨rfl, rfl⟩ }

theorem start_img {b : ℕ} (hne : b ≠ 1) : start.img b = fun _ => 0 := by
  simp only [start]
  exact Function.update_of_ne hne ..

theorem start_dinode (i : Inum) : start.img.dinode i = emptyDinode 0 := by
  have hne : IBLOCK i ≠ 1 := Nat.ne_of_gt (Nat.lt_of_lt_of_le (by decide) (IBLOCK_lt i).1)
  rw [Image.dinode, start_img hne]
  rfl

/-- Nothing is on the image yet. -/
theorem start_fresh : start.Fresh where
  le := Nat.le_refl _
  ge := by decide
  zero b hb _ := by
    have hone : 1 < nmeta := by decide
    exact start_img (Nat.ne_of_gt (Nat.lt_of_lt_of_le hone hb))
  inode i _ := start_dinode i

theorem start_consistent : Consistent start.view := by
  apply consistent_of_free
  · intro i
    rw [view_dinode, start_dinode]
    rfl
  · exact fun b hb => view_bit start_fresh hb

/-- **The root directory** has its first two entries. -/
theorem makeRoot_built (h : makeRoot = some (m, root)) : root = rootInum ∧ Built [] m := by
  unfold makeRoot at h
  obtain ⟨⟨m₁, i⟩, halloc, h⟩ := Option.bind_eq_some_iff.mp h
  dsimp only at h
  split at h
  next hroot =>
    obtain ⟨m₂, hdot, h⟩ := Option.bind_eq_some_iff.mp h
    obtain ⟨m₃, hdotdot, h⟩ := Option.bind_eq_some_iff.mp h
    cases h
    have hi : root = rootInum := Fin.ext hroot
    subst hi
    have ha := ialloc_allocated start_fresh start_consistent halloc
    have hopen : m₁.Open rootInum := Open.of_type (.inl (by rw [ha.dinode_self]; rfl))
      (by rw [ha.freeinode]; exact Nat.lt_succ_self _)
    have hfirst := iappend_grown ha.fresh ha.consistent hopen (dirent_ne_nil _ _) hdot
    have hsecond := iappend_grown hfirst.fresh hfirst.consistent (hfirst.isOpen hopen)
      (dirent_ne_nil _ _) hdotdot
    have hg := hfirst.trans hsecond
    refine ⟨rfl, ?_⟩
    exact
      { hg with
        freeinode := hg.freeinode.trans ha.freeinode
        length_le := Nat.zero_le _
        low := fun b hb => (hg.low b hb).trans (ha.low b hb)
        null := fun j hj => by
          have hne : j ≠ rootInum := by
            rintro rfl
            exact absurd hj Nat.one_ne_zero
          rw [hg.dinode j hne, ha.dinode j hne, view_dinode, start_dinode]
        rootType := by
          rw [hg.type, ha.dinode_self]
          rfl
        rootContents := by
          have hempty : contents m₁.view (m₁.view.dinode rootInum) = [] := by
            rw [ha.dinode_self]
            rfl
          rw [hg.contents, hempty]
          rfl
        rootExact := by
          apply hg.exact
          intro bn _
          rw [ha.dinode_self]
          exact blockAt_empty T_DIR bn
        file := fun j f hj => by
          rw [List.getElem?_nil] at hj
          cases hj }
  next => cases h

/-- **The loop of `main`** puts the files on the image. -/
theorem built_of_run (h : Built [] m) (hrun : run (addFile rootInum) m files = some m') :
    Built files m' := by
  have hstep : ∀ done (m : Mkfs) f m', Built done m → True → m.addFile rootInum f = some m' →
      Built (done ++ [f]) m' := fun _ _ _ _ hbuilt _ hadd => addFile_built hbuilt hadd
  exact run_preserves_history hstep h (along_true _ files) hrun

/-! ### The image at the end -/

end Mkfs

/-- What is on the image: that of the files before the size of the root directory was rounded up,
but for this size. -/
structure Finished (files : List HostFile) (m : Mkfs) (img : Image) : Prop where
  built : m.Built files
  img : img = (m.fixRoot rootInum).view

theorem mkfs_finished {files : List HostFile} {img : Image} (h : mkfs files = some img) :
    ∃ m, Finished files m img := by
  unfold mkfs at h
  obtain ⟨⟨m₀, root⟩, hroot, h⟩ := Option.bind_eq_some_iff.mp h
  obtain ⟨m, hrun, h⟩ := Option.bind_eq_some_iff.mp h
  obtain ⟨rfl, hbuilt⟩ := Mkfs.makeRoot_built hroot
  unfold Mkfs.balloc at h
  split at h
  next =>
    cases h
    exact ⟨m, Mkfs.built_of_run hbuilt hrun, rfl⟩
  next => cases h

end Xv6.OnDisk
