import Assignments.Xv6.DirTree

/-!
# The image that `mkfs` makes

`mkfs` writes a root directory with one file for each of its arguments. The model keeps the inodes;
it stops (`none`) where an assertion of `mkfs.c` fails, and where the image would need more inodes
or blocks than the disk has.

* `mkfs_tree` — the image is consistent, and no inode of it is without links.
-/

namespace Xv6.Fs

open Framework Function

/-- The state of `mkfs`: the next inode number and the inodes written so far. -/
structure Mkfs where
  freeinode : ℕ
  inodes : Inum → Dinode

/-- A file to be put on the image. -/
structure Arg where
  name : List Char
  size : ℕ

/-- The name of a file on the image: without a leading `_`, and cut to `DIRSIZ` bytes. -/
def Arg.entryName (a : Arg) : Name :=
  match a.name with
  | '_' :: cs => cs.take DIRSIZ
  | cs => cs.take DIRSIZ

/-- Blocks of a file of `n` bytes, with its indirect block. -/
def sizeBlocks (n : ℕ) : ℕ :=
  let k := (n + 511) / 512
  if NDIRECT < k then k + 1 else k

namespace Mkfs

def ialloc (m : Mkfs) (type : IType) : Option (Mkfs × Inum) :=
  if h : m.freeinode < NINODES then
    let inum : Inum := ⟨m.freeinode, h⟩
    some (⟨m.freeinode + 1, update m.inodes inum ⟨type, 0, 0, 1, [], 0⟩⟩, inum)
  else
    none

/-- `winode`, after contents have been written. -/
def winode (m : Mkfs) (inum : Inum) (x : Dinode) : Option Mkfs :=
  let inodes := update m.inodes inum x
  if used inodes ≤ nblocks then some ⟨m.freeinode, inodes⟩ else none

/-- `iappend` of a directory entry. -/
def appendEntry (m : Mkfs) (dp : Inum) (e : Dirent) : Option Mkfs :=
  let x := m.inodes dp
  if x.dirents.length < maxDirents then
    m.winode dp { x with dirents := x.dirents ++ [e] }
  else
    none

/-- `iappend` of the contents of a file. -/
def appendData (m : Mkfs) (inum : Inum) (size : ℕ) : Option Mkfs :=
  if size ≤ (NDIRECT + 128) * 512 then
    m.winode inum { m.inodes inum with data := sizeBlocks size }
  else
    none

def addFile (rootino : Inum) (m : Mkfs) (a : Arg) : Option Mkfs :=
  if '/' ∈ a.name then
    none
  else do
    let (m, inum) ← m.ialloc .file
    let m ← m.appendEntry rootino ⟨inum, a.entryName⟩
    m.appendData inum a.size

/-- The size of the root directory is rounded up to the next block, here with unused entries. If the
entries fill a block already, the source adds a block to the size and gives it no address: `bmap`
finds one for it later, in memory only, and what is written there is lost. -/
def fixSize (m : Mkfs) (rootino : Inum) : Option Mkfs :=
  let x := m.inodes rootino
  let n := (x.dirents.length / 32 + 1) * 32
  m.winode rootino
    { x with dirents := x.dirents ++ List.replicate (n - x.dirents.length) ⟨0, []⟩ }

end Mkfs

def mkfs (args : List Arg) : Option (Inum → Dinode) := do
  let (m, rootino) ← Mkfs.ialloc ⟨1, fun _ => ⟨.free, 0, 0, 0, [], 0⟩⟩ .dir
  let m ← m.appendEntry rootino ⟨rootino, dot⟩
  let m ← m.appendEntry rootino ⟨rootino, dotdot⟩
  let m ← args.foldlM (Mkfs.addFile rootino) m
  let m ← m.fixSize rootino
  some m.inodes

/-! ### The image is consistent -/

/-- While files are added: every entry of the root is in use, the inodes from `freeinode` on are
free, and those before it have links. -/
structure Mkfs.Built (m : Mkfs) : Prop where
  tree : Tree m.inodes
  full : ∀ e ∈ (m.inodes ROOTINO).dirents, e.inum ≠ 0
  fresh : ∀ i : Inum, m.freeinode ≤ i → (m.inodes i).type = .free
  linked : ∀ i, (m.inodes i).type ≠ .free → (m.inodes i).nlink ≠ 0

/-- An entry goes behind entries that are all in use. -/
theorem place_of_full {e : Dirent} {es : List Dirent} (h : ∀ e ∈ es, e.inum ≠ 0) :
    place e es = es ++ [e] := by
  induction es with
  | nil => rfl
  | cons d ds ih =>
    rw [place, if_neg (h d List.mem_cons_self), List.cons_append,
      ih fun e he => h e (List.mem_cons_of_mem d he)]

theorem Mkfs.winode_eq_some {m m' : Mkfs} {inum : Inum} {x : Dinode}
    (h : m.winode inum x = some m') :
    m'.freeinode = m.freeinode ∧ m'.inodes = update m.inodes inum x ∧
      used m'.inodes ≤ nblocks := by
  unfold Mkfs.winode at h
  dsimp only at h
  split at h
  · next hfits =>
    cases h
    exact ⟨rfl, rfl, hfits⟩
  · cases h

theorem Mkfs.ialloc_eq_some {m m' : Mkfs} {type : IType} {inum : Inum}
    (h : m.ialloc type = some (m', inum)) :
    (inum : ℕ) = m.freeinode ∧ m'.freeinode = m.freeinode + 1 ∧
      m'.inodes = update m.inodes inum ⟨type, 0, 0, 1, [], 0⟩ := by
  unfold Mkfs.ialloc at h
  split at h
  · cases h
    exact ⟨rfl, rfl, rfl⟩
  · cases h

/-- One more file, as by `create`. -/
theorem Mkfs.Built.addFile {m m' : Mkfs} {a : Arg} (h : m.Built) (hname : a.entryName ≠ dot)
    (hadd : m.addFile ROOTINO a = some m') : m'.Built := by
  unfold Mkfs.addFile at hadd
  split at hadd
  · cases hadd
  obtain ⟨⟨m₁, i⟩, halloc, hadd⟩ := Option.bind_eq_some_iff.mp hadd
  obtain ⟨m₂, hentry, hdata⟩ := Option.bind_eq_some_iff.mp hadd
  obtain ⟨hi, hfree₁, hinodes₁⟩ := Mkfs.ialloc_eq_some halloc
  unfold Mkfs.appendEntry at hentry
  dsimp only at hentry
  split at hentry
  swap
  · cases hentry
  obtain ⟨hfree₂, hinodes₂, -⟩ := Mkfs.winode_eq_some hentry
  unfold Mkfs.appendData at hdata
  split at hdata
  swap
  · cases hdata
  obtain ⟨hfree₃, hinodes₃, hfits⟩ := Mkfs.winode_eq_some hdata
  -- the inode was free
  have hold : (m.inodes i).type = .free := h.fresh i hi.ge
  have hroot := h.tree.root.1
  have hne : i ≠ ROOTINO := by
    rintro rfl
    rw [hold] at hroot
    cases hroot
  have hi0 : i ≠ 0 := by
    rintro rfl
    have hzero : (ROOTINO : ℕ) < m.freeinode := by
      by_contra hge
      rw [h.fresh ROOTINO (Nat.le_of_not_lt hge)] at hroot
      cases hroot
    have hnum : ((0 : Inum) : ℕ) = 0 := rfl
    omega
  have hself : m'.inodes i = ⟨.file, 0, 0, 1, [], sizeBlocks a.size⟩ := by
    rw [hinodes₃, update_self, hinodes₂, update_of_ne hne, hinodes₁,
      update_self]
  have hdir : m'.inodes ROOTINO = (m.inodes ROOTINO).addEntry ⟨i, a.entryName⟩ := by
    rw [hinodes₃, update_of_ne hne.symm, hinodes₂, update_self, hinodes₁,
      update_of_ne hne.symm, Dinode.addEntry, place_of_full h.full]
  have hrest : ∀ j, j ≠ i → j ≠ ROOTINO → m'.inodes j = m.inodes j := by
    intro j hji hjr
    rw [hinodes₃, update_of_ne hji, hinodes₂, update_of_ne hjr, hinodes₁,
      update_of_ne hji]
  exact {
    tree := by
      refine h.tree.addFile hroot hi0 (by rw [hold]; decide) hname hdir ?_ ?_ ?_ hrest hfits
      · rw [hself]
        simp
      · rw [hself]
        simp
      · rw [hself, h.tree.links_free hi0 hold]
        rfl
    full := by
      intro e he
      rw [hdir] at he
      rcases mem_place he with rfl | he
      · exact hi0
      · exact h.full e he
    fresh := by
      intro j hj
      have hjr : j ≠ ROOTINO := by
        rintro rfl
        rw [h.fresh ROOTINO (by omega)] at hroot
        cases hroot
      rw [hrest j (by rintro rfl; omega) hjr]
      exact h.fresh j (by omega)
    linked := by
      intro j hj
      by_cases hji : j = i
      · rw [hji, hself]
        simp
      by_cases hjr : j = ROOTINO
      · rw [hjr, hdir]
        exact h.linked ROOTINO (by rw [hroot]; decide)
      · rw [hrest j hji hjr] at hj ⊢
        exact h.linked j hj }

/-- The root alone. -/
def rootOnly : Inum → Dinode :=
  update (fun _ => ⟨.free, 0, 0, 0, [], 0⟩) ROOTINO
    ⟨.dir, 0, 0, 1, [⟨ROOTINO, dot⟩, ⟨ROOTINO, dotdot⟩], 0⟩

theorem rootOnly_built : Mkfs.Built ⟨2, rootOnly⟩ := by
  have hroot : rootOnly ROOTINO = ⟨.dir, 0, 0, 1, [⟨ROOTINO, dot⟩, ⟨ROOTINO, dotdot⟩], 0⟩ :=
    update_self ..
  have hrest : ∀ i, i ≠ ROOTINO → (rootOnly i).type = .free := fun i hi => by
    rw [rootOnly, update_of_ne hi]
  have hdir : ∀ d, (rootOnly d).type ≠ .free → d = ROOTINO := by
    intro d hd
    by_contra hne
    exact hd (hrest d hne)
  have hparent : (rootOnly ROOTINO).parent = ROOTINO := by
    rw [hroot]
    rfl
  have hchildren : (rootOnly ROOTINO).children = [] := by
    rw [hroot]
    rfl
  have htype : (rootOnly ROOTINO).type = .dir := by rw [hroot]
  refine ⟨⟨hrest 0 (by decide), ⟨htype, hparent⟩, ?_, ?_, ?_, ?_⟩, ?_, ?_, ?_⟩ <;> dsimp only
  · intro d hd
    obtain rfl := hdir d (by rw [hd]; decide)
    exact {
      dots := by rw [hparent, hchildren, hroot]
      names := by simp [hchildren]
      parent := by rw [hparent]; exact hd
      alloc := by simp [hchildren]
      sub := by simp [hchildren]
      once := fun hne => absurd rfl hne }
  · intro d hd
    obtain rfl := hdir d (by rw [hd]; decide)
    exact .root
  · intro i hi
    obtain rfl := hdir i hi
    -- its own `..` is the one link to the root
    have hlinks : links rootOnly ROOTINO = 1 := by
      refine (total_eq_single ROOTINO fun d hd => ?_).trans ?_
      · refine linksTo_of_not_dir ?_
        rw [hrest d hd]
        decide
      · rw [hroot]
        decide
    rw [hlinks, hroot]
    rfl
  · have hused : used rootOnly = (rootOnly ROOTINO).blocks := by
      refine total_eq_single ROOTINO fun d hd => ?_
      rw [Dinode.blocks, hrest d hd]
    rw [hused, hroot]
    decide
  · rw [hroot]
    decide
  · intro i hi
    refine hrest i ?_
    rintro rfl
    exact absurd hi (by decide)
  · intro i hi
    obtain rfl := hdir i hi
    rw [hroot]
    decide

/-- **Unused entries at the end of a directory** change nothing. -/
theorem Tree.pad {T : Inum → Dinode} {d : Inum} (h : Tree T) (hd : (T d).type = .dir) {n : ℕ}
    {x : Dinode} (hx : x = { T d with dirents := (T d).dirents ++ List.replicate n ⟨0, []⟩ })
    (hfits : used (update T d x) ≤ nblocks) : Tree (update T d x) := by
  set T' := update T d x with hT'
  have hself : T' d = x := update_self ..
  have hrest : ∀ j, j ≠ d → T' j = T j := fun j hj => update_of_ne hj ..
  have hdots := (h.dirs d hd).dots
  have hdirents : (T' d).dirents = ⟨d, dot⟩ :: ⟨(T d).parent, dotdot⟩ ::
      ((T d).children ++ List.replicate n ⟨0, []⟩) := by
    rw [hself, hx]
    show (T d).dirents ++ _ = _
    rw [hdots]
    rfl
  have htype : ∀ j, (T' j).type = (T j).type := by
    intro j
    by_cases hj : j = d
    · rw [hj, hself, hx]
    · rw [hrest j hj]
  have hnlink : ∀ j, (T' j).nlink = (T j).nlink := by
    intro j
    by_cases hj : j = d
    · rw [hj, hself, hx]
    · rw [hrest j hj]
  have hparent : ∀ j, (T' j).parent = (T j).parent := by
    intro j
    by_cases hj : j = d
    · rw [hj]
      exact parent_of_dirents hdirents
    · rw [hrest j hj]
  have hchildren : (T' d).children = (T d).children ++ List.replicate n ⟨0, []⟩ :=
    children_of_dirents hdirents
  -- the children in use are the same
  have hmem : ∀ j, ∀ e ∈ (T' j).children, e.inum ≠ 0 → e ∈ (T j).children := by
    intro j e he hinum
    by_cases hj : j = d
    · subst hj
      rw [hchildren, List.mem_append] at he
      rcases he with he | he
      · exact he
      · rw [List.eq_of_mem_replicate he] at hinum
        exact absurd rfl hinum
    · rw [hrest j hj] at he
      exact he
  have hholding : ∀ j i, i ≠ 0 → holding i (T' j).children = holding i (T j).children := by
    intro j i hi
    by_cases hj : j = d
    · subst hj
      rw [hchildren, holding, List.countP_append]
      have hzero : (List.replicate n (⟨0, []⟩ : Dirent)).countP (fun e => e.inum = i) = 0 := by
        refine List.countP_eq_zero.mpr fun e he => ?_
        rw [List.eq_of_mem_replicate he]
        simpa using hi.symm
      rw [hzero]
      rfl
    · rw [hrest j hj]
  have hdir : ∀ j, (T' j).type = .dir → Directory T' j := by
    intro j hj
    rw [htype] at hj
    have hold := h.dirs j hj
    exact {
      dots := by
        by_cases hjd : j = d
        · subst hjd
          rw [hparent, hchildren]
          exact hdirents
        · rw [hrest j hjd]
          exact hold.dots
      names := fun e he hinum => hold.names e (hmem j e he hinum) hinum
      parent := by
        rw [hparent, htype]
        exact hold.parent
      alloc := fun e he hinum => by
        rw [htype]
        exact hold.alloc e (hmem j e he hinum) hinum
      sub := fun e he hsub => by
        rw [htype] at hsub
        rw [hparent]
        exact hold.sub e (hmem j e he (h.ne_zero_of_dir hsub)) hsub
      once := fun hroot => by
        rw [hparent, hholding _ _ (h.ne_zero_of_dir hj)]
        exact hold.once hroot }
  have hlinks : ∀ i, i ≠ 0 → links T' i = links T i := by
    intro i hi
    have heq : links T' i + (T d).linksTo i = links T i + x.linksTo i := total_update _ T d x
    have hnew : x.linksTo i = (T d).linksTo i := by
      have hd' : (T' d).type = .dir := (htype d).trans hd
      rw [← hself, linksTo_of_dirents hd' (hdir d hd').dots (hdir d hd').names hi, hparent,
        hholding d i hi, h.linksTo_eq hd hi]
    omega
  exact {
    zero := by
      rw [htype]
      exact h.zero
    root := by
      rw [htype, hparent]
      exact h.root
    dirs := hdir
    below := by
      intro j hj
      rw [htype] at hj
      -- no directory is numbered 0
      refine (h.below j hj).transfer (i := 0) (fun k hk _ => ?_) (h.ne_zero_of_dir hj)
      exact ⟨(htype k).trans hk, hparent k, h.ne_zero_of_dir (h.dirs k hk).parent⟩
    nlink := by
      intro i hi
      rw [htype] at hi
      have hi0 : i ≠ 0 := by
        rintro rfl
        exact hi h.zero
      rw [hnlink, hlinks i hi0]
      exact h.nlink i hi
    fits := hfits }

/-- The root directory is written first. -/
theorem mkfs_eq (args : List Arg) :
    mkfs args = (args.foldlM (Mkfs.addFile ROOTINO) ⟨2, rootOnly⟩).bind fun m =>
      (m.fixSize ROOTINO).bind fun m => some m.inodes := by
  have halloc : Mkfs.ialloc ⟨1, fun _ => ⟨.free, 0, 0, 0, [], 0⟩⟩ .dir =
      some (⟨2, update (fun _ => ⟨.free, 0, 0, 0, [], 0⟩) ROOTINO
        ⟨.dir, 0, 0, 1, [], 0⟩⟩, ROOTINO) := rfl
  have hdot : Mkfs.appendEntry ⟨2, update (fun _ => ⟨.free, 0, 0, 0, [], 0⟩) ROOTINO
        ⟨.dir, 0, 0, 1, [], 0⟩⟩ ROOTINO ⟨ROOTINO, dot⟩ =
      some ⟨2, update (fun _ => ⟨.free, 0, 0, 0, [], 0⟩) ROOTINO
        ⟨.dir, 0, 0, 1, [⟨ROOTINO, dot⟩], 0⟩⟩ := by
    unfold Mkfs.appendEntry Mkfs.winode
    simp only [update_self, update_idem]
    rw [if_pos (by decide), if_pos (by decide +kernel)]
    rfl
  have hdotdot : Mkfs.appendEntry ⟨2, update (fun _ => ⟨.free, 0, 0, 0, [], 0⟩) ROOTINO
        ⟨.dir, 0, 0, 1, [⟨ROOTINO, dot⟩], 0⟩⟩ ROOTINO ⟨ROOTINO, dotdot⟩ =
      some ⟨2, rootOnly⟩ := by
    unfold Mkfs.appendEntry Mkfs.winode
    simp only [update_self, update_idem]
    rw [if_pos (by decide), if_pos (by decide +kernel)]
    rfl
  unfold mkfs
  rw [halloc]
  show ((Mkfs.appendEntry _ ROOTINO ⟨ROOTINO, dot⟩).bind fun m =>
    (m.appendEntry ROOTINO ⟨ROOTINO, dotdot⟩).bind fun m =>
      (args.foldlM (Mkfs.addFile ROOTINO) m).bind fun m =>
        (m.fixSize ROOTINO).bind fun m => some m.inodes) = _
  rw [hdot]
  show ((Mkfs.appendEntry _ ROOTINO ⟨ROOTINO, dotdot⟩).bind fun m => _) = _
  rw [hdotdot]
  rfl

/-- **The image that `mkfs` makes is consistent**, and every inode of it has links, as long as no
file is called `.`. -/
theorem mkfs_tree {args : List Arg} {image : Inum → Dinode} (h : mkfs args = some image)
    (hnames : ∀ a ∈ args, a.entryName ≠ dot) :
    Tree image ∧ ∀ i, (image i).type ≠ .free → (image i).nlink ≠ 0 := by
  rw [mkfs_eq] at h
  obtain ⟨m, hadd, h⟩ := Option.bind_eq_some_iff.mp h
  obtain ⟨m', hfix, himage⟩ := Option.bind_eq_some_iff.mp h
  cases himage
  have halong : Along (Mkfs.addFile ROOTINO) (fun _ a => a.entryName ≠ dot) ⟨2, rootOnly⟩ args :=
    along_of_forall hnames
  have hbuilt : m.Built := run_preserves (fun m a m' hm ha hstep => hm.addFile ha hstep)
    rootOnly_built halong hadd
  unfold Mkfs.fixSize at hfix
  obtain ⟨-, hinodes, hfits⟩ := Mkfs.winode_eq_some hfix
  have hroot := hbuilt.tree.root.1
  rw [hinodes] at hfits ⊢
  refine ⟨hbuilt.tree.pad hroot rfl hfits, fun i hi => ?_⟩
  by_cases hir : i = ROOTINO
  · rw [hir, update_self]
    exact hbuilt.linked ROOTINO (by rw [hroot]; decide)
  · rw [update_of_ne hir] at hi ⊢
    exact hbuilt.linked i hi

end Xv6.Fs
