import Assignments.Xv6.SysFile

/-!
# The directory tree

What a consistent file system is, as a statement about the inodes on the disk: `Tree`. Every
directory begins with its entries `.` and `..`; every entry in use names an allocated inode; each
directory other than the root is named once, in its parent, and from parent to parent one comes to
the root; the link count of an inode is the number of entries that name it, those called `.`
excepted; and all contents fit on the disk.

The ways the system calls change the inodes keep it:

* `Tree.addFile`, `Tree.addDir` — a new entry, for a file or for a new directory;
* `Tree.removeFile`, `Tree.removeDir` — an entry cleared, the directory freed in the same step;
* `Tree.free` — an inode without links freed.

A link count never wraps around (`Tree.nlink_le`): the disk has no room for that many entries. An
inode with links can be reached from the root (`Tree.reachable`).
-/

namespace Xv6.Fs

open Framework Function

/-! ### Directories and the links they hold -/

/-- The inode number in the second slot, that of `..`. -/
def Dinode.parent (x : Dinode) : Inum :=
  match x.dirents with
  | _ :: e :: _ => e.inum
  | _ => 0

/-- The slots beyond `.` and `..`. -/
def Dinode.children (x : Dinode) : List Dirent := x.dirents.drop 2

/-- The entries of `x` that name `i` and are not called `.`. -/
def Dinode.linksTo (i : Inum) (x : Dinode) : ℕ :=
  if x.type = .dir then x.dirents.countP fun e => e.inum = i ∧ e.name ≠ dot else 0

/-- The entries that name `i`, in all directories. -/
def links (T : Inum → Dinode) (i : Inum) : ℕ := total (Dinode.linksTo i) T

/-- The slots that hold `i`. -/
def holding (i : Inum) (es : List Dirent) : ℕ := es.countP fun e => e.inum = i

structure Directory (T : Inum → Dinode) (d : Inum) : Prop where
  dots : (T d).dirents = ⟨d, dot⟩ :: ⟨(T d).parent, dotdot⟩ :: (T d).children
  names : ∀ e ∈ (T d).children, e.inum ≠ 0 → e.name ≠ dot
  parent : (T (T d).parent).type = .dir
  alloc : ∀ e ∈ (T d).children, e.inum ≠ 0 → (T e.inum).type ≠ .free
  sub : ∀ e ∈ (T d).children, (T e.inum).type = .dir →
    e.inum ≠ ROOTINO ∧ (T e.inum).parent = d
  once : d ≠ ROOTINO → holding d (T (T d).parent).children = 1

/-- From parent to parent, `d` leads to the root. -/
inductive Below (T : Inum → Dinode) : Inum → Prop where
  | root : Below T ROOTINO
  | sub {d : Inum} (hd : (T d).type = .dir) (hparent : Below T (T d).parent) : Below T d

/-- **A consistent file system.** -/
structure Tree (T : Inum → Dinode) : Prop where
  zero : (T 0).type = .free
  root : (T ROOTINO).type = .dir ∧ (T ROOTINO).parent = ROOTINO
  dirs : ∀ d, (T d).type = .dir → Directory T d
  below : ∀ d, (T d).type = .dir → Below T d
  nlink : ∀ i, (T i).type ≠ .free → (T i).nlink = links T i
  fits : used T ≤ nblocks

/-- Entries lead from the root to the inode. -/
inductive Reachable (T : Inum → Dinode) : Inum → Prop where
  | root : Reachable T ROOTINO
  | entry {d : Inum} {e : Dirent} (hreach : Reachable T d) (hd : (T d).type = .dir)
      (he : e ∈ (T d).dirents) (hinum : e.inum ≠ 0) : Reachable T e.inum

/-- No entry in use, `.` and `..` included, names a free inode. -/
def NoDangling (T : Inum → Dinode) : Prop :=
  ∀ d, (T d).type = .dir → ∀ e ∈ (T d).dirents, e.inum ≠ 0 → (T e.inum).type ≠ .free

instance (T : Inum → Dinode) : Decidable (NoDangling T) :=
  inferInstanceAs (Decidable (∀ d, (T d).type = .dir → ∀ e ∈ (T d).dirents, e.inum ≠ 0 →
    (T e.inum).type ≠ .free))

/-! ### Slots -/

theorem holding_cons (i : Inum) (e : Dirent) (es : List Dirent) :
    holding i (e :: es) = (if e.inum = i then 1 else 0) + holding i es := by
  simp only [holding, List.countP_cons, decide_eq_true_eq]
  omega

theorem holding_pos_iff {i : Inum} {es : List Dirent} :
    0 < holding i es ↔ ∃ e ∈ es, e.inum = i := by
  simp [holding, List.countP_pos_iff]

theorem mem_place {e e' : Dirent} {es : List Dirent} (h : e' ∈ place e es) : e' = e ∨ e' ∈ es := by
  induction es with
  | nil => exact .inl (List.mem_singleton.mp h)
  | cons d ds ih =>
    simp only [place] at h
    split at h
    · rcases List.mem_cons.mp h with rfl | h
      · exact .inl rfl
      · exact .inr (List.mem_cons_of_mem d h)
    · rcases List.mem_cons.mp h with rfl | h
      · exact .inr List.mem_cons_self
      · exact (ih h).imp_right (List.mem_cons_of_mem d)

/-- The slot that is filled held no inode number but 0. -/
theorem holding_place {i : Inum} (hi : i ≠ 0) (e : Dirent) (es : List Dirent) :
    holding i (place e es) = holding i es + if e.inum = i then 1 else 0 := by
  induction es with
  | nil => simp [place, holding]
  | cons d ds ih =>
    simp only [place]
    split
    · next hd =>
      rw [holding_cons, holding_cons, hd, if_neg hi.symm]
      omega
    · rw [holding_cons, holding_cons, ih]
      omega

theorem holding_clear {i : Inum} (hi : i ≠ 0) {e : Dirent} {es : List Dirent} {k : ℕ}
    (hk : es[k]? = some e) :
    holding i (es.set k ⟨0, []⟩) + (if e.inum = i then 1 else 0) = holding i es := by
  induction es generalizing k with
  | nil => cases hk
  | cons d ds ih =>
    cases k with
    | zero =>
      obtain rfl : d = e := Option.some.inj hk
      rw [List.set_cons_zero, holding_cons, holding_cons, if_neg hi.symm]
      omega
    | succ k =>
      have := ih hk
      rw [List.set_cons_succ, holding_cons, holding_cons]
      omega

/-! ### What a directory holds -/

section Shape

variable {x : Dinode} {d p i : Inum} {cs : List Dirent}

theorem parent_of_dirents (h : x.dirents = ⟨d, dot⟩ :: ⟨p, dotdot⟩ :: cs) : x.parent = p := by
  rw [Dinode.parent, h]

theorem children_of_dirents (h : x.dirents = ⟨d, dot⟩ :: ⟨p, dotdot⟩ :: cs) : x.children = cs := by
  rw [Dinode.children, h]
  rfl

theorem linksTo_of_not_dir (h : x.type ≠ .dir) : x.linksTo i = 0 := if_neg h

/-- The entry `..` and the children are what links to an inode. -/
theorem linksTo_of_dirents (ht : x.type = .dir) (h : x.dirents = ⟨d, dot⟩ :: ⟨p, dotdot⟩ :: cs)
    (hnames : ∀ e ∈ cs, e.inum ≠ 0 → e.name ≠ dot) (hi : i ≠ 0) :
    x.linksTo i = (if p = i then 1 else 0) + holding i cs := by
  have hcs : cs.countP (fun e => e.inum = i ∧ e.name ≠ dot) = holding i cs := by
    refine List.countP_congr fun e he => ?_
    simp only [decide_eq_true_eq, and_iff_left_iff_imp]
    intro hei
    exact hnames e he (hei ▸ hi)
  have hdd : dotdot ≠ dot := by decide
  rw [Dinode.linksTo, if_pos ht, h, List.countP_cons, List.countP_cons, hcs]
  simp only [ne_eq, not_true, and_false, decide_false, hdd, not_false_eq_true, and_true,
    decide_eq_true_eq, Bool.false_eq_true, if_false]
  omega

/-- Entries take blocks. -/
theorem linksTo_le_blocks (x : Dinode) (i : Inum) : x.linksTo i ≤ 32 * x.blocks := by
  by_cases ht : x.type = .dir
  · have hle : x.linksTo i ≤ x.dirents.length := by
      rw [Dinode.linksTo, if_pos ht]
      exact List.countP_le_length
    have hblocks : x.dirents.length ≤ 32 * x.blocks := by
      simp only [Dinode.blocks, ht, direntBlocks]
      split <;> omega
    exact hle.trans hblocks
  · rw [linksTo_of_not_dir ht]
    exact Nat.zero_le _

end Shape

/-! ### Consequences of consistency -/

namespace Tree

variable {T : Inum → Dinode} {d i : Inum}

section

variable (h : Tree T) (hd : (T d).type = .dir)

include h hd

theorem ne_zero_of_dir : d ≠ 0 := by
  rintro rfl
  rw [h.zero] at hd
  cases hd

theorem linksTo_eq (hi : i ≠ 0) :
    (T d).linksTo i = (if (T d).parent = i then 1 else 0) + holding i (T d).children :=
  linksTo_of_dirents hd (h.dirs d hd).dots (h.dirs d hd).names hi

theorem links_pos_of_child {e : Dirent} (he : e ∈ (T d).children) (hinum : e.inum ≠ 0) :
    0 < links T e.inum := by
  have hholding : 0 < holding e.inum (T d).children := holding_pos_iff.mpr ⟨e, he, rfl⟩
  have hle : (T d).linksTo e.inum ≤ links T e.inum := le_total _ T d
  have heq := h.linksTo_eq hd hinum
  omega

theorem links_parent_pos : 0 < links T (T d).parent := by
  have hle : (T d).linksTo (T d).parent ≤ links T (T d).parent := le_total _ T d
  have heq := h.linksTo_eq hd (h.ne_zero_of_dir (h.dirs d hd).parent)
  rw [if_pos rfl] at heq
  omega

/-- A directory has its entry in the parent, the root its own `..`. -/
theorem links_dir_pos : 0 < links T d := by
  by_cases hroot : d = ROOTINO
  · have hpos := h.links_parent_pos h.root.1
    rw [h.root.2] at hpos
    rw [hroot]
    exact hpos
  · have honce := (h.dirs d hd).once hroot
    obtain ⟨e, he, rfl⟩ := holding_pos_iff.mp (honce ▸ Nat.one_pos)
    exact h.links_pos_of_child (h.dirs e.inum hd).parent he (h.ne_zero_of_dir hd)

/-- An inode that an entry names is allocated and linked. -/
theorem named {e : Dirent} (he : e ∈ (T d).dirents) (hinum : e.inum ≠ 0) :
    (T e.inum).type ≠ .free ∧ 0 < links T e.inum := by
  have hdir := h.dirs d hd
  have hne : ∀ {j : Inum}, (T j).type = .dir → (T j).type ≠ .free := by
    intro j hj hfree
    rw [hj] at hfree
    cases hfree
  rw [hdir.dots, List.mem_cons, List.mem_cons] at he
  rcases he with rfl | rfl | he
  · exact ⟨hne hd, h.links_dir_pos hd⟩
  · exact ⟨hne hdir.parent, h.links_parent_pos hd⟩
  · exact ⟨hdir.alloc e he hinum, h.links_pos_of_child hd he hinum⟩

end

theorem noDangling (h : Tree T) : NoDangling T :=
  fun _ hd _ he hinum => (h.named hd he hinum).1

theorem reachable_dir (h : Tree T) (hd : (T d).type = .dir) : Reachable T d := by
  -- each directory on the way from the root is named in the one above it
  have hall : ∀ d, Below T d → (T d).type = .dir → Reachable T d := by
    intro d hbelow
    induction hbelow with
    | root => exact fun _ => .root
    | @sub d hdir _ ih =>
      intro _
      by_cases hroot : d = ROOTINO
      · rw [hroot]
        exact .root
      have hparent := (h.dirs d hdir).parent
      have honce := (h.dirs d hdir).once hroot
      obtain ⟨e, he, rfl⟩ := holding_pos_iff.mp (honce ▸ Nat.one_pos)
      refine .entry (ih hparent) hparent ?_ (h.ne_zero_of_dir hdir)
      rw [(h.dirs _ hparent).dots]
      exact List.mem_cons_of_mem _ (List.mem_cons_of_mem _ he)
  exact hall d (h.below d hd) hd

/-- **An inode with links can be reached from the root.** -/
theorem reachable (h : Tree T) (hlinks : 0 < links T i) (hi : i ≠ 0) : Reachable T i := by
  obtain ⟨d, hpos⟩ := total_pos_iff.mp hlinks
  have hd : (T d).type = .dir := by
    by_contra hnot
    rw [linksTo_of_not_dir hnot] at hpos
    cases hpos
  rw [Dinode.linksTo, if_pos hd] at hpos
  obtain ⟨e, he, hei⟩ := List.countP_pos_iff.mp hpos
  obtain ⟨rfl, -⟩ := of_decide_eq_true hei
  exact .entry (h.reachable_dir hd) hd he hi

/-- The disk has no room for as many entries as a `short` can count. -/
theorem nlink_le (h : Tree T) (hi : (T i).type ≠ .free) : (T i).nlink ≤ 32 * nblocks := by
  have hlinks : links T i ≤ 32 * used T := by
    calc links T i ≤ total (fun x => 32 * x.blocks) T :=
          total_le_total fun d => linksTo_le_blocks (T d) i
      _ = 32 * used T := total_mul 32 Dinode.blocks T
  have hfits := h.fits
  rw [h.nlink i hi]
  omega

end Tree

/-! ### Changes of one directory and one inode -/

/-- The tables differ in the directory `dp`, and there in the slots that hold `i`, and in the inode
`i` itself. -/
structure Rewrites (T T' : Inum → Dinode) (dp i : Inum) : Prop where
  dir : (T dp).type = .dir
  dir' : (T' dp).type = .dir
  ne : i ≠ dp
  dots : (T' dp).dirents = ⟨dp, dot⟩ :: ⟨(T dp).parent, dotdot⟩ :: (T' dp).children
  names : ∀ e ∈ (T' dp).children, e.inum ≠ 0 → e.name ≠ dot
  keep : ∀ e ∈ (T' dp).children, e.inum ≠ 0 → e.inum ≠ i → e ∈ (T dp).children
  hold : ∀ j, j ≠ 0 → j ≠ i → holding j (T' dp).children = holding j (T dp).children
  rest : ∀ j, j ≠ i → j ≠ dp → T' j = T j

namespace Rewrites

variable {T T' : Inum → Dinode} {dp i : Inum}

theorem type_eq (hr : Rewrites T T' dp i) {j : Inum} (hj : j ≠ i) : (T' j).type = (T j).type := by
  by_cases hjd : j = dp
  · rw [hjd, hr.dir, hr.dir']
  · rw [hr.rest j hj hjd]

theorem parent_eq (hr : Rewrites T T' dp i) {j : Inum} (hj : j ≠ i) :
    (T' j).parent = (T j).parent := by
  by_cases hjd : j = dp
  · rw [hjd]
    exact parent_of_dirents hr.dots
  · rw [hr.rest j hj hjd]

theorem hold_eq (hr : Rewrites T T' dp i) {d j : Inum} (hd : d ≠ i) (hj0 : j ≠ 0) (hj : j ≠ i) :
    holding j (T' d).children = holding j (T d).children := by
  by_cases hdd : d = dp
  · rw [hdd]
    exact hr.hold j hj0 hj
  · rw [hr.rest d hd hdd]

/-- Only the links to `i`, and those that `i` holds, change. -/
theorem links_eq (h : Tree T) (hr : Rewrites T T' dp i) {j : Inum} (hj0 : j ≠ 0) (hj : j ≠ i) :
    links T' j + (T i).linksTo j = links T j + (T' i).linksTo j := by
  have hagree : links T' j + (T i).linksTo j + (T dp).linksTo j =
      links T j + (T' i).linksTo j + (T' dp).linksTo j := total_of_agree _ hr.ne hr.rest
  have hdp : (T' dp).linksTo j = (T dp).linksTo j := by
    rw [linksTo_of_dirents hr.dir' hr.dots hr.names hj0, h.linksTo_eq hr.dir hj0, hr.hold j hj0 hj]
  omega

/-- A directory other than `i` stays one, if what it says about `i` is still right. -/
theorem directory (h : Tree T) (hr : Rewrites T T' dp i) {d : Inum} (hd : (T d).type = .dir)
    (hdi : d ≠ i) (hparent : (T d).parent ≠ i)
    (hentry : ∀ e ∈ (T' d).children, e.inum = i →
      (T' i).type ≠ .free ∧ ((T' i).type = .dir → i ≠ ROOTINO ∧ (T' i).parent = d)) :
    Directory T' d := by
  have hold := h.dirs d hd
  -- an entry for another inode was there before
  have hkeep : ∀ e ∈ (T' d).children, e.inum ≠ 0 → e.inum ≠ i → e ∈ (T d).children := by
    intro e he
    by_cases hdd : d = dp
    · subst hdd
      exact hr.keep e he
    · rw [hr.rest d hdi hdd] at he
      exact fun _ _ => he
  exact {
    dots := by
      by_cases hdd : d = dp
      · subst hdd
        rw [hr.parent_eq hdi]
        exact hr.dots
      · rw [hr.rest d hdi hdd]
        exact hold.dots
    names := by
      by_cases hdd : d = dp
      · subst hdd
        exact hr.names
      · rw [hr.rest d hdi hdd]
        exact hold.names
    parent := by
      rw [hr.parent_eq hdi, hr.type_eq hparent]
      exact hold.parent
    alloc := by
      intro e he hinum
      by_cases hei : e.inum = i
      · rw [hei]
        exact (hentry e he hei).1
      · rw [hr.type_eq hei]
        exact hold.alloc e (hkeep e he hinum hei) hinum
    sub := by
      intro e he htype
      by_cases hei : e.inum = i
      · rw [hei] at htype ⊢
        exact (hentry e he hei).2 htype
      · rw [hr.type_eq hei] at htype
        rw [hr.parent_eq hei]
        exact hold.sub e (hkeep e he (h.ne_zero_of_dir htype) hei) htype
    once := by
      intro hroot
      rw [hr.parent_eq hdi, hr.hold_eq hparent (h.ne_zero_of_dir hd) hdi]
      exact hold.once hroot }

end Rewrites

/-- The way up to the root stays, if it does not lead through `i`. -/
theorem Below.transfer {T T' : Inum → Dinode} {i d : Inum}
    (hkeep : ∀ d, (T d).type = .dir → d ≠ i →
      (T' d).type = .dir ∧ (T' d).parent = (T d).parent ∧ (T d).parent ≠ i)
    (h : Below T d) (hd : d ≠ i) : Below T' d := by
  induction h with
  | root => exact .root
  | sub hdir _ ih =>
    obtain ⟨htype, hparent, hne⟩ := hkeep _ hdir hd
    refine .sub htype ?_
    rw [hparent]
    exact ih hne

/-- **The change rule.** What is left to show of a change of the entries for `i` in `dp` concerns
`i` itself, and the link that a directory `i` holds to its parent `dp`. -/
theorem Tree.rewrite {T T' : Inum → Dinode} {dp i : Inum} (h : Tree T) (hr : Rewrites T T' dp i)
    (hzero : i ≠ 0) (hroot : i ≠ ROOTINO)
    (hparent : ∀ d, (T d).type = .dir → d ≠ i → (T d).parent ≠ i)
    (hentry : ∀ d, (T d).type = .dir → d ≠ i → ∀ e ∈ (T' d).children, e.inum = i →
      (T' i).type ≠ .free ∧ ((T' i).type = .dir → (T' i).parent = d))
    (hdir : (T' i).type = .dir → Directory T' i ∧ (T' i).parent = dp)
    (hnlink : (T' i).type ≠ .free → (T' i).nlink = links T' i)
    (hdp : (T' dp).nlink + (T i).linksTo dp = (T dp).nlink + (T' i).linksTo dp)
    (hlinks : ∀ j, j ≠ 0 → j ≠ i → j ≠ dp → (T i).linksTo j = (T' i).linksTo j)
    (hfits : used T' ≤ nblocks) : Tree T' where
  zero := by
    rw [hr.type_eq hzero.symm]
    exact h.zero
  root := by
    rw [hr.type_eq hroot.symm, hr.parent_eq hroot.symm]
    exact h.root
  dirs := by
    intro d hd
    by_cases hdi : d = i
    · rw [hdi] at hd ⊢
      exact (hdir hd).1
    · rw [hr.type_eq hdi] at hd
      refine hr.directory h hd hdi (hparent d hd hdi) fun e he hei => ?_
      exact (hentry d hd hdi e he hei).imp_right fun hpar htype => ⟨hroot, hpar htype⟩
  below := by
    have hup : ∀ d, (T d).type = .dir → d ≠ i → Below T' d := by
      intro d hd hdi
      refine (h.below d hd).transfer (fun d hd hdi => ?_) hdi
      exact ⟨(hr.type_eq hdi).trans hd, hr.parent_eq hdi, hparent d hd hdi⟩
    intro d hd
    by_cases hdi : d = i
    · rw [hdi] at hd ⊢
      refine .sub hd ?_
      rw [(hdir hd).2]
      exact hup dp hr.dir hr.ne.symm
    · rw [hr.type_eq hdi] at hd
      exact hup d hd hdi
  nlink := by
    intro j hj
    by_cases hji : j = i
    · rw [hji] at hj ⊢
      exact hnlink hj
    rw [hr.type_eq hji] at hj
    have hj0 : j ≠ 0 := by
      rintro rfl
      exact hj h.zero
    have heq := hr.links_eq h hj0 hji
    have hold := h.nlink j hj
    by_cases hjd : j = dp
    · subst hjd
      omega
    · have hsame := hlinks j hj0 hji hjd
      rw [hr.rest j hji hjd]
      omega
  fits := hfits

/-! ### New entries -/

section Place

variable {T T' : Inum → Dinode} {dp i : Inum} {name : Name}

theorem place_dirents (h : Tree T) (hdp : (T dp).type = .dir) (e : Dirent) :
    place e (T dp).dirents =
      ⟨dp, dot⟩ :: ⟨(T dp).parent, dotdot⟩ :: place e (T dp).children := by
  have hdir := h.dirs dp hdp
  rw [hdir.dots, place, if_neg (h.ne_zero_of_dir hdp), place,
    if_neg (h.ne_zero_of_dir hdir.parent)]

theorem Rewrites.of_place (h : Tree T) (hdp : (T dp).type = .dir) (hne : i ≠ dp)
    (hname : name ≠ dot) (htype : (T' dp).type = .dir)
    (hdirents : (T' dp).dirents = place ⟨i, name⟩ (T dp).dirents)
    (hrest : ∀ j, j ≠ i → j ≠ dp → T' j = T j) :
    Rewrites T T' dp i ∧ (i ≠ 0 →
      holding i (T' dp).children = holding i (T dp).children + 1) := by
  rw [place_dirents h hdp] at hdirents
  have hchildren : (T' dp).children = place ⟨i, name⟩ (T dp).children :=
    children_of_dirents hdirents
  refine ⟨?_, fun hi => by rw [hchildren, holding_place hi, if_pos rfl]⟩
  exact {
    dir := hdp
    dir' := htype
    ne := hne
    dots := by rw [hchildren, hdirents]
    names := by
      intro e he hinum
      rw [hchildren] at he
      rcases mem_place he with rfl | he
      · exact hname
      · exact (h.dirs dp hdp).names e he hinum
    keep := by
      intro e he _ hei
      rw [hchildren] at he
      rcases mem_place he with rfl | he
      · exact absurd rfl hei
      · exact he
    hold := by
      intro j hj0 hj
      rw [hchildren, holding_place hj0, if_neg (Ne.symm hj), Nat.add_zero]
    rest := hrest }

end Place

/-- What links to `i` beyond the entries of `dp` is as before. -/
theorem links_self {T T' : Inum → Dinode} {dp i : Inum} (h : Tree T) (hr : Rewrites T T' dp i)
    (hi : i ≠ 0) :
    links T' i + (T i).linksTo i + holding i (T dp).children =
      links T i + (T' i).linksTo i + holding i (T' dp).children := by
  have hagree : links T' i + (T i).linksTo i + (T dp).linksTo i =
      links T i + (T' i).linksTo i + (T' dp).linksTo i := total_of_agree _ hr.ne hr.rest
  rw [linksTo_of_dirents hr.dir' hr.dots hr.names hi, h.linksTo_eq hr.dir hi] at hagree
  omega

/-- **A new entry for a file**, whether the file is new or gets one more link. -/
theorem Tree.addFile {T T' : Inum → Dinode} {dp i : Inum} {name : Name} (h : Tree T)
    (hdp : (T dp).type = .dir) (hi0 : i ≠ 0) (hi : (T i).type ≠ .dir) (hname : name ≠ dot)
    (hT'dp : T' dp = (T dp).addEntry ⟨i, name⟩) (htype : (T' i).type ≠ .dir)
    (halloc : (T' i).type ≠ .free) (hnlink : (T' i).nlink = links T i + 1)
    (hrest : ∀ j, j ≠ i → j ≠ dp → T' j = T j) (hfits : used T' ≤ nblocks) : Tree T' := by
  have hne : i ≠ dp := by
    rintro rfl
    exact hi hdp
  obtain ⟨hr, hholding⟩ := Rewrites.of_place h hdp hne hname (by rw [hT'dp]; exact hdp)
    (by rw [hT'dp]; rfl) hrest
  have hself := links_self h hr hi0
  rw [hholding hi0, linksTo_of_not_dir hi, linksTo_of_not_dir htype] at hself
  refine h.rewrite hr hi0 ?_ ?_ ?_ ?_ ?_ ?_ ?_ hfits
  · rintro rfl
    exact hi h.root.1
  · rintro d hd - hparent
    exact hi (hparent ▸ (h.dirs d hd).parent)
  · intro d _ _ e _ _
    exact ⟨halloc, fun hdir => absurd hdir htype⟩
  · exact fun hdir => absurd hdir htype
  · intro _
    rw [hnlink]
    omega
  · rw [linksTo_of_not_dir hi, linksTo_of_not_dir htype, hT'dp]
    rfl
  · intro j _ _ _
    rw [linksTo_of_not_dir hi, linksTo_of_not_dir htype]

/-- Nothing links to a free inode. -/
theorem Tree.holding_free {T : Inum → Dinode} {d i : Inum} (h : Tree T) (hd : (T d).type = .dir)
    (hi0 : i ≠ 0) (hi : (T i).type = .free) : holding i (T d).children = 0 := by
  by_contra hne
  obtain ⟨e, he, rfl⟩ := holding_pos_iff.mp (Nat.pos_of_ne_zero hne)
  exact (h.dirs d hd).alloc e he hi0 hi

theorem Tree.links_free {T : Inum → Dinode} {i : Inum} (h : Tree T) (hi0 : i ≠ 0)
    (hi : (T i).type = .free) : links T i = 0 := by
  refine total_eq_zero_iff.mpr fun d => ?_
  by_cases hd : (T d).type = .dir
  · have hparent : (T d).parent ≠ i := by
      rintro rfl
      have := (h.dirs d hd).parent
      rw [hi] at this
      cases this
    rw [h.linksTo_eq hd hi0, if_neg hparent, h.holding_free hd hi0 hi]
  · exact linksTo_of_not_dir hd

/-- **A new directory.** Its entry `..` is one more link to the parent. -/
theorem Tree.addDir {T T' : Inum → Dinode} {dp i : Inum} {name : Name} (h : Tree T)
    (hdp : (T dp).type = .dir) (hi0 : i ≠ 0) (hi : (T i).type = .free) (hname : name ≠ dot)
    (hdp' : (T' dp).type = .dir) (hdirents : (T' dp).dirents = place ⟨i, name⟩ (T dp).dirents)
    (hnlink : (T' dp).nlink = (T dp).nlink + 1) (htype : (T' i).type = .dir)
    (hdots : (T' i).dirents = [⟨i, dot⟩, ⟨dp, dotdot⟩]) (hone : (T' i).nlink = 1)
    (hrest : ∀ j, j ≠ i → j ≠ dp → T' j = T j) (hfits : used T' ≤ nblocks) : Tree T' := by
  have hnotdir : (T i).type ≠ .dir := by rw [hi]; decide
  have hne : i ≠ dp := by
    rintro rfl
    exact hnotdir hdp
  obtain ⟨hr, hholding⟩ := Rewrites.of_place h hdp hne hname hdp' hdirents hrest
  have hparent' : (T' i).parent = dp := parent_of_dirents hdots
  have hchildren' : (T' i).children = [] := children_of_dirents hdots
  have hlinksTo : ∀ j, j ≠ 0 → (T' i).linksTo j = if dp = j then 1 else 0 := by
    intro j hj
    rw [linksTo_of_dirents htype hdots (by simp) hj]
    rfl
  have honce : holding i (T' dp).children = 1 := by
    rw [hholding hi0, h.holding_free hdp hi0 hi]
  have hroot : i ≠ ROOTINO := by
    rintro rfl
    exact hnotdir h.root.1
  refine h.rewrite hr hi0 hroot ?_ ?_ ?_ ?_ ?_ ?_ hfits
  · rintro d hd - hparent
    exact hnotdir (hparent ▸ (h.dirs d hd).parent)
  · intro d hd hdi e he hei
    refine ⟨by rw [htype]; decide, fun _ => ?_⟩
    rw [hparent']
    -- elsewhere there was no entry for a free inode, and there is none now
    by_contra hdd
    rw [hr.rest d hdi (Ne.symm hdd)] at he
    exact (h.dirs d hd).alloc e he (hei ▸ hi0) (hei ▸ hi)
  · intro _
    refine ⟨?_, hparent'⟩
    exact {
      dots := by rw [hparent', hchildren', hdots]
      names := by simp [hchildren']
      parent := by rw [hparent']; exact hdp'
      alloc := by simp [hchildren']
      sub := by simp [hchildren']
      once := fun _ => by rw [hparent']; exact honce }
  · intro _
    have hself := links_self h hr hi0
    rw [honce, h.holding_free hdp hi0 hi, h.links_free hi0 hi, hlinksTo i hi0,
      if_neg hne.symm, linksTo_of_not_dir hnotdir] at hself
    rw [hone]
    omega
  · rw [linksTo_of_not_dir hnotdir, hlinksTo dp (h.ne_zero_of_dir hdp), if_pos rfl, hnlink]
    simp
  · intro j hj0 _ hjd
    rw [linksTo_of_not_dir hnotdir, hlinksTo j hj0, if_neg hjd.symm]

/-! ### Entries that go -/

section Clear

variable {T T' : Inum → Dinode} {dp i : Inum} {name : Name} {off : ℕ}

/-- An entry with another name than the dots is a child. -/
theorem mem_children (h : Tree T) (hdp : (T dp).type = .dir)
    (hoff : (T dp).dirents[off]? = some ⟨i, name⟩) (hdot : name ≠ dot) (hdotdot : name ≠ dotdot) :
    ∃ k, off = k + 2 ∧ (T dp).children[k]? = some ⟨i, name⟩ := by
  rw [(h.dirs dp hdp).dots] at hoff
  match off with
  | 0 =>
    cases hoff
    exact absurd rfl hdot
  | 1 =>
    have he : (⟨(T dp).parent, dotdot⟩ : Dirent) = ⟨i, name⟩ := Option.some.inj hoff
    exact absurd (congrArg Dirent.name he).symm hdotdot
  | k + 2 => exact ⟨k, rfl, hoff⟩

theorem Rewrites.of_clear (h : Tree T) (hdp : (T dp).type = .dir) (hi0 : i ≠ 0) (hne : i ≠ dp)
    (hoff : (T dp).dirents[off]? = some ⟨i, name⟩) (hdot : name ≠ dot) (hdotdot : name ≠ dotdot)
    (htype : (T' dp).type = .dir) (hdirents : (T' dp).dirents = (T dp).dirents.set off ⟨0, []⟩)
    (hrest : ∀ j, j ≠ i → j ≠ dp → T' j = T j) :
    Rewrites T T' dp i ∧ holding i (T' dp).children + 1 = holding i (T dp).children := by
  obtain ⟨k, rfl, hk⟩ := mem_children h hdp hoff hdot hdotdot
  rw [(h.dirs dp hdp).dots, List.set_cons_succ, List.set_cons_succ] at hdirents
  have hchildren : (T' dp).children = (T dp).children.set k ⟨0, []⟩ :=
    children_of_dirents hdirents
  -- a slot in use is one that was not cleared
  have hmem : ∀ e ∈ (T' dp).children, e.inum ≠ 0 → e ∈ (T dp).children := by
    intro e he hinum
    rw [hchildren] at he
    rcases List.mem_or_eq_of_mem_set he with he | rfl
    · exact he
    · exact absurd rfl hinum
  have hcleared := @holding_clear i hi0 _ _ _ hk
  rw [if_pos rfl] at hcleared
  refine ⟨?_, by rw [hchildren]; exact hcleared⟩
  exact {
    dir := hdp
    dir' := htype
    ne := hne
    dots := by rw [hchildren, hdirents]
    names := fun e he hinum => (h.dirs dp hdp).names e (hmem e he hinum) hinum
    keep := fun e he hinum _ => hmem e he hinum
    hold := by
      intro j hj0 hj
      have := holding_clear hj0 hk
      rw [if_neg (Ne.symm hj), Nat.add_zero] at this
      rw [hchildren, this]
    rest := hrest }

/-- Removals free no less than they use. -/
theorem Rewrites.fits (h : Tree T) (hr : Rewrites T T' dp i)
    (hdp : (T' dp).blocks = (T dp).blocks) (hi : (T' i).blocks ≤ (T i).blocks) :
    used T' ≤ nblocks := by
  have hagree : used T' + (T i).blocks + (T dp).blocks =
      used T + (T' i).blocks + (T' dp).blocks := total_of_agree _ hr.ne hr.rest
  have hfits := h.fits
  omega

theorem blocks_clear {x x' : Dinode} (htype : x'.type = x.type) (hdata : x'.data = x.data)
    (hdirents : x'.dirents = x.dirents.set off ⟨0, []⟩) : x'.blocks = x.blocks := by
  rw [Dinode.blocks, Dinode.blocks, htype, hdata, hdirents, List.length_set]

/-- **An entry for a file is cleared**, with one link less to the file. -/
theorem Tree.removeFile (h : Tree T) (hdp : (T dp).type = .dir) (hi0 : i ≠ 0)
    (hi : (T i).type ≠ .dir) (hoff : (T dp).dirents[off]? = some ⟨i, name⟩) (hdot : name ≠ dot)
    (hdotdot : name ≠ dotdot) (hT'dp : T' dp = (T dp).clearEntry off)
    (hT'i : T' i = { T i with nlink := (T i).nlink - 1 })
    (hrest : ∀ j, j ≠ i → j ≠ dp → T' j = T j) : Tree T' := by
  have hne : i ≠ dp := by
    rintro rfl
    exact hi hdp
  obtain ⟨hr, hholding⟩ := Rewrites.of_clear h hdp hi0 hne hoff hdot hdotdot
    (by rw [hT'dp]; exact hdp) (by rw [hT'dp]; rfl) hrest
  have htype : (T' i).type = (T i).type := by rw [hT'i]
  have hi' : (T' i).type ≠ .dir := by
    rw [htype]
    exact hi
  have halloc : (T i).type ≠ .free :=
    (h.named hdp (List.mem_of_getElem? hoff) hi0).1
  have hself := links_self h hr hi0
  rw [linksTo_of_not_dir hi, linksTo_of_not_dir hi'] at hself
  refine h.rewrite hr hi0 ?_ ?_ ?_ ?_ ?_ ?_ ?_ ?_
  · rintro rfl
    exact hi h.root.1
  · rintro d hd - hparent
    exact hi (hparent ▸ (h.dirs d hd).parent)
  · intro d _ _ e _ _
    exact ⟨htype ▸ halloc, fun hdir => absurd hdir hi'⟩
  · exact fun hdir => absurd hdir hi'
  · intro _
    have hold := h.nlink i halloc
    rw [hT'i]
    show (T i).nlink - 1 = _
    omega
  · rw [linksTo_of_not_dir hi, linksTo_of_not_dir hi', hT'dp]
    rfl
  · intro j _ _ _
    rw [linksTo_of_not_dir hi, linksTo_of_not_dir hi']
  · refine hr.fits h ?_ ?_
    · rw [hT'dp]
      exact blocks_clear rfl rfl rfl
    · rw [hT'i]
      exact le_rfl

end Clear

/-! ### Empty directories -/

section Empty

variable {T T' : Inum → Dinode} {dp i : Inum} {name : Name} {off : ℕ}

theorem holding_of_isdirempty {x : Dinode} (h : x.isdirempty = true) {j : Inum} (hj : j ≠ 0) :
    holding j x.children = 0 := by
  by_contra hne
  obtain ⟨e, he, rfl⟩ := holding_pos_iff.mp (Nat.pos_of_ne_zero hne)
  have hzero := List.all_eq_true.mp h e he
  exact hj (of_decide_eq_true hzero)

/-- An empty directory is nobody's parent: a directory is named in its parent. -/
theorem Tree.parent_ne_of_isdirempty (h : Tree T) (hroot : i ≠ ROOTINO)
    (hempty : (T i).isdirempty = true) {d : Inum} (hd : (T d).type = .dir) : (T d).parent ≠ i := by
  intro hparent
  have hdroot : d ≠ ROOTINO := by
    rintro rfl
    rw [h.root.2] at hparent
    exact hroot hparent.symm
  have honce := (h.dirs d hd).once hdroot
  rw [hparent, holding_of_isdirempty hempty (h.ne_zero_of_dir hd)] at honce
  cases honce

/-- The one link to an empty directory is its entry in the parent. -/
theorem Tree.links_of_isdirempty (h : Tree T) (hdp : (T dp).type = .dir) (hi : (T i).type = .dir)
    {e : Dirent} (he : e ∈ (T dp).children) (hei : e.inum = i) (hempty : (T i).isdirempty = true) :
    links T i = 1 := by
  subst hei
  have hi0 := h.ne_zero_of_dir hi
  obtain ⟨hroot, hparent⟩ := (h.dirs dp hdp).sub e he hi
  have honce := (h.dirs e.inum hi).once hroot
  rw [hparent] at honce
  have hnot : ∀ d, (T d).type = .dir → (T d).parent ≠ e.inum := fun d hd =>
    h.parent_ne_of_isdirempty hroot hempty hd
  calc links T e.inum = (T dp).linksTo e.inum := by
        refine total_eq_single dp fun d hd => ?_
        by_cases hdir : (T d).type = .dir
        · rw [h.linksTo_eq hdir hi0, if_neg (hnot d hdir), Nat.zero_add]
          -- an entry in another directory would make that one the parent
          by_contra hne
          obtain ⟨e', he', hinum⟩ := holding_pos_iff.mp (Nat.pos_of_ne_zero hne)
          have hparent' := ((h.dirs d hdir).sub e' he' (hinum ▸ hi)).2
          rw [hinum, hparent] at hparent'
          exact hd hparent'.symm
        · exact linksTo_of_not_dir hdir
    _ = 1 := by rw [h.linksTo_eq hdp hi0, if_neg (hnot dp hdp), honce]

/-- **The entry for an empty directory is cleared and the directory freed**, with it the link to
its parent. -/
theorem Tree.removeDir (h : Tree T) (hdp : (T dp).type = .dir) (hi : (T i).type = .dir)
    (hempty : (T i).isdirempty = true) (hoff : (T dp).dirents[off]? = some ⟨i, name⟩)
    (hdot : name ≠ dot) (hdotdot : name ≠ dotdot) (htype : (T' dp).type = .dir)
    (hdata : (T' dp).data = (T dp).data)
    (hdirents : (T' dp).dirents = (T dp).dirents.set off ⟨0, []⟩)
    (hnlink : (T' dp).nlink = (T dp).nlink - 1) (hfree : (T' i).type = .free)
    (hrest : ∀ j, j ≠ i → j ≠ dp → T' j = T j) : Tree T' := by
  have hi0 := h.ne_zero_of_dir hi
  obtain ⟨k, -, hk⟩ := mem_children h hdp hoff hdot hdotdot
  have hmem : (⟨i, name⟩ : Dirent) ∈ (T dp).children := List.mem_of_getElem? hk
  obtain ⟨hroot, hparent⟩ := (h.dirs dp hdp).sub _ hmem hi
  have hne : i ≠ dp := by
    rintro rfl
    have hpos : 0 < holding i (T i).children := holding_pos_iff.mpr ⟨_, hmem, rfl⟩
    rw [holding_of_isdirempty hempty hi0] at hpos
    cases hpos
  obtain ⟨hr, hholding⟩ := Rewrites.of_clear h hdp hi0 hne hoff hdot hdotdot htype hdirents hrest
  have honce := (h.dirs i hi).once hroot
  have hnotdir : (T' i).type ≠ .dir := by
    rw [hfree]
    decide
  have hlinksTo : ∀ j, j ≠ 0 → (T i).linksTo j = if dp = j then 1 else 0 := by
    intro j hj
    rw [h.linksTo_eq hi hj, holding_of_isdirempty hempty hj, hparent]
    rfl
  refine h.rewrite hr hi0 hroot ?_ ?_ ?_ ?_ ?_ ?_ ?_
  · exact fun d hd _ => h.parent_ne_of_isdirempty hroot hempty hd
  · -- the entry that was cleared was the only one
    intro d hd hdi e he hei
    exfalso
    by_cases hdd : d = dp
    · subst hdd
      have hpos : 0 < holding i (T' d).children := holding_pos_iff.mpr ⟨e, he, hei⟩
      rw [hparent] at honce
      omega
    · rw [hr.rest d hdi hdd] at he
      have hparent' := ((h.dirs d hd).sub e he (hei ▸ hi)).2
      rw [hei, hparent] at hparent'
      exact hdd hparent'.symm
  · exact fun hdir => absurd hdir hnotdir
  · exact fun halloc => absurd hfree halloc
  · rw [hlinksTo dp (h.ne_zero_of_dir hdp), if_pos rfl, linksTo_of_not_dir hnotdir, hnlink]
    simp
  · intro j hj0 _ hjd
    rw [hlinksTo j hj0, if_neg hjd.symm, linksTo_of_not_dir hnotdir]
  · refine hr.fits h (blocks_clear (htype.trans hdp.symm) hdata hdirents) ?_
    rw [Dinode.blocks, hfree]
    exact Nat.zero_le _

end Empty

/-- **An inode without links is freed.** -/
theorem Tree.free {T : Inum → Dinode} {i : Inum} (h : Tree T) (hnlink : (T i).nlink = 0) :
    Tree (update T i (T i).freed) := by
  set T' := update T i (T i).freed with hT'
  have hself : T' i = (T i).freed := update_self ..
  have hrest : ∀ j, j ≠ i → T' j = T j := fun j hj => update_of_ne hj ..
  have hnotdir : (T i).type ≠ .dir := by
    intro hdir
    have hpos := h.links_dir_pos hdir
    have heq := h.nlink i (by rw [hdir]; decide)
    omega
  have hne : ∀ {d : Inum}, (T d).type = .dir → d ≠ i := by
    rintro d hd rfl
    exact hnotdir hd
  have hlinks : ∀ j, links T' j = links T j := by
    intro j
    have heq : links T' j + (T i).linksTo j = links T j + (T i).freed.linksTo j :=
      total_update _ T i _
    have hfreed : (T i).freed.type ≠ .dir := by simp [Dinode.freed]
    rw [linksTo_of_not_dir hnotdir, linksTo_of_not_dir hfreed] at heq
    omega
  exact {
    zero := by
      by_cases hi0 : (0 : Inum) = i
      · rw [hi0, hself]
        rfl
      · rw [hrest 0 hi0]
        exact h.zero
    root := by
      rw [hrest _ (hne h.root.1)]
      exact h.root
    dirs := by
      intro d hd
      have hdi : d ≠ i := by
        rintro rfl
        rw [hself] at hd
        cases hd
      rw [hrest d hdi] at hd
      have hdir := h.dirs d hd
      -- an entry for `i` would be a link to it
      have hentry : ∀ e ∈ (T d).children, e.inum ≠ 0 → e.inum ≠ i := by
        rintro e he hinum rfl
        have hpos := h.links_pos_of_child hd he hinum
        have heq := h.nlink e.inum (hdir.alloc e he hinum)
        omega
      exact {
        dots := by rw [hrest d hdi]; exact hdir.dots
        names := by rw [hrest d hdi]; exact hdir.names
        parent := by rw [hrest d hdi, hrest _ (hne hdir.parent)]; exact hdir.parent
        alloc := by
          rw [hrest d hdi]
          intro e he hinum
          rw [hrest _ (hentry e he hinum)]
          exact hdir.alloc e he hinum
        sub := by
          rw [hrest d hdi]
          intro e he htype
          by_cases hei : e.inum = i
          · rw [hei, hself] at htype
            cases htype
          · rw [hrest _ hei] at htype ⊢
            exact hdir.sub e he htype
        once := by
          rw [hrest d hdi, hrest _ (hne hdir.parent)]
          exact hdir.once }
    below := by
      intro d hd
      have hdi : d ≠ i := by
        rintro rfl
        rw [hself] at hd
        cases hd
      rw [hrest d hdi] at hd
      refine (h.below d hd).transfer (fun d hd hdi => ?_) hdi
      rw [hrest d hdi]
      exact ⟨hd, rfl, hne (h.dirs d hd).parent⟩
    nlink := by
      intro j hj
      by_cases hji : j = i
      · rw [hji, hself] at hj
        exact absurd rfl hj
      · rw [hrest j hji] at hj ⊢
        rw [hlinks j]
        exact h.nlink j hj
    fits := by
      have heq : used T' + (T i).blocks = used T + (T i).freed.blocks := total_update _ T i _
      have hfreed : (T i).freed.blocks = 0 := rfl
      have hfits := h.fits
      omega }

end Xv6.Fs
