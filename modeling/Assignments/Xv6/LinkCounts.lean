import Assignments.Xv6.Consistency

/-!
# Link counts

On an image that `mkfs` has made, the link count of an inode is the number of entries that name it,
after every sequence of calls that removes no directory which is in use. A directory that is removed
while a process is in it breaks the count of its parent: `sys_unlink` lowers that count at once, but
the entry `..` that it stands for stays until the process leaves.

* `nlink_exact` — the counts, when an inode is allocated, and that it can be reached;
* `nlink_removeCwd` — the count of the root after a process has removed its working directory.
-/

namespace Xv6.Fs

open Framework

/-- An inode is in use: a file is open on it, or it is a working directory. -/
def State.InUse (s : State) (i : Inum) : Prop := ∃ ip, 0 < (s.icache ip).ref ∧ s.inum ip = i

/-- A process removes its working directory. -/
def removeCwd : List (Fin NPROC × Call) :=
  [(0, .mkdir (some ['a'])), (0, .chdir (some ['a'])), (0, .unlink (some ['/', 'a']))]

/-- Two entries name the root then, its own `..` and that of the directory that is still in use; the
root counts one. -/
theorem nlink_removeCwd :
    ((mkfs []).bind fun image => run State.next (boot image) removeCwd).map
        (fun s => ((s.inodes ROOTINO).type, (s.inodes ROOTINO).nlink, links s.inodes ROOTINO)) =
      some (.dir, 1, 2) := by
  decide +kernel

/-- **Link counts are exact.** From an image of `mkfs` with no file called `.`, in every run that
removes no directory which is in use: the count of every allocated inode is the number of entries
that name it, those called `.` excepted; an inode is allocated just if an entry names it or it is in
use; and one with links can be reached from the root. The entries of the first root must not fill
its last block: with a hole in the root (`Mkfs.fixSize`) the disk and the memory differ, and the
model has one record for both. -/
theorem nlink_exact (args : List Arg) (image : Inum → Dinode) (hmkfs : mkfs args = some image)
    (_hpart : (args.length + 2) % 32 ≠ 0) (hnames : ∀ a ∈ args, a.entryName ≠ dot)
    (calls : List (Fin NPROC × Call)) (hquiet : Along State.next Quiet (boot image) calls)
    (s : State) (hrun : run State.next (boot image) calls = some s) :
    (∀ i, (s.inodes i).type ≠ .free → (s.inodes i).nlink = links s.inodes i) ∧
      (∀ i, i ≠ 0 → ((s.inodes i).type ≠ .free ↔ 0 < links s.inodes i ∨ s.InUse i)) ∧
      ∀ i, (s.inodes i).type ≠ .free → 0 < (s.inodes i).nlink → Reachable s.inodes i := by
  obtain ⟨himage, hlinked⟩ := mkfs_tree hmkfs hnames
  have hs := run_consistent himage hquiet hrun
  have htree := hs.sane.tree
  refine ⟨htree.nlink, fun i hi0 => ⟨fun halloc => ?_, ?_⟩, fun i halloc hpos => ?_⟩
  · -- no inode was without links to begin with, so those without links now are in use
    have hnlink := htree.nlink i halloc
    by_cases hzero : links s.inodes i = 0
    · rw [hzero] at hnlink
      rcases hs.sane.busy.kept i halloc hnlink with huse | ⟨halloc', hlost⟩
      · exact .inr huse
      · exact absurd hlost (hlinked i halloc')
    · exact .inl (Nat.pos_of_ne_zero hzero)
  · rintro (hpos | ⟨ip, hpos, rfl⟩) hfree
    · rw [htree.links_free hi0 hfree] at hpos
      cases hpos
    · exact (hs.sane.busy.entry ip).alloc hpos hfree
  · refine htree.reachable ?_ (htree.ne_zero_of_alloc halloc)
    have hnlink := htree.nlink i halloc
    omega

def catAndReadme : List Arg := [⟨['_', 'c', 'a', 't'], 1000⟩, ⟨['R'], 10⟩]

/-- One of two files gets a second link, and a directory is made and removed. -/
def relink : List (Fin NPROC × Call) :=
  [(0, .link (some ['R']) (some ['x'])), (0, .mkdir (some ['d'])), (0, .unlink (some ['R'])),
    (0, .unlink (some ['d']))]

theorem nlink_exact_relink :
    ∃ image s, mkfs catAndReadme = some image ∧ run State.next (boot image) relink = some s ∧
      ∀ i, (s.inodes i).type ≠ .free → (s.inodes i).nlink = links s.inodes i := by
  have hok : (mkfs catAndReadme).any (fun image =>
      decide (Along State.next Quiet (boot image) relink) &&
        (run State.next (boot image) relink).isSome) = true := by decide +kernel
  obtain ⟨image, himage, hboth⟩ := (Option.any_eq_true ..).mp hok
  obtain ⟨hquiet, hsome⟩ := Bool.and_eq_true_iff.mp hboth
  obtain ⟨s, hs⟩ := Option.isSome_iff_exists.mp hsome
  exact ⟨image, s, himage, hs, (nlink_exact _ image himage (by decide) (by decide) _
    (of_decide_eq_true hquiet) s hs).1⟩

end Xv6.Fs
