import Assignments.Framework.Basic

/-!
# Redo logs

A redo log makes a group of writes atomic. The new contents are first copied to the slots of the
log; the header, which lists the addresses they belong to, is written last and commits the group;
then the slots are copied to their home addresses, and an empty header ends it. A recovery does the
last two steps again.

What such a disk stands for is `contents`: at an address that the header lists it is the slot, at
any other the home block. A group is atomic because only the write of the header changes it:

* `contents_congr` — not the writes to slots beyond the header, nor those to listed addresses;
* `contents_of_installed` — nor the write of an empty header once every slot is installed;
* `contents_commit` — and the write of the header makes it the contents with the group applied.
-/

namespace Framework.RedoLog

variable {Addr Data : Type} [DecidableEq Addr]

/-! ### Groups of writes -/

/-- Writes in the order they are made. -/
abbrev Group (Addr Data : Type) : Type := List (Addr × Data)

def applyGroup (f : Addr → Data) (group : Group Addr Data) : Addr → Data :=
  group.foldl (fun f w => Function.update f w.1 w.2) f

def applyGroups (f : Addr → Data) (groups : List (Group Addr Data)) : Addr → Data :=
  groups.foldl applyGroup f

theorem applyGroup_concat (f : Addr → Data) (group : Group Addr Data) (a : Addr) (x : Data) :
    applyGroup f (group ++ [(a, x)]) = Function.update (applyGroup f group) a x :=
  List.foldl_append

theorem applyGroups_concat (f : Addr → Data) (groups : List (Group Addr Data))
    (group : Group Addr Data) :
    applyGroups f (groups ++ [group]) = applyGroup (applyGroups f groups) group :=
  List.foldl_append

/-! ### The disk -/

structure Disk (Addr Data : Type) where
  home : Addr → Data
  slots : ℕ → Data
  header : List Addr

/-- The contents a recovery would bring home. -/
def contents (d : Disk Addr Data) (a : Addr) : Data :=
  if a ∈ d.header then d.slots (d.header.idxOf a) else d.home a

/-- The first `k` slots are at home. -/
def Installed (d : Disk Addr Data) (k : ℕ) : Prop :=
  ∀ i a, i < k → d.header[i]? = some a → d.home a = d.slots i

variable {d d' : Disk Addr Data} {a : Addr}

theorem contents_of_header_nil (h : d.header = []) : contents d a = d.home a := by
  unfold contents
  rw [h, if_neg List.not_mem_nil]

/-- Writes to slots the header does not use and to addresses it lists do not show. -/
theorem contents_congr (hheader : d'.header = d.header)
    (hslots : ∀ i < d.header.length, d'.slots i = d.slots i)
    (hhome : a ∉ d.header → d'.home a = d.home a) : contents d' a = contents d a := by
  unfold contents
  rw [hheader]
  split_ifs with ha
  · exact hslots _ (List.idxOf_lt_length_iff.mpr ha)
  · exact hhome ha

/-- **The commit.** With the new contents `f` of the listed addresses in the slots, and `f` at home
elsewhere, the disk stands for `f`. -/
theorem contents_commit {f : Addr → Data}
    (hslots : ∀ i a, d.header[i]? = some a → d.slots i = f a)
    (hhome : a ∉ d.header → d.home a = f a) : contents d a = f a := by
  unfold contents
  split_ifs with ha
  · exact hslots _ a (List.getElem?_idxOf ha)
  · exact hhome ha

/-- Once every slot is at home the header can go. -/
theorem contents_of_installed (h : Installed d d.header.length) : contents d a = d.home a := by
  unfold contents
  split_ifs with ha
  · exact (h _ a (List.idxOf_lt_length_iff.mpr ha) (List.getElem?_idxOf ha)).symm
  · rfl

omit [DecidableEq Addr] in
/-- Copying slot `k` home. -/
theorem Installed.step {k : ℕ} (h : Installed d k) (hnodup : d.header.Nodup)
    (hk : d.header[k]? = some a) (hheader : d'.header = d.header)
    (hslots : ∀ i < d.header.length, d'.slots i = d.slots i) (hhome : d'.home a = d.slots k)
    (hother : ∀ b ∈ d.header, b ≠ a → d'.home b = d.home b) : Installed d' (k + 1) := by
  intro i b hi hb
  rw [hheader] at hb
  have hilen : i < d.header.length := (List.getElem?_eq_some_iff.mp hb).1
  rw [hslots i hilen]
  rcases Nat.lt_succ_iff_lt_or_eq.mp hi with hlt | rfl
  · have hne : b ≠ a := by
      rintro rfl
      have hik := (List.getElem?_inj hilen hnodup).mp (hb.trans hk.symm)
      exact absurd hik (Nat.ne_of_lt hlt)
    rw [hother b (List.mem_of_getElem? hb) hne]
    exact h i b hlt hb
  · obtain rfl : b = a := Option.some.inj (hb.symm.trans hk)
    exact hhome

end Framework.RedoLog
