import Assignments.Framework.Basic

/-!
# Finite maps kept in key order

`SortedMap κ ν` is a finite map held as the list of its entries in strictly increasing key
order, the order in which an ordered container iterates. The order is a field of the structure,
so a map with a repeated or misplaced key cannot be built, and two maps with the same lookups
are equal (`SortedMap.ext_find?`).

* `find?`, `insert`, `erase`, `size` — the four operations of a container;
* `find?_insert`, `find?_erase` — their lookup equations;
* `size_insert_of_find?_none`, `size_erase_of_find?_some` — how they move the size;
* `foldl_insert_entries` — a map is rebuilt from its entries.
-/

namespace Framework

/-- A finite map as the list of its entries in strictly increasing key order. -/
structure SortedMap (κ ν : Type) [LinearOrder κ] where
  entries : List (κ × ν)
  /-- The keys increase strictly along the list. -/
  sorted : entries.Pairwise (fun a b => a.1 < b.1)

namespace SortedMap

variable {κ ν : Type} [LinearOrder κ]

instance [DecidableEq ν] : DecidableEq (SortedMap κ ν) := fun m m' =>
  decidable_of_iff (m.entries = m'.entries) ⟨fun h => by cases m; cases m'; simp_all,
    fun h => by rw [h]⟩

/-! ### The operations -/

/-- The map with no entry. -/
def empty : SortedMap κ ν := ⟨[], List.Pairwise.nil⟩

instance : Inhabited (SortedMap κ ν) := ⟨empty⟩

/-- The value stored under `k`, if any. -/
def find? (m : SortedMap κ ν) (k : κ) : Option ν :=
  (m.entries.find? fun e => e.1 = k).map Prod.snd

/-- The number of entries. -/
def size (m : SortedMap κ ν) : ℕ := m.entries.length

/-- Insertion into the entry list: the entry goes before the first larger key, or replaces the
entry of the same key. -/
def insertEntry (k : κ) (v : ν) : List (κ × ν) → List (κ × ν)
  | [] => [(k, v)]
  | e :: l =>
    if k < e.1 then (k, v) :: e :: l
    else if k = e.1 then (k, v) :: l
    else e :: insertEntry k v l

theorem mem_insertEntry {k : κ} {v : ν} {l : List (κ × ν)} {e : κ × ν}
    (h : e ∈ insertEntry k v l) : e = (k, v) ∨ e ∈ l := by
  induction l with
  | nil => simpa [insertEntry] using h
  | cons a l ih =>
    unfold insertEntry at h
    split_ifs at h with h₁ h₂
    · simpa using h
    · rcases List.mem_cons.mp h with h | h
      · exact Or.inl h
      · exact Or.inr (List.mem_cons_of_mem a h)
    · rcases List.mem_cons.mp h with h | h
      · exact Or.inr (h ▸ List.mem_cons_self)
      · exact (ih h).imp id (List.mem_cons_of_mem a)

theorem sorted_insertEntry (k : κ) (v : ν) {l : List (κ × ν)}
    (hl : l.Pairwise (fun a b => a.1 < b.1)) :
    (insertEntry k v l).Pairwise (fun a b => a.1 < b.1) := by
  induction l with
  | nil => simp [insertEntry]
  | cons a l ih =>
    rw [List.pairwise_cons] at hl
    unfold insertEntry
    split_ifs with h₁ h₂
    · refine List.pairwise_cons.mpr ⟨fun b hb => ?_, List.pairwise_cons.mpr hl⟩
      rcases List.mem_cons.mp hb with rfl | hb
      · exact h₁
      · exact h₁.trans (hl.1 b hb)
    · exact List.pairwise_cons.mpr ⟨fun b hb => h₂ ▸ hl.1 b hb, hl.2⟩
    · refine List.pairwise_cons.mpr ⟨fun b hb => ?_, ih hl.2⟩
      rcases mem_insertEntry hb with rfl | hb
      · exact lt_of_le_of_ne (not_lt.mp h₁) (Ne.symm h₂)
      · exact hl.1 b hb

/-- Store `v` under `k`, replacing what was there. -/
def insert (m : SortedMap κ ν) (k : κ) (v : ν) : SortedMap κ ν :=
  ⟨insertEntry k v m.entries, sorted_insertEntry k v m.sorted⟩

/-- Drop the entry of `k`, if there is one. -/
def erase (m : SortedMap κ ν) (k : κ) : SortedMap κ ν :=
  ⟨m.entries.filter (fun e => e.1 ≠ k), m.sorted.filter _⟩

/-! ### Lookups and entries -/

/-- Two entries under one key are the same entry. -/
theorem entry_unique (m : SortedMap κ ν) {k : κ} {v w : ν}
    (hv : (k, v) ∈ m.entries) (hw : (k, w) ∈ m.entries) : v = w := by
  by_contra hne
  have hpw := m.sorted
  rw [List.pairwise_iff_getElem] at hpw
  obtain ⟨i, hi, hiv⟩ := List.mem_iff_getElem.mp hv
  obtain ⟨j, hj, hjw⟩ := List.mem_iff_getElem.mp hw
  rcases lt_trichotomy i j with h | h | h
  · have := hpw i j hi hj h; rw [hiv, hjw] at this; exact lt_irrefl _ this
  · subst h; rw [hiv] at hjw; exact hne (Prod.mk.inj hjw).2
  · have := hpw j i hj hi h; rw [hiv, hjw] at this; exact lt_irrefl _ this

theorem mem_entries_iff (m : SortedMap κ ν) (k : κ) (v : ν) :
    (k, v) ∈ m.entries ↔ m.find? k = some v := by
  unfold find?
  constructor
  · intro h
    cases hf : m.entries.find? (fun e => e.1 = k) with
    | none =>
      rw [List.find?_eq_none] at hf
      exact absurd (hf (k, v) h) (by simp)
    | some e =>
      have hk : e.1 = k := by simpa using List.find?_some hf
      have he : (k, e.2) ∈ m.entries := by
        rw [← hk]; exact List.mem_of_find?_eq_some hf
      rw [Option.map_some, m.entry_unique he h]
  · intro h
    obtain ⟨e, hf, rfl⟩ := Option.map_eq_some_iff.mp h
    have hk : e.1 = k := by simpa using List.find?_some hf
    rw [← hk]
    exact List.mem_of_find?_eq_some hf

/-- **Extensionality.** A map is determined by its lookups. -/
theorem ext_find? {m m' : SortedMap κ ν} (h : ∀ k, m.find? k = m'.find? k) : m = m' := by
  have hmem : ∀ e, e ∈ m.entries ↔ e ∈ m'.entries := by
    rintro ⟨k, v⟩
    rw [mem_entries_iff, mem_entries_iff, h k]
  have hnd : ∀ m : SortedMap κ ν, m.entries.Nodup := fun m =>
    m.sorted.imp fun {a b} (hab : a.1 < b.1) (heq : a = b) => absurd hab (heq ▸ lt_irrefl _)
  have hperm : m.entries.Perm m'.entries := (List.perm_ext_iff_of_nodup (hnd m) (hnd m')).mpr hmem
  have heq : m.entries = m'.entries :=
    hperm.eq_of_pairwise (fun a b _ _ hab hba => absurd hba (lt_asymm hab)) m.sorted m'.sorted
  cases m; cases m'; congr

@[simp] theorem find?_empty (k : κ) : (empty : SortedMap κ ν).find? k = none := rfl

/-- Looking up in an insertion list: the new entry under its key, the old list elsewhere. -/
private theorem find?_insertEntry (k : κ) (v : ν) (l : List (κ × ν)) (j : κ) :
    ((insertEntry k v l).find? fun e => e.1 = j) =
      if j = k then some (k, v) else l.find? fun e => e.1 = j := by
  induction l with
  | nil =>
    by_cases h : j = k
    · simp [insertEntry, h]
    · simp [insertEntry, h, Ne.symm h]
  | cons a l ih =>
    unfold insertEntry
    split_ifs with h₁ h₂ h₃ h₄ h₅
    · simp [h₂]
    · simp [List.find?_cons, Ne.symm h₂]
    · simp [h₄]
    · have : ¬ a.1 = j := fun ha => h₄ (by rw [h₃, ha])
      simp [Ne.symm h₄, this]
    · rw [List.find?_cons, ih, if_pos h₅]
      have : ¬ a.1 = j := fun ha => h₃ (by rw [← h₅, ha])
      simp [this]
    · rw [List.find?_cons, List.find?_cons, ih, if_neg h₅]

theorem find?_insert (m : SortedMap κ ν) (k : κ) (v : ν) (j : κ) :
    (m.insert k v).find? j = if j = k then some v else m.find? j := by
  unfold find? insert
  rw [find?_insertEntry]
  split_ifs <;> rfl

@[simp] theorem find?_insert_self (m : SortedMap κ ν) (k : κ) (v : ν) :
    (m.insert k v).find? k = some v := by
  rw [find?_insert, if_pos rfl]

theorem find?_insert_of_ne (m : SortedMap κ ν) {k j : κ} (v : ν) (h : j ≠ k) :
    (m.insert k v).find? j = m.find? j := by
  rw [find?_insert, if_neg h]

theorem find?_erase (m : SortedMap κ ν) (k j : κ) :
    (m.erase k).find? j = if j = k then none else m.find? j := by
  apply Option.ext
  intro v
  rw [← mem_entries_iff]
  unfold erase
  simp only [List.mem_filter, mem_entries_iff, decide_eq_true_eq]
  split_ifs with h
  · simp [h]
  · simp [h]

@[simp] theorem find?_erase_self (m : SortedMap κ ν) (k : κ) : (m.erase k).find? k = none := by
  rw [find?_erase, if_pos rfl]

theorem find?_erase_of_ne (m : SortedMap κ ν) {k j : κ} (h : j ≠ k) :
    (m.erase k).find? j = m.find? j := by
  rw [find?_erase, if_neg h]

/-- Erasing an absent key changes nothing. -/
theorem erase_of_find?_none (m : SortedMap κ ν) {k : κ} (h : m.find? k = none) : m.erase k = m := by
  apply ext_find?
  intro j
  rw [find?_erase]
  split_ifs with hj
  · rw [hj, h]
  · rfl

/-- Erasing and storing back is storing. -/
theorem insert_erase (m : SortedMap κ ν) (k : κ) (v : ν) :
    (m.erase k).insert k v = m.insert k v := by
  apply ext_find?
  intro j
  simp only [find?_insert, find?_erase]
  split_ifs <;> rfl

/-- Storing what is already there changes nothing. -/
theorem insert_of_find?_some (m : SortedMap κ ν) {k : κ} {v : ν} (h : m.find? k = some v) :
    m.insert k v = m := by
  apply ext_find?
  intro j
  rw [find?_insert]
  split_ifs with hj
  · rw [hj, h]
  · rfl

/-! ### Sizes -/

private theorem length_insertEntry {k : κ} (v : ν) {l : List (κ × ν)}
    (h : ∀ e ∈ l, e.1 ≠ k) : (insertEntry k v l).length = l.length + 1 := by
  induction l with
  | nil => rfl
  | cons a l ih =>
    unfold insertEntry
    split_ifs with h₁ h₂
    · rfl
    · exact absurd h₂.symm (h a List.mem_cons_self)
    · rw [List.length_cons, ih fun e he => h e (List.mem_cons_of_mem a he), List.length_cons]

theorem size_insert_of_find?_none (m : SortedMap κ ν) {k : κ} (v : ν)
    (h : m.find? k = none) : (m.insert k v).size = m.size + 1 := by
  refine length_insertEntry v ?_
  rintro ⟨j, w⟩ he rfl
  rw [mem_entries_iff, h] at he
  exact absurd he (by simp)

theorem size_erase_of_find?_some (m : SortedMap κ ν) {k : κ} {v : ν}
    (h : m.find? k = some v) : (m.erase k).size + 1 = m.size := by
  have hnone := (m.erase k).size_insert_of_find?_none v (m.find?_erase_self k)
  rw [← hnone, insert_erase, insert_of_find?_some m h]

theorem size_eq_zero_iff (m : SortedMap κ ν) : m.size = 0 ↔ ∀ k, m.find? k = none := by
  constructor
  · intro h k
    have : m.entries = [] := List.length_eq_zero_iff.mp h
    unfold find?; rw [this]; rfl
  · intro h
    rw [show m = empty from ext_find? fun k => by rw [h k, find?_empty]]
    rfl

/-! ### Building a map entry by entry -/

/-- The lookups after inserting a list of entries with distinct keys. -/
theorem find?_foldl_insert {l : List (κ × ν)} (hl : l.Pairwise fun a b => a.1 ≠ b.1)
    (m : SortedMap κ ν) (k : κ) (v : ν) :
    (l.foldl (fun m e => m.insert e.1 e.2) m).find? k = some v ↔
      (k, v) ∈ l ∨ (∀ e ∈ l, e.1 ≠ k) ∧ m.find? k = some v := by
  induction l generalizing m with
  | nil => simp
  | cons e l ih =>
    obtain ⟨he, hl⟩ := List.pairwise_cons.mp hl
    rw [List.foldl_cons, ih hl, find?_insert]
    by_cases hk : k = e.1
    · -- the entry of `k` is the first one, and no later one replaces it
      subst hk
      have hrest : ∀ a ∈ l, a.1 ≠ e.1 := fun a ha => (he a ha).symm
      have hnot : (e.1, v) ∉ l := fun h => hrest _ h rfl
      rw [if_pos rfl]
      constructor
      · rintro (h | ⟨-, h⟩)
        · exact absurd h hnot
        · obtain rfl := Option.some.inj h
          exact Or.inl List.mem_cons_self
      · rintro (h | ⟨h, -⟩)
        · rcases List.mem_cons.mp h with h | h
          · exact Or.inr ⟨hrest, by rw [← h]⟩
          · exact absurd h hnot
        · exact absurd rfl (h e List.mem_cons_self)
    · have hne : (k, v) ≠ e := fun h => hk (by rw [← h])
      rw [if_neg hk, List.mem_cons, List.forall_mem_cons]
      simp [hne, Ne.symm hk]

/-- A map is what inserting its entries one by one gives. -/
theorem foldl_insert_entries (m : SortedMap κ ν) :
    m.entries.foldl (fun m e => m.insert e.1 e.2) empty = m := by
  refine ext_find? fun k => Option.ext fun v => ?_
  have hne : m.entries.Pairwise fun a b => a.1 ≠ b.1 := m.sorted.imp fun h => h.ne
  have hiff := find?_foldl_insert hne empty k v
  rw [mem_entries_iff, find?_empty] at hiff
  simpa using hiff

end SortedMap

end Framework
