import Assignments.Xv6.Growproc

/-!
# Skipping over missing page tables

Where `deallocuvm` of `vm.c` finds no page table, it moves on to the first page of the next one,
by wrapping arithmetic on the address of the page. It does what the plain loop does that visits
every page of the range (`deallocLoop_eq_plain`). Here the plain loop is followed page by page, for
a directory that need not have been built by this kernel: its tables may be anywhere, as long as
they are not among the pages that are freed.

* `Freeable` — the pages that the directory maps for the user can be given to the allocator;
* `Freeable.deallocPage` — a visit to one page;
* `deallocuvm_skip_sound` — a call, for every two sizes.
-/

namespace Xv6.Vm

open Framework
open Xv6.Ptable (PGSIZE KERNBASE)

namespace Kmem

/-- `deallocuvm` with the plain loop. -/
def deallocPlain (L : Link) (k : Kmem) (pgdir oldsz newsz : ℕ) : Except Halt (ℕ × Kmem) :=
  if newsz ≥ oldsz then .ok (oldsz, k)
  else
    let a := PGROUNDUP newsz
    (plainLoop L pgdir ((oldsz + PGSIZE - 1 - a) / PGSIZE) a k).map fun k => (newsz, k)

end Kmem

section Skip

variable {L : Link} {k k' : Kmem} {S : Space} {l : List ℕ} {pgdir a oldsz n m : ℕ}

/-! ### Visiting pages -/

/-- The pages that a directory maps for the user can be given to the allocator: they are distinct
pages of its, and none of them is free. Neither they nor the free pages are part of the directory
itself, whose page tables are different pages. -/
structure Freeable (L : Link) (k : Kmem) (S : Space) (l : List ℕ) : Prop where
  free : FreeList k l
  space : S.At k.ram
  aligned : S.pgdir % PGSIZE = 0
  table_ne : ∀ i < 1024, S.table i ≠ some S.pgdir
  table_unique : ∀ i < 1024, ∀ j < 1024, ∀ t, S.table i = some t → S.table j = some t → i = j
  page_free : ∀ pa ∈ l, L.Page pa
  page_user : ∀ v < NUSER, ∀ pa, S.page v = some pa → L.Page pa
  page_unique : ∀ v < NUSER, ∀ w < NUSER, ∀ pa, S.page v = some pa → S.page w = some pa → v = w
  used : ∀ v < NUSER, ∀ pa, S.page v = some pa → pa ∉ l
  apart_free : ∀ pa ∈ l, pa ∉ S.skeleton
  apart_user : ∀ v < NUSER, ∀ pa, S.page v = some pa → pa ∉ S.skeleton

/-- The directories that the kernel builds are of this kind. -/
theorem Owned.freeable {held : Multiset ℕ} (h : Owned L k S l held) : Freeable L k S l where
  free := h.free
  space := h.space
  aligned := h.page_pgdir.aligned
  table_ne _ hi ht := h.pgdir_ne_table hi ht rfl
  table_unique _ hi _ hj _ := h.table_unique hi hj
  page_free _ := h.page_free
  page_user v hv _ hpa := h.page_user (Space.mem_user.mpr ⟨v, hv, hpa⟩)
  page_unique _ hv _ hw _ := h.page_unique hv hw
  used v hv _ hpa hmem := h.notMem_pages_of_free hmem
    (Multiset.mem_add.mpr (.inr (Space.mem_user.mpr ⟨v, hv, hpa⟩)))
  apart_free _ := h.notMem_skeleton_of_free
  apart_user v hv _ hpa hmem :=
    h.notMem_user_of_skeleton hmem (Space.mem_user.mpr ⟨v, hv, hpa⟩)

theorem Space.setEntry_page (S : Space) (v w : ℕ) :
    (S.setEntry v none).page w = if w = v then none else S.page w := by
  unfold Space.page
  split
  · next heq => rw [heq, Space.setEntry_entry_self, Option.map_none]
  · next hne => rw [Space.setEntry_entry_of_ne hne]

namespace Freeable

variable (h : Freeable L k S l)

include h

theorem skeleton_mod {pa : ℕ} (hpa : pa ∈ S.skeleton) : pa % PGSIZE = 0 := by
  rcases Space.mem_skeleton.mp hpa with rfl | ⟨i, hi, ht⟩
  · exact h.aligned
  · exact h.space.table_mod hi ht

/-- An entry of the user is cleared. -/
theorem clear {v t : ℕ} (hv : v < NUSER) (ht : S.table (v / 1024) = some t) :
    (S.setEntry v none).At (k.store (t + 4 * (v % 1024)) 0).ram ∧
      AgreeOff PGSIZE {t} k.ram (k.store (t + 4 * (v % 1024)) 0).ram ∧ t ∈ S.skeleton := by
  have hi : v / 1024 < 1024 := by
    change v < 524288 at hv
    omega
  refine ⟨?_, agreeOff_putLE (h.space.table_mod hi ht) (by rw [pgsize_eq]; omega),
    Space.mem_skeleton.mpr (.inr ⟨_, hi, ht⟩)⟩
  have hat := h.space.setEntry (e := 0) (hv.trans (by decide)) ht (h.space.table_mod hi ht)
    h.aligned (fun heq => h.table_ne _ hi (heq ▸ ht)) fun j hj t' ht' =>
      ⟨h.space.table_mod hj ht', fun heq => h.table_unique j hj _ hi t (heq ▸ ht') ht⟩
  rwa [Nat.zero_mod, present_zero] at hat

/-- **A visit to one page.** If it is mapped, its entry is cleared and the page is free. -/
theorem deallocPage (hlt : a < KERNBASE) :
    ∃ b k', k.deallocPage L S.pgdir a = .ok (b, k') ∧
      Freeable L k' (S.setEntry (a / PGSIZE) none) ((S.page (a / PGSIZE)).toList ++ l) := by
  have hva : a < 2 ^ 32 := hlt.trans (by decide)
  have hv : a / PGSIZE < NUSER := Nat.div_lt_of_lt_mul hlt
  cases hpage : S.page (a / PGSIZE) with
  | none =>
    have hentry : S.entry (a / PGSIZE) = none := Option.map_eq_none_iff.mp hpage
    obtain ⟨b, hrun⟩ := h.space.deallocPage_unmapped hva hentry
    have hsame : S.setEntry (a / PGSIZE) none = S := by
      rw [Space.setEntry, ← hentry, Function.update_eq_self]
    exact ⟨b, k, hrun, hsame.symm ▸ h⟩
  | some pa =>
    have hpa : L.Page pa := h.page_user _ hv pa hpage
    obtain ⟨t, ht, hround⟩ := h.space.deallocPage_mapped hva hpage hpa (h.apart_user _ hv pa hpage)
    obtain ⟨hat, hwrite, htmem⟩ := h.clear hv (PDX_eq hva ▸ ht)
    have hfree : FreeList (k.store (t + 4 * PTX a) 0) l := by
      refine h.free.congr h.page_free hwrite ?_ rfl
      intro q hq hq'
      exact h.apart_free q hq (Multiset.mem_singleton.mp hq' ▸ htmem)
    obtain ⟨ram, hrun, hlist, hagree⟩ := hfree.kfree h.page_free hpa (h.used _ hv pa hpage)
    refine ⟨a, { k.store (t + 4 * PTX a) 0 with ram := ram, freelist := some pa }, ?_, ?_⟩
    · rw [hround, hrun]
      rfl
    · -- the other pages of the user are where they were
      have hother : ∀ w < NUSER, ∀ q, (S.setEntry (a / PGSIZE) none).page w = some q →
          w ≠ a / PGSIZE ∧ S.page w = some q := by
        intro w _ q hq
        rw [Space.setEntry_page] at hq
        split at hq
        · cases hq
        · next hne => exact ⟨hne, hq⟩
      refine ⟨hlist, ?_, h.aligned, h.table_ne, h.table_unique, ?_, ?_, ?_, ?_, ?_, ?_⟩
      · refine hat.congr hagree (fun q hq => h.skeleton_mod hq) ?_
        intro q hq hq'
        rw [Multiset.mem_singleton.mp hq'] at hq
        exact h.apart_user _ hv pa hpage hq
      · intro q hq
        rcases List.mem_cons.mp hq with rfl | hq
        · exact hpa
        · exact h.page_free q hq
      · exact fun w hw q hq => h.page_user w hw q (hother w hw q hq).2
      · exact fun w hw x hx q hq hq' =>
          h.page_unique w hw x hx q (hother w hw q hq).2 (hother x hx q hq').2
      · intro w hw q hq hmem
        obtain ⟨hdiff, hq⟩ := hother w hw q hq
        rcases List.mem_cons.mp hmem with rfl | hmem
        · exact hdiff (h.page_unique w hw _ hv q hq hpage)
        · exact h.used w hw q hq hmem
      · intro q hq
        rcases List.mem_cons.mp hq with rfl | hq
        · exact h.apart_user _ hv q hpage
        · exact h.apart_free q hq
      · exact fun w hw q hq => h.apart_user w hw q (hother w hw q hq).2

end Freeable

/-- The pages of the user from `v` on, `n` of them, the last one first. -/
def freed (S : Space) : ℕ → ℕ → List ℕ
  | 0, _ => []
  | n + 1, v => freed S n (v + 1) ++ (S.page v).toList

theorem mem_freed {pa v : ℕ} : pa ∈ freed S n v ↔ ∃ w, v ≤ w ∧ w < v + n ∧ S.page w = some pa := by
  induction n generalizing v with
  | zero => exact iff_of_false nofun fun ⟨w, hle, hlt, _⟩ => absurd hlt (by omega)
  | succ n ih =>
    rw [freed, List.mem_append, ih, Option.mem_toList]
    constructor
    · rintro (⟨w, hle, hlt, hpage⟩ | hpage)
      · exact ⟨w, by omega, by omega, hpage⟩
      · exact ⟨v, le_refl v, by omega, hpage⟩
    · rintro ⟨w, hle, hlt, hpage⟩
      rcases Nat.eq_or_lt_of_le hle with rfl | hlt'
      · exact .inr hpage
      · exact .inl ⟨w, hlt', by omega, hpage⟩

theorem freed_congr {S' : Space} {v : ℕ} (h : ∀ w, v ≤ w → S'.page w = S.page w) :
    freed S' n v = freed S n v := by
  induction n generalizing v with
  | zero => rfl
  | succ n ih => rw [freed, freed, ih fun w hw => h w (by omega), h v (le_refl v)]

/-- Each page is freed once. -/
theorem Freeable.freed_nodup {v : ℕ} (h : Freeable L k S l) (hv : v + n ≤ NUSER) :
    (freed S n v).Nodup := by
  induction n generalizing v with
  | zero => exact List.nodup_nil
  | succ n ih =>
    rw [freed, List.nodup_append]
    refine ⟨ih (by omega), ?_, ?_⟩
    · cases S.page v with
      | none => exact List.nodup_nil
      | some pa => exact List.nodup_singleton pa
    · intro q hq q' hq' heq
      obtain ⟨w, hle, hlt, hw⟩ := mem_freed.mp hq
      rw [Option.mem_toList] at hq'
      have hsame := h.page_unique w (by omega) v (by omega) q hw (heq ▸ hq')
      omega

/-- **The plain loop** clears and frees the pages that it visits. -/
theorem Freeable.plainLoop (h : Freeable L k S l) (ha : a % PGSIZE = 0)
    (hn : a + PGSIZE * n ≤ KERNBASE + (PGSIZE - 1)) :
    ∃ k' S', Kmem.plainLoop L S.pgdir n a k = .ok k' ∧ S'.pgdir = S.pgdir ∧
      Freeable L k' S' (freed S n (a / PGSIZE) ++ l) ∧
      S'.entry = cleared a (a + PGSIZE * n) S.entry := by
  rw [kernbase_eq, pgsize_eq] at hn
  induction n generalizing a k S l with
  | zero =>
    refine ⟨k, S, rfl, rfl, h, ?_⟩
    rw [Nat.mul_zero, Nat.add_zero, cleared_of_le (le_refl a)]
  | succ n ih =>
    have hlt : a < KERNBASE := by
      rw [pgsize_eq] at ha
      rw [kernbase_eq]
      omega
    have hav : PGSIZE * (a / PGSIZE) = a := Nat.mul_div_cancel' (Nat.dvd_of_mod_eq_zero ha)
    obtain ⟨b, k₁, hrun, h₁⟩ := h.deallocPage hlt
    obtain ⟨k', S', hloop, hpgdir, h', hentry⟩ := ih h₁ (a := a + PGSIZE)
      (by rw [Nat.add_mod_right, ha]) (by rw [pgsize_eq]; omega)
    refine ⟨k', S', ?_, hpgdir, ?_, ?_⟩
    · rw [Kmem.plainLoop, hrun]
      exact hloop
    · have hnext : (a + PGSIZE) / PGSIZE = a / PGSIZE + 1 := Nat.add_div_right a (by decide)
      have hsame : freed (S.setEntry (a / PGSIZE) none) n (a / PGSIZE + 1)
          = freed S n (a / PGSIZE + 1) := by
        apply freed_congr
        intro w hw
        rw [Space.setEntry_page, if_neg (by omega)]
      rw [hnext, hsame, ← List.append_assoc] at h'
      exact h'
    · have hend : a + PGSIZE + PGSIZE * n = a + PGSIZE * (n + 1) := by
        rw [Nat.mul_succ]
        omega
      have hupdate : (S.setEntry (a / PGSIZE) none).entry
          = Function.update S.entry (a / PGSIZE) none := rfl
      have hrange : a < a + PGSIZE * (n + 1) := Nat.lt_add_of_pos_right (by
        rw [pgsize_eq]
        omega)
      rw [hentry, hend, hupdate, cleared_succ hav.symm hrange]

/-- **Skipping over missing page tables is sound.** Whatever the two sizes are, a call ends with
the size it should return, clears exactly the entries of the pages between them and frees each page
that was mapped there once, and does what the plain loop does. -/
theorem deallocuvm_skip_sound (h : Freeable L k S l) (hold : oldsz ≤ KERNBASE) (newsz : ℕ) :
    ∃ k' ps, k.deallocuvm L S.pgdir oldsz newsz
        = .ok (if newsz < oldsz then newsz else oldsz, k') ∧
      k.deallocPlain L S.pgdir oldsz newsz = .ok (if newsz < oldsz then newsz else oldsz, k') ∧
      (∀ v < 2 ^ 20, k'.lookup S.pgdir v =
        if Ptable.PGROUNDUP newsz ≤ PGSIZE * v ∧ PGSIZE * v < oldsz then none
        else k.lookup S.pgdir v) ∧
      FreeList k' (ps ++ l) ∧ ps.Nodup ∧
      ∀ pa, pa ∈ ps ↔ ∃ v e, Ptable.PGROUNDUP newsz ≤ PGSIZE * v ∧ PGSIZE * v < oldsz ∧
        k.lookup S.pgdir v = some e ∧ PTE_ADDR e = pa := by
  by_cases hlt : newsz < oldsz
  swap
  · -- there is nothing to do
    have hout : ∀ v, ¬(Ptable.PGROUNDUP newsz ≤ PGSIZE * v ∧ PGSIZE * v < oldsz) := by
      intro v
      rw [Ptable.PGROUNDUP, pgsize_eq]
      omega
    refine ⟨k, [], ?_, ?_, fun v _ => (if_neg (hout v)).symm, h.free, List.nodup_nil, fun pa => ?_⟩
    · rw [Kmem.deallocuvm, if_pos (Nat.le_of_not_lt hlt), if_neg hlt]
    · rw [Kmem.deallocPlain, if_pos (Nat.le_of_not_lt hlt), if_neg hlt]
    · refine iff_of_false List.not_mem_nil ?_
      rintro ⟨v, e, hv, hv', -⟩
      exact hout v ⟨hv, hv'⟩
  have hbase : oldsz ≤ 2147483648 := hold
  have hround : PGROUNDUP newsz = Ptable.PGROUNDUP newsz := by
    rw [PGROUNDUP, Ptable.PGROUNDUP, pgsize_eq]
    omega
  have hmod : PGROUNDUP newsz % PGSIZE = 0 := pgroundup_mod newsz
  have hle := pgroundup_le_pages hold hlt
  generalize ha : PGROUNDUP newsz = a at hround hmod hle
  rw [← hround]
  have hav : PGSIZE * (a / PGSIZE) = a := Nat.mul_div_cancel' (Nat.dvd_of_mod_eq_zero hmod)
  -- the pages that are visited are those that begin below the old size
  obtain ⟨n, hn⟩ : ∃ n, n = (oldsz + PGSIZE - 1 - a) / PGSIZE := ⟨_, rfl⟩
  have hrange := fun v hv => mul_lt_pages (v := v) hmod hn hv
  obtain ⟨k', S', hplain, hpgdir, h', hentry⟩ := h.plainLoop (n := n) hmod (by
    rw [kernbase_eq]
    rw [pgsize_eq] at hn hle ⊢
    omega)
  have hcleared : S'.entry = cleared a oldsz S.entry := by
    rw [hentry]
    funext v
    refine if_congr (and_congr_right fun hv => hrange v hv) rfl rfl
  refine ⟨k', freed S n (a / PGSIZE), ?_, ?_, ?_, h'.free, h.freed_nodup ?_, ?_⟩
  · have hfuel : n < 2 ^ 20 + 1 := by
      rw [pgsize_eq] at hn
      omega
    rw [Kmem.deallocuvm, if_neg (Nat.not_le.mpr hlt), if_pos hlt, ha,
      deallocLoop_eq_plain hmod hold hn hfuel, hplain]
    rfl
  · rw [Kmem.deallocPlain, if_neg (Nat.not_le.mpr hlt), if_pos hlt]
    dsimp only
    rw [ha, ← hn, hplain]
    rfl
  · intro v hv
    rw [h.space.lookup hv, ← hpgdir, h'.space.lookup hv, hcleared]
    rfl
  · rw [pgsize_eq] at hn hle ⊢
    change a / 4096 + n ≤ 524288
    omega
  · intro pa
    rw [mem_freed]
    constructor
    · rintro ⟨w, hw, hw', hpage⟩
      have hle' : a ≤ PGSIZE * w := by
        rw [← hav]
        exact Nat.mul_le_mul_left PGSIZE hw
      have hlt' : PGSIZE * w < oldsz := by
        rw [← hrange w hle', ← hav, ← Nat.mul_add]
        exact Nat.mul_lt_mul_of_pos_left hw' (by decide)
      obtain ⟨e, he, haddr⟩ := Option.map_eq_some_iff.mp hpage
      have hwu : w < 2 ^ 20 := (lt_nuser (hlt'.trans_le hold)).trans (by decide)
      exact ⟨w, e, hle', hlt', by rw [h.space.lookup hwu, he], haddr⟩
    · rintro ⟨w, e, hle', hlt', he, haddr⟩
      have hwu : w < 2 ^ 20 := (lt_nuser (hlt'.trans_le hold)).trans (by decide)
      rw [h.space.lookup hwu] at he
      refine ⟨w, ?_, ?_, by rw [Space.page, he, Option.map_some, haddr]⟩
      · exact Nat.le_of_mul_le_mul_left (hav.symm ▸ hle') (by decide)
      · have hlt'' := (hrange w hle').mpr hlt'
        rw [← hav, ← Nat.mul_add] at hlt''
        exact Nat.lt_of_mul_lt_mul_left hlt''

end Skip

/-- A process of one page is unmapped. -/
theorem deallocuvm_skip_onePage :
    ∃ (k : Kmem) (S : Space) (l : List ℕ) (k' : Kmem) (ps : List ℕ),
      k.deallocuvm smallKernel S.pgdir 4096 0 = .ok (if 0 < 4096 then 0 else 4096, k') ∧
      k.deallocPlain smallKernel S.pgdir 4096 0 = .ok (if 0 < 4096 then 0 else 4096, k') ∧
      (∀ v < 2 ^ 20, k'.lookup S.pgdir v =
        if Ptable.PGROUNDUP 0 ≤ PGSIZE * v ∧ PGSIZE * v < 4096 then none
        else k.lookup S.pgdir v) ∧
      FreeList k' (ps ++ l) ∧ ps.Nodup ∧
      ∀ pa, pa ∈ ps ↔ ∃ v e, Ptable.PGROUNDUP 0 ≤ PGSIZE * v ∧ PGSIZE * v < 4096 ∧
        k.lookup S.pgdir v = some e ∧ PTE_ADDR e = pa := by
  obtain ⟨k, p, S, l, h, -, -⟩ := exists_onePage
  exact ⟨k, S, l, deallocuvm_skip_sound h.owned.freeable (by decide) 0⟩

end Xv6.Vm
