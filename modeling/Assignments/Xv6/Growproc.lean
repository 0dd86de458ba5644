import Assignments.Xv6.UserPages

/-!
# Changing the size of a process

`growproc` of `proc.c` over the memory of the process. Its two callees report a failure by the
size 0, and the new size is the sum of a `uint` and an `int`, so that three cases meet: a size that
is 0, a sum that is 0, and a sum that wraps below 0.

* `growproc_step` — what a call does, for every `n`;
* `growproc_record` — on the record, it does what the process table says of it;
* `growproc_all_or_nothing_iff` — when a call changes nothing or exactly what it should.
-/

namespace Xv6.Vm

open Framework
open Xv6.Ptable (PGSIZE KERNBASE Proc int uint)

/-- What `switchuvm` checks. -/
def switchuvm (p : Proc) : Except Halt Unit :=
  if p.kstack = none then .error (.panic "switchuvm: no kstack")
  else if p.pgdir = none then .error (.panic "switchuvm: no pgdir")
  else .ok ()

/-- The new size, 0 for a failure. -/
def resize (L : Link) (k : Kmem) (pgdir sz : ℕ) (n : ℤ) : Except Halt (ℕ × Kmem) :=
  if 0 < n then k.allocuvm L pgdir sz (uint (sz + n))
  else if n < 0 then k.deallocuvm L pgdir sz (uint (sz + n))
  else .ok (sz, k)

/-- What `growproc` writes to the record. -/
def grown (p : Proc) (sz : ℕ) (n : ℤ) : Proc :=
  { p with
    sz := sz
    heapSize := if int (p.heapSize + n) ≥ 0 then int (p.heapSize + n) else p.heapSize }

def growproc (L : Link) (k : Kmem) (p : Proc) (n : ℤ) : Except Halt (ℤ × Kmem × Proc) :=
  match p.pgdir with
  | none => .error .fault
  | some pgdir => do
    let (sz, k) ← resize L k pgdir p.sz n
    if sz = 0 ∧ n ≠ 0 then return (-1, k, p)
    switchuvm (grown p sz n)
    return (0, k, grown p sz n)

/-! ### Processes and their memory -/

/-- The process `p` has the address space `S`, in which no page at or above its size is mapped. -/
structure Process (L : Link) (k : Kmem) (p : Proc) (S : Space) (l : List ℕ)
    (held : Multiset ℕ) : Prop where
  owned : Owned L k S l held
  pgdir : p.pgdir = some S.pgdir
  kstack : p.kstack ≠ none
  size : p.sz < KERNBASE
  mapped : ∀ v < NUSER, S.entry v ≠ none → PGSIZE * v < p.sz

/-- A directory maps exactly the user pages below the rounded size. -/
def Maps (k : Kmem) (pgdir sz : ℕ) : Prop :=
  ∀ v < NUSER, k.lookup pgdir v ≠ none ↔ PGSIZE * v < PGROUNDUP sz

/-- The page that an entry refers to has the same bytes. -/
def SamePage (k k' : Kmem) (e : ℕ) : Prop :=
  ∀ a, blockOf PGSIZE a = PTE_ADDR e → k'.ram a = k.ram a

/-- A call that fails changes nothing: not the record, and not a user page. -/
structure Nothing (k : Kmem) (p : Proc) (pgdir : ℕ) (k' : Kmem) (p' : Proc) : Prop where
  record : p' = p
  entry : ∀ v < NUSER, k'.lookup pgdir v = k.lookup pgdir v
  bytes : ∀ v < NUSER, ∀ e, k.lookup pgdir v = some e → SamePage k k' e

/-- A call that succeeds changes the size by `n`: pages that are there before and after keep their
contents, and new ones are zeroed. -/
structure All (k : Kmem) (p : Proc) (n : ℤ) (pgdir : ℕ) (k' : Kmem) (p' : Proc) : Prop where
  size : (p'.sz : ℤ) = p.sz + n
  maps : Maps k' pgdir p'.sz
  entry : ∀ v < NUSER, ∀ e e', k.lookup pgdir v = some e → k'.lookup pgdir v = some e' → e' = e
  bytes : ∀ v < NUSER, ∀ e, k.lookup pgdir v = some e → k'.lookup pgdir v = some e →
    SamePage k k' e
  zero : ∀ v < NUSER, k.lookup pgdir v = none → ∀ e, k'.lookup pgdir v = some e →
    ∀ a, blockOf PGSIZE a = PTE_ADDR e → k'.ram a = 0

section Growproc

variable {L : Link} {k k' : Kmem} {p : Proc} {S S' : Space} {l l' : List ℕ} {held : Multiset ℕ}
  {n : ℤ}

theorem uint_add {sz : ℕ} (hsz : sz < KERNBASE) (hn : -2 ^ 31 ≤ n) (hn' : n < 2 ^ 31) :
    (uint (sz + n) : ℤ) = if 0 ≤ sz + n then sz + n else sz + n + 2 ^ 32 := by
  rw [kernbase_eq] at hsz
  unfold uint
  split
  · omega
  · omega

/-- The cases of a call of `growproc`: what it returns, and the memory, the record, the space and
the free list it leaves. -/
inductive GrowStep (k : Kmem) (p : Proc) (S : Space) (l : List ℕ) (held : Multiset ℕ) (n : ℤ) :
    ℤ → Kmem → Proc → Space → List ℕ → Prop
  /-- No page or no page table is to be had, or the sum is too large. -/
  | failed {k' : Kmem} {S' : Space} {l' : List ℕ} (hn : 0 < n)
      (hwhy : (KERNBASE : ℤ) ≤ p.sz + n ∨ (PGROUNDUP p.sz : ℤ) < p.sz + n)
      (hshrinks : Shrinks k S l k' S' l') (hentry : S'.entry = S.entry) :
      GrowStep k p S l held n (-1) k' p S' l'
  /-- The sum is 0: all pages are unmapped, and the size 0 is taken for a failure. -/
  | emptied {k' : Kmem} {S' : Space} {l' : List ℕ} (hn : n < 0) (hzero : p.sz + n = 0)
      (hshrinks : Shrinks k S l k' S' l') (hentry : S'.entry = cleared 0 p.sz S.entry) :
      GrowStep k p S l held n (-1) k' p S' l'
  /-- The size is 0, which `deallocuvm` returns when the sum has wrapped. -/
  | refused (hn : n < 0) (hzero : p.sz = 0) : GrowStep k p S l held n (-1) k p S l
  /-- The sum has wrapped: `deallocuvm` returns the old size. -/
  | ignored (hn : n < 0) (hneg : p.sz + n < 0) (hpos : 0 < p.sz) :
      GrowStep k p S l held n 0 k (grown p p.sz n) S l
  | kept (hn : n = 0) : GrowStep k p S l held n 0 k (grown p p.sz n) S l
  | shrunk {k' : Kmem} {S' : Space} {l' : List ℕ} {sz : ℕ} (hn : n < 0) (hpos : 0 < sz)
      (hsz : (sz : ℤ) = p.sz + n) (hshrinks : Shrinks k S l k' S' l')
      (hentry : S'.entry = cleared (PGROUNDUP sz) p.sz S.entry) :
      GrowStep k p S l held n 0 k' (grown p sz n) S' l'
  | extended {k' : Kmem} {S' : Space} {l' : List ℕ} {sz : ℕ} (hn : 0 < n)
      (hsz : (sz : ℤ) = p.sz + n) (hlt : sz < KERNBASE) (hgrows : Grows k S l held k' S' l' held)
      (hfilled : Filled S.entry (PGROUNDUP p.sz) sz k' S') :
      GrowStep k p S l held n 0 k' (grown p sz n) S' l'

/-- `growproc` ends as it should once it has its new size. -/
theorem growproc_of_resize (h : Process L k p S l held) {sz : ℕ}
    (hrun : resize L k S.pgdir p.sz n = .ok (sz, k')) :
    growproc L k p n = .ok (if sz = 0 ∧ n ≠ 0 then (-1, k', p) else (0, k', grown p sz n)) := by
  have hswitch : switchuvm (grown p sz n) = .ok () := by
    have hpgdir : (grown p sz n).pgdir ≠ none := by
      change p.pgdir ≠ none
      rw [h.pgdir]
      exact Option.some_ne_none _
    have hkstack : (grown p sz n).kstack ≠ none := h.kstack
    rw [switchuvm, if_neg hkstack, if_neg hpgdir]
  unfold growproc
  rw [h.pgdir]
  simp only [hrun, bind, Except.bind, hswitch, pure, Except.pure]
  split
  · rfl
  · rfl

theorem Process.grown (h : Process L k p S l held) {sz : ℕ} (hown : Owned L k' S' l' held)
    (hpgdir : S'.pgdir = S.pgdir) (hsz : sz < KERNBASE)
    (hmapped : ∀ v < NUSER, S'.entry v ≠ none → PGSIZE * v < sz) :
    Process L k' (grown p sz n) S' l' held :=
  ⟨hown, h.pgdir.trans (congrArg some hpgdir.symm), h.kstack, hsz, hmapped⟩

/-- **What a call of `growproc` does.** It never panics, and leaves no page mapped at or above the
size. -/
theorem growproc_step (h : Process L k p S l held) (hn : -2 ^ 31 ≤ n) (hn' : n < 2 ^ 31) :
    ∃ r k' p' S' l', growproc L k p n = .ok (r, k', p') ∧ Process L k' p' S' l' held ∧
      GrowStep k p S l held n r k' p' S' l' := by
  have huint := uint_add h.size hn hn'
  generalize hm : uint (p.sz + n) = m at huint
  rcases lt_trichotomy n 0 with hneg | rfl | hpos
  · have hresize : resize L k S.pgdir p.sz n = k.deallocuvm L S.pgdir p.sz m := by
      rw [resize, if_neg (not_lt.mpr (le_of_lt hneg)), if_pos hneg, hm]
    rcases lt_or_ge m p.sz with hlt | hge
    · -- the sum has not wrapped, and pages are unmapped
      have hsum : (m : ℤ) = p.sz + n := by
        split at huint
        · exact huint
        · omega
      obtain ⟨k', S', l', hrun, hown, hshrinks, hentry⟩ :=
        h.owned.deallocuvm (le_of_lt h.size) hlt
      have hgrow := growproc_of_resize h (hresize.trans hrun)
      have hmapped : ∀ v < NUSER, S'.entry v ≠ none →
          PGSIZE * v < p.sz ∧ PGSIZE * v < PGROUNDUP m := by
        intro v hv hne
        rw [hentry] at hne
        unfold cleared at hne
        split at hne
        · exact absurd rfl hne
        · next hout =>
          have hbelow := h.mapped v hv hne
          exact ⟨hbelow, lt_of_not_ge fun hge => hout ⟨hge, hbelow⟩⟩
      rcases Nat.eq_zero_or_pos m with rfl | hmpos
      · rw [if_pos ⟨rfl, ne_of_lt hneg⟩] at hgrow
        refine ⟨-1, k', p, S', l', hgrow, ?_, .emptied hneg hsum.symm hshrinks hentry⟩
        exact ⟨hown, h.pgdir.trans (congrArg some hshrinks.pgdir.symm), h.kstack, h.size,
          fun v hv hne => (hmapped v hv hne).1⟩
      · rw [if_neg fun hzero => Nat.ne_of_gt hmpos hzero.1] at hgrow
        have hmbase : m < KERNBASE := hlt.trans h.size
        refine ⟨0, k', grown p m n, S', l', hgrow, ?_, .shrunk hneg hmpos hsum hshrinks hentry⟩
        refine h.grown hown hshrinks.pgdir hmbase fun v hv hne => ?_
        exact (mul_lt_pgroundup (le_of_lt hmbase)).mp (hmapped v hv hne).2
    · have hrun : k.deallocuvm L S.pgdir p.sz m = .ok (p.sz, k) := by
        rw [Kmem.deallocuvm, if_pos hge]
      have hgrow := growproc_of_resize h (hresize.trans hrun)
      have hwrapped : (p.sz : ℤ) + n < 0 := by
        split at huint
        · omega
        · next hnot => exact lt_of_not_ge hnot
      rcases Nat.eq_zero_or_pos p.sz with hzero | hszpos
      · rw [if_pos ⟨hzero, ne_of_lt hneg⟩] at hgrow
        exact ⟨-1, k, p, S, l, hgrow, h, .refused hneg hzero⟩
      · rw [if_neg fun hzero => Nat.ne_of_gt hszpos hzero.1] at hgrow
        exact ⟨0, k, grown p p.sz n, S, l, hgrow, h.grown h.owned rfl h.size h.mapped,
          .ignored hneg hwrapped hszpos⟩
  · have hrun : resize L k S.pgdir p.sz 0 = .ok (p.sz, k) := rfl
    have hgrow := growproc_of_resize h hrun
    rw [if_neg fun hzero => hzero.2 rfl] at hgrow
    exact ⟨0, k, grown p p.sz 0, S, l, hgrow, h.grown h.owned rfl h.size h.mapped, .kept rfl⟩
  · have hresize : resize L k S.pgdir p.sz n = k.allocuvm L S.pgdir p.sz m := by
      rw [resize, if_pos hpos, hm]
    have hsum : (m : ℤ) = p.sz + n := by
      rw [huint, if_pos (by omega)]
    rcases lt_or_ge m KERNBASE with hlt | hge
    · have hle : p.sz ≤ m := by omega
      obtain ⟨r, k', S', l', hrun, hown, hcases⟩ := h.owned.allocuvm hle hlt (by
        intro v hv hv'
        by_contra hne
        have hvu : v < NUSER := Nat.lt_of_mul_lt_mul_left (hv'.trans hlt)
        exact absurd (h.mapped v hvu hne) (not_lt.mpr hv))
      have hgrow := growproc_of_resize h (hresize.trans hrun)
      rcases hcases with ⟨rfl, hgrows, hfilled, -⟩ | ⟨rfl, hlt', hshrinks, hentry, -⟩
      · have hmpos : r ≠ 0 := by omega
        rw [if_neg fun hzero => hmpos hzero.1] at hgrow
        refine ⟨0, k', grown p r n, S', l', hgrow, ?_, .extended hpos hsum hlt hgrows hfilled⟩
        refine h.grown hown hgrows.pgdir hlt fun v hv hne => ?_
        by_contra hout
        rw [hfilled.other v fun hin => hout hin.2] at hne
        exact hout (Nat.lt_of_lt_of_le (h.mapped v hv hne) hle)
      · rw [if_pos ⟨rfl, ne_of_gt hpos⟩] at hgrow
        refine ⟨-1, k', p, S', l', hgrow, ?_, .failed hpos (.inr (by omega)) hshrinks hentry⟩
        exact ⟨hown, h.pgdir.trans (congrArg some hshrinks.pgdir.symm), h.kstack, h.size,
          fun v hv hne => h.mapped v hv (hentry ▸ hne)⟩
    · have hrun : k.allocuvm L S.pgdir p.sz m = .ok (0, k) := by
        rw [Kmem.allocuvm, if_pos hge]
      have hgrow := growproc_of_resize h (hresize.trans hrun)
      rw [if_pos ⟨rfl, ne_of_gt hpos⟩] at hgrow
      exact ⟨-1, k, p, S, l, hgrow, h, .failed hpos (.inl (by omega)) (.refl k S l) rfl⟩

/-- The record once its new size is known. -/
theorem record_of_size {enough : Bool} {sz : ℕ}
    (hsz : (if 0 < n then Ptable.allocuvmSize p.sz (uint (p.sz + n)) enough
      else if n < 0 then Ptable.deallocuvmSize p.sz (uint (p.sz + n)) else p.sz) = sz) :
    p.growproc n enough = if sz = 0 ∧ n ≠ 0 then none else some (grown p sz n) := by
  subst hsz
  rfl

theorem record_of_neg {enough : Bool} {sz : ℕ} (hneg : n < 0)
    (hsz : Ptable.deallocuvmSize p.sz (uint (p.sz + n)) = sz) :
    p.growproc n enough = if sz = 0 then none else some (grown p sz n) := by
  rw [record_of_size (by
    rw [if_neg (not_lt.mpr (le_of_lt hneg)), if_pos hneg, hsz])]
  exact if_congr (and_iff_left (ne_of_lt hneg)) rfl rfl

theorem record_of_pos {enough : Bool} {sz : ℕ} (hpos : 0 < n)
    (hsz : Ptable.allocuvmSize p.sz (uint (p.sz + n)) enough = sz) :
    p.growproc n enough = if sz = 0 then none else some (grown p sz n) := by
  rw [record_of_size (by rw [if_pos hpos, hsz])]
  exact if_congr (and_iff_left (ne_of_gt hpos)) rfl rfl

/-- **On the record** a call does what the table of processes says of it, for one of the two
answers to whether there is enough memory. -/
theorem growproc_record (h : Process L k p S l held) (hn : -2 ^ 31 ≤ n) (hn' : n < 2 ^ 31) {r : ℤ}
    {p' : Proc} (hrun : growproc L k p n = .ok (r, k', p')) :
    ∃ enough, p.growproc n enough = if r = 0 then some p' else none := by
  obtain ⟨r₁, k₁, p₁, S₁, l₁, hrun₁, -, hstep⟩ := growproc_step h hn hn'
  obtain ⟨rfl, rfl, rfl⟩ : r = r₁ ∧ k' = k₁ ∧ p' = p₁ := by
    rw [hrun] at hrun₁
    simpa using hrun₁
  have huint := uint_add h.size hn hn'
  have hsize := h.size
  rw [kernbase_eq] at hsize
  -- the answer decides only whether there are pages when the process grows
  refine ⟨decide (r = 0), ?_⟩
  cases hstep with
  | failed hpos hwhy _ _ =>
    rw [if_pos (by omega)] at huint
    have hround : Ptable.PGROUNDUP p.sz = PGROUNDUP p.sz := by
      unfold Ptable.PGROUNDUP PGROUNDUP
      rw [pgsize_eq]
      omega
    have halloc : Ptable.allocuvmSize p.sz (uint (p.sz + n)) (decide ((-1 : ℤ) = 0)) = 0 := by
      unfold Ptable.allocuvmSize
      by_cases hge : uint (p.sz + n) ≥ KERNBASE
      · rw [if_pos hge]
      · have hnot : ¬(decide ((-1 : ℤ) = 0) = true ∨ uint (p.sz + n) ≤ PGROUNDUP p.sz) := by
          rw [decide_eq_true_eq]
          omega
        rw [hround, if_neg hge, if_neg (by omega), if_neg hnot]
    exact record_of_pos hpos halloc
  | emptied hneg hzero _ _ =>
    rw [if_pos (by omega)] at huint
    have hdealloc : Ptable.deallocuvmSize p.sz (uint (p.sz + n)) = 0 := by
      rw [Ptable.deallocuvmSize, if_neg (by omega)]
      omega
    exact record_of_neg hneg hdealloc
  | refused hneg hzero =>
    have hdealloc : Ptable.deallocuvmSize p.sz (uint (p.sz + n)) = 0 := by
      rw [Ptable.deallocuvmSize, if_pos (by omega), hzero]
    exact record_of_neg hneg hdealloc
  | ignored hneg hsum hpos =>
    rw [if_neg (by omega)] at huint
    have hsz : Ptable.deallocuvmSize p.sz (uint (p.sz + n)) = p.sz := by
      rw [Ptable.deallocuvmSize, if_pos (by omega)]
    rw [record_of_neg hneg hsz, if_neg (Nat.ne_of_gt hpos), if_pos rfl]
  | kept hzero =>
    subst hzero
    exact (record_of_size rfl).trans (if_neg fun hzero => hzero.2 rfl)
  | @shrunk _ _ _ sz hneg hpos hsz _ _ =>
    rw [if_pos (by omega)] at huint
    have hdealloc : Ptable.deallocuvmSize p.sz (uint (p.sz + n)) = sz := by
      rw [Ptable.deallocuvmSize, if_neg (by omega)]
      omega
    rw [record_of_neg hneg hdealloc, if_neg (Nat.ne_of_gt hpos), if_pos rfl]
  | @extended _ _ _ sz hpos hsz hlt _ _ =>
    rw [if_pos (by omega)] at huint
    have halloc : Ptable.allocuvmSize p.sz (uint (p.sz + n)) (decide ((0 : ℤ) = 0)) = sz := by
      unfold Ptable.allocuvmSize
      rw [if_neg (by omega), if_neg (by omega), if_pos (.inl (by decide))]
      omega
    rw [record_of_pos hpos halloc, if_neg (by omega), if_pos rfl]

/-! ### All or nothing -/

theorem Process.lookup (h : Process L k p S l held) {v : ℕ} (hv : v < NUSER) :
    k.lookup S.pgdir v = S.entry v := h.owned.space.lookup (hv.trans (by decide))

theorem Process.lookup_of_pgdir (h : Process L k p S' l held) (hpgdir : S'.pgdir = S.pgdir) {v : ℕ}
    (hv : v < NUSER) : k.lookup S.pgdir v = S'.entry v := hpgdir ▸ h.lookup hv

/-- The page of an entry is one of the pages of the space. -/
theorem mem_user_of_entry {v e : ℕ} (hv : v < NUSER) (he : S.entry v = some e) :
    PTE_ADDR e ∈ S.user := by
  refine Space.mem_user.mpr ⟨v, hv, ?_⟩
  rw [Space.page, he, Option.map_some]

variable {p' : Proc}

/-- A call that finds no page leaves everything as it was. -/
theorem Nothing.of_failed (h : Process L k p S l held) (h' : Process L k' p S' l' held)
    (hshrinks : Shrinks k S l k' S' l') (hentry : S'.entry = S.entry) :
    Nothing k p S.pgdir k' p where
  record := rfl
  entry v hv := by
    rw [h.lookup hv, h'.lookup_of_pgdir hshrinks.pgdir hv, hentry]
  bytes v hv e he a ha := by
    rw [h.lookup hv, ← hentry] at he
    exact hshrinks.user h'.owned (mem_user_of_entry hv he) ha

/-- Shrinking to a size above 0. -/
theorem All.of_shrunk {sz : ℕ} (h : Process L k p S l held)
    (h' : Process L k' (Vm.grown p sz n) S' l' held) (hmaps : Maps k S.pgdir p.sz) (hneg : n < 0)
    (hsz : (sz : ℤ) = p.sz + n) (hshrinks : Shrinks k S l k' S' l')
    (hentry : S'.entry = cleared (PGROUNDUP sz) p.sz S.entry) :
    All k p n S.pgdir k' (Vm.grown p sz n) where
  size := hsz
  maps v hv := by
    have hle : sz ≤ p.sz := by omega
    have hbase : sz ≤ KERNBASE := hle.trans (le_of_lt h.size)
    rw [h'.lookup_of_pgdir hshrinks.pgdir hv]
    constructor
    · exact fun hne => (mul_lt_pgroundup hbase).mpr (h'.mapped v hv hne)
    · intro hlt
      -- a page below the new size is below the old one, and is not unmapped
      have hbelow : PGSIZE * v < p.sz := Nat.lt_of_lt_of_le ((mul_lt_pgroundup hbase).mp hlt) hle
      have hmapped := (hmaps v hv).mpr ((mul_lt_pgroundup (le_of_lt h.size)).mpr hbelow)
      rw [h.lookup hv] at hmapped
      rw [hentry]
      unfold cleared
      rwa [if_neg fun hin => absurd hlt (not_lt.mpr hin.1)]
  entry v hv e e' he he' := by
    rw [h.lookup hv] at he
    rw [h'.lookup_of_pgdir hshrinks.pgdir hv] at he'
    rcases hshrinks.entry v with hnone | hsame
    · rw [hnone] at he'
      cases he'
    · rw [hsame, he] at he'
      exact (Option.some.inj he').symm
  bytes v hv e he he' a ha := by
    rw [h'.lookup_of_pgdir hshrinks.pgdir hv] at he'
    exact hshrinks.user h'.owned (mem_user_of_entry hv he') ha
  zero v hv hnone e he := by
    rw [h.lookup hv] at hnone
    rw [h'.lookup_of_pgdir hshrinks.pgdir hv] at he
    rcases hshrinks.entry v with hnone' | hsame
    · rw [hnone'] at he
      cases he
    · rw [hsame, hnone] at he
      cases he

/-- Growing. -/
theorem All.of_extended {sz : ℕ} (h : Process L k p S l held)
    (h' : Process L k' (Vm.grown p sz n) S' l' held) (hmaps : Maps k S.pgdir p.sz)
    (hsz : (sz : ℤ) = p.sz + n) (hgrows : Grows k S l held k' S' l' held)
    (hfilled : Filled S.entry (PGROUNDUP p.sz) sz k' S') :
    All k p n S.pgdir k' (Vm.grown p sz n) where
  size := hsz
  maps v hv := by
    have hbase : sz ≤ KERNBASE := le_of_lt h'.size
    rw [h'.lookup_of_pgdir hgrows.pgdir hv]
    constructor
    · exact fun hne => (mul_lt_pgroundup hbase).mpr (h'.mapped v hv hne)
    · intro hlt
      by_cases hold : PGROUNDUP p.sz ≤ PGSIZE * v
      · obtain ⟨pa, hpa, -⟩ := hfilled.fresh v hold ((mul_lt_pgroundup hbase).mp hlt)
        rw [hpa]
        exact Option.some_ne_none _
      · have hmapped := (hmaps v hv).mpr (not_le.mp hold)
        rw [h.lookup hv] at hmapped
        rwa [hfilled.other v fun hin => hold hin.1]
  entry v hv e e' he he' := by
    rw [h.lookup hv] at he
    have hbelow : PGSIZE * v < PGROUNDUP p.sz := by
      refine (mul_lt_pgroundup (le_of_lt h.size)).mpr (h.mapped v hv ?_)
      rw [he]
      exact Option.some_ne_none _
    rw [h'.lookup_of_pgdir hgrows.pgdir hv, hfilled.other v fun hin => not_lt.mpr hin.1 hbelow,
      he] at he'
    exact (Option.some.inj he').symm
  bytes v hv e he _ a ha := by
    rw [h.lookup hv] at he
    exact hgrows.user h.owned (mem_user_of_entry hv he) ha
  zero v hv hnone e he a ha := by
    rw [h.lookup hv] at hnone
    rw [h'.lookup_of_pgdir hgrows.pgdir hv] at he
    by_cases hin : PGROUNDUP p.sz ≤ PGSIZE * v ∧ PGSIZE * v < sz
    · obtain ⟨pa, hpa, haligned, hzero⟩ := hfilled.fresh v hin.1 hin.2
      rw [he] at hpa
      rw [Option.some.inj hpa, Nat.or_assoc, addr_lor haligned (by decide)] at ha
      exact hzero a ha
    · rw [hfilled.other v hin, hnone] at he
      cases he

/-- What is asked of a call: it fails and changes nothing, or it does what it should. -/
def AllOrNothing (L : Link) (k : Kmem) (p : Proc) (n : ℤ) (pgdir : ℕ) : Prop :=
  ∃ r k' p', growproc L k p n = .ok (r, k', p') ∧
    (r = -1 ∧ Nothing k p pgdir k' p' ∨ r = 0 ∧ All k p n pgdir k' p')

/-- **When `growproc` is all or nothing.** It is, except that a process cannot be shrunk to the
size 0 or below: at 0 its pages are gone though the call fails, and below the call succeeds though
nothing has happened. -/
theorem growproc_all_or_nothing_iff (h : Process L k p S l held) (hmaps : Maps k S.pgdir p.sz)
    (hn : -2 ^ 31 ≤ n) (hn' : n < 2 ^ 31) :
    AllOrNothing L k p n S.pgdir ↔ 0 ≤ n ∨ p.sz = 0 ∨ 0 < p.sz + n := by
  obtain ⟨r, k', p', S', l', hrun, h', hstep⟩ := growproc_step h hn hn'
  constructor
  · rintro ⟨r₁, k₁, p₁, hrun₁, hexact⟩
    obtain ⟨rfl, rfl, rfl⟩ : r = r₁ ∧ k' = k₁ ∧ p' = p₁ := by
      rw [hrun] at hrun₁
      simpa using hrun₁
    cases hstep with
    | failed hpos _ _ _ => exact .inl (le_of_lt hpos)
    | refused _ hzero => exact .inr (.inl hzero)
    | kept hzero => exact .inl (le_of_eq hzero.symm)
    | shrunk _ hpos hsz _ _ => exact .inr (.inr (by omega))
    | extended hpos _ _ _ _ => exact .inl (le_of_lt hpos)
    | emptied hneg hzero hshrinks hentry =>
      -- the first page was mapped and is not any more
      rcases hexact with ⟨-, hnothing⟩ | ⟨hr, -⟩
      · have hpos : PGSIZE * 0 < p.sz := by omega
        have hbefore := (hmaps 0 (by decide)).mpr ((mul_lt_pgroundup (le_of_lt h.size)).mpr hpos)
        have hafter : k'.lookup S.pgdir 0 = none := by
          rw [h'.lookup_of_pgdir hshrinks.pgdir (by decide), hentry]
          exact if_pos ⟨Nat.zero_le _, hpos⟩
        rw [hnothing.entry 0 (by decide)] at hafter
        exact absurd hafter hbefore
      · exact absurd hr (by decide)
    | ignored hneg hsum hpos =>
      -- the size is the old one
      rcases hexact with ⟨hr, -⟩ | ⟨-, hall⟩
      · exact absurd hr (by decide)
      · have hsize : (p.sz : ℤ) = p.sz + n := hall.size
        omega
  · intro hcond
    refine ⟨r, k', p', hrun, ?_⟩
    cases hstep with
    | failed _ _ hshrinks hentry => exact .inl ⟨rfl, .of_failed h h' hshrinks hentry⟩
    | refused _ _ => exact .inl ⟨rfl, rfl, fun _ _ => rfl, fun _ _ _ _ _ _ => rfl⟩
    | shrunk hneg _ hsz hshrinks hentry =>
      exact .inr ⟨rfl, .of_shrunk h h' hmaps hneg hsz hshrinks hentry⟩
    | extended _ hsz _ hgrows hfilled =>
      exact .inr ⟨rfl, .of_extended h h' hmaps hsz hgrows hfilled⟩
    | kept hzero =>
      refine .inr ⟨rfl, ?_, hmaps, ?_, fun _ _ _ _ _ _ _ => rfl, ?_⟩
      · change (p.sz : ℤ) = p.sz + n
        rw [hzero, add_zero]
      · intro v _ e e' he he'
        exact Option.some.inj (he'.symm.trans he)
      · intro v _ hnone e he
        rw [hnone] at he
        cases he
    | emptied hneg hzero _ _ => omega
    | ignored hneg hsum hpos => omega

end Growproc

/-! ### A process without memory -/

section Bare

/-- A kernel of a megabyte and a page. -/
def smallKernel : Link where
  data := 0x101000
  kernelEnd := 0x102000
  aligned := by decide
  text := by decide
  data_le := by decide
  fits := by decide

/-- Memory in which three pages are free. -/
def threeFree : Kmem where
  ram := putLE (putLE (fun _ => 0) 0x300000 4 0x80301000) 0x301000 4 0x80302000
  freelist := some 0x300000
  denied := fun _ => false
  calls := 0

/-- A directory without page tables. -/
def bareSpace : Space := ⟨0x200000, fun _ => none, fun _ => none⟩

def bareProc : Proc := { Ptable.Proc.zeroed with pgdir := some 0x200000, kstack := some 0x400000 }

theorem bareSpace_pages : bareSpace.pages = {0x200000} := by
  have htables : bareSpace.tables = 0 := heldIn_eq_zero fun _ _ => rfl
  have huser : bareSpace.user = 0 := heldIn_eq_zero fun _ _ => rfl
  rw [Space.pages, Space.skeleton, htables, huser, add_zero, add_zero]
  rfl

theorem bareSpace_at : bareSpace.At threeFree.ram where
  dir i hi := by
    have hzero : load threeFree.ram (0x200000 + 4 * i) = 0 := by
      apply getLE_eq_zero
      intro a ha ha'
      unfold threeFree
      dsimp only
      rw [putLE_of_disjoint (by omega), putLE_of_disjoint (by omega)]
    change (present (load threeFree.ram (0x200000 + 4 * i))).map PTE_ADDR = none
    rw [hzero]
    rfl
  entries i _ t ht := by cases ht
  absent _ _ _ _ _ := rfl

theorem threeFree_list : FreeList threeFree [0x300000, 0x301000, 0x302000] :=
  ⟨rfl, by decide +kernel, by decide +kernel, (by decide +kernel : next _ _ = none)⟩

theorem bare_process :
    Process smallKernel threeFree bareProc bareSpace [0x300000, 0x301000, 0x302000] 0 where
  owned := by
    refine ⟨threeFree_list, bareSpace_at, ?_, ?_⟩
    · rw [bareSpace_pages]
      decide
    · rw [bareSpace_pages]
      intro pa hpa
      have hcases : pa = 0x300000 ∨ pa = 0x301000 ∨ pa = 0x302000 ∨ pa = 0x200000 := by
        simpa [or_assoc] using hpa
      rcases hcases with rfl | rfl | rfl | rfl
      · exact ⟨by decide, by decide, by decide⟩
      · exact ⟨by decide, by decide, by decide⟩
      · exact ⟨by decide, by decide, by decide⟩
      · exact ⟨by decide, by decide, by decide⟩
  pgdir := rfl
  kstack := Option.some_ne_none _
  size := by decide
  mapped _ _ hne := absurd rfl hne

theorem bare_maps : Maps threeFree bareSpace.pgdir bareProc.sz := by
  intro v hv
  rw [bare_process.lookup hv]
  exact iff_of_false (fun hne => hne rfl) (Nat.not_lt_zero _)

/-- The call that gives the process its first page. -/
theorem growproc_all_or_nothing_first :
    AllOrNothing smallKernel threeFree bareProc 4096 bareSpace.pgdir :=
  (growproc_all_or_nothing_iff bare_process bare_maps (by decide) (by decide)).mpr
    (.inl (by decide))

/-- A process of one page. -/
theorem exists_onePage :
    ∃ k p S l, Process smallKernel k p S l 0 ∧ Maps k S.pgdir p.sz ∧ p.sz = 4096 := by
  obtain ⟨r, k, p, S, l, hrun, h, hstep⟩ :=
    growproc_step bare_process (n := 4096) (by decide) (by decide)
  have hr : r = 0 := by
    have hcode : (growproc smallKernel threeFree bareProc 4096).toOption.map (·.1) = some 0 := by
      decide +kernel
    rw [hrun] at hcode
    exact Option.some.inj hcode
  cases hstep with
  | failed _ _ _ _ => cases hr
  | emptied hneg _ _ _ => exact absurd hneg (by decide)
  | refused hneg _ => exact absurd hneg (by decide)
  | ignored hneg _ _ => exact absurd hneg (by decide)
  | kept hzero => exact absurd hzero (by decide)
  | shrunk hneg _ _ _ _ => exact absurd hneg (by decide)
  | @extended _ _ _ sz hpos hsz hlt hgrows hfilled =>
    have hall := All.of_extended bare_process h bare_maps hsz hgrows hfilled
    have hzero : bareProc.sz = 0 := rfl
    exact ⟨k, _, S, l, h, hgrows.pgdir ▸ hall.maps, show sz = 4096 by omega⟩

/-- A process of one page is shrunk by that page: the call fails, and the page is gone. -/
theorem growproc_unmaps_and_fails :
    ∃ k p S l held, Process smallKernel k p S l held ∧ Maps k S.pgdir p.sz ∧ p.sz = 4096 ∧
      ∃ k' p', growproc smallKernel k p (-4096) = .ok (-1, k', p') ∧
        k.lookup S.pgdir 0 ≠ none ∧ k'.lookup S.pgdir 0 = none := by
  obtain ⟨k, p, S, l, h, hmaps, hsize⟩ := exists_onePage
  refine ⟨k, p, S, l, 0, h, hmaps, hsize, ?_⟩
  obtain ⟨r', k', p', S', l', hrun', h', hstep'⟩ :=
    growproc_step h (n := -4096) (by decide) (by decide)
  cases hstep' with
  | failed hpos _ _ _ => exact absurd hpos (by decide)
  | refused _ hzero => omega
  | ignored _ hneg _ => omega
  | kept hzero => exact absurd hzero (by decide)
  | shrunk _ _ hsz' _ _ => omega
  | extended hpos _ _ _ _ => exact absurd hpos (by decide)
  | emptied hneg hzero hshrinks hentry =>
    refine ⟨k', _, hrun', ?_, ?_⟩
    · refine (hmaps 0 (by decide)).mpr ?_
      rw [hsize]
      decide
    · rw [h'.lookup_of_pgdir hshrinks.pgdir (by decide), hentry]
      refine if_pos ⟨Nat.zero_le _, ?_⟩
      rw [hsize]
      decide

end Bare

end Xv6.Vm
