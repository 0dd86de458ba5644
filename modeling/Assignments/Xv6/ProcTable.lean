import Assignments.Framework.Basic

/-!
# The process table

The record `struct proc` and what the routines of `proc.c` do to the table inside one critical
section of `ptable.lock`: find a slot, wake sleepers, kill, reap a child, and turn the process that
exits into a zombie. Who holds the lock, and how the routines are put together from these parts, is
left to the modules above.

A `struct proc *` is a slot of the table and a page is a number. The trap frame, the saved context
and the working directory are not part of the record.

What the sections change:

* `Wakes` — waking moves sleepers to `RUNNABLE` and changes nothing else;
* `exitSection_eq`, `exitSection_state` — `exit` passes the children on and becomes a zombie;
* `exitSection_awake_parent`, `exitSection_awake_init` — the parent, and the first process if it is
  handed a zombie, do not sleep through it.
-/

namespace Xv6.Ptable

open Function

abbrev NPROC : ℕ := 64

abbrev NOFILE : ℕ := 16

/-- A pointer into the table. -/
abbrev Slot : Type := Fin NPROC

/-- A page of physical memory. -/
abbrev Page : Type := ℕ

inductive ProcState where
  | unused
  | embryo
  | sleeping
  | runnable
  | running
  | zombie
deriving DecidableEq, Repr

structure RtcDate where
  second : ℕ
  minute : ℕ
  hour : ℕ
  day : ℕ
  month : ℕ
  year : ℕ
deriving DecidableEq, Repr

/-- A date that nothing has been written to. -/
def RtcDate.zero : RtcDate := ⟨0, 0, 0, 0, 0, 0⟩

/-- What a process sleeps on: the address of a process record, or another address. -/
inductive Chan where
  | proc (p : Slot)
  | other (a : ℕ)
deriving DecidableEq, Repr

/-- The text of `char name[16]`, without its terminating NUL. -/
abbrev Name : Type := { s : List Char // s.length < 16 }

/-- The value of a 32-bit `int`. -/
def int (n : ℤ) : ℤ := Int.bmod n (2 ^ 32)

theorem int_eq_int {a b : ℤ} : int a = int b ↔ a % 2 ^ 32 = b % 2 ^ 32 := by
  unfold int
  constructor
  · intro h
    have ha : Int.bmod a (2 ^ 32) % 2 ^ 32 = a % 2 ^ 32 := Int.bmod_emod
    have hb : Int.bmod b (2 ^ 32) % 2 ^ 32 = b % 2 ^ 32 := Int.bmod_emod
    rw [← ha, ← hb, h]
  · intro h
    have ha : Int.bmod (a % 2 ^ 32) (2 ^ 32) = Int.bmod a (2 ^ 32) := Int.emod_bmod a _
    have hb : Int.bmod (b % 2 ^ 32) (2 ^ 32) = Int.bmod b (2 ^ 32) := Int.emod_bmod b _
    rw [← ha, ← hb, h]

theorem int_int_add (a b : ℤ) : int (int a + b) = int (a + b) :=
  Int.bmod_add_bmod

theorem int_eq_self {n : ℤ} (h : 0 ≤ n) (h' : n < 2 ^ 31) : int n = n :=
  Int.bmod_eq_of_le (by omega) (by omega)

/-- The value of a 32-bit `uint`. -/
def uint (n : ℤ) : ℕ := (n % 2 ^ 32).toNat

structure Proc where
  sz : ℕ
  pgdir : Option Page
  kstack : Option Page
  state : ProcState
  pid : ℤ
  parent : Option Slot
  chan : Option Chan
  killed : Bool
  ofile : Fin NOFILE → Option ℕ
  name : Name
  heapSize : ℤ
  processCreationDateTime : RtcDate
  processLastContextSwitchedOutDateTime : RtcDate
  processLastContextSwitchedInDateTime : RtcDate
  exitstatus : ℤ
deriving DecidableEq

/-- A record that nothing has been written to. -/
def Proc.zeroed : Proc where
  sz := 0
  pgdir := none
  kstack := none
  state := .unused
  pid := 0
  parent := none
  chan := none
  killed := false
  ofile := fun _ => none
  name := ⟨[], by decide⟩
  heapSize := 0
  processCreationDateTime := .zero
  processLastContextSwitchedOutDateTime := .zero
  processLastContextSwitchedInDateTime := .zero
  exitstatus := 0

/-- The number that `memAlloc` prints for a process. -/
def Proc.memAllocated (x : Proc) : ℤ := x.heapSize

abbrev Table : Type := Slot → Proc

/-- The first process: `userinit` finds every slot free and takes the first. -/
def initproc : Slot := 0

/-! ### Searching the table -/

/-- The slot that `allocproc` takes. -/
def Table.findUnused (t : Table) : Option Slot :=
  (List.finRange NPROC).find? fun p => (t p).state = .unused

/-- The slot that `kill` stops at. -/
def Table.findPid (t : Table) (pid : ℤ) : Option Slot :=
  (List.finRange NPROC).find? fun p => (t p).pid = pid

/-- The child that `wait` stops at. -/
def Table.zombieChild (t : Table) (cur : Slot) : Option Slot :=
  (List.finRange NPROC).find? fun p => (t p).parent = some cur ∧ (t p).state = .zombie

def Table.havekids (t : Table) (cur : Slot) : Bool :=
  (List.finRange NPROC).any fun p => (t p).parent = some cur

section Search

variable {t : Table} {p cur : Slot} {pid : ℤ}

theorem findUnused_eq_some (h : t.findUnused = some p) : (t p).state = .unused := by
  simpa using List.find?_some h

theorem zombieChild_eq_some (h : t.zombieChild cur = some p) :
    (t p).parent = some cur ∧ (t p).state = .zombie := by
  simpa using List.find?_some h

theorem zombieChild_eq_none (h : t.zombieChild cur = none) (hparent : (t p).parent = some cur) :
    (t p).state ≠ .zombie := by
  have hnone := List.find?_eq_none.mp h p (List.mem_finRange p)
  intro hzombie
  exact hnone (decide_eq_true ⟨hparent, hzombie⟩)

theorem zombieChild_congr {t' : Table}
    (h : ∀ q, (t' q).parent = (t q).parent ∧ (t' q).state = (t q).state) :
    t'.zombieChild cur = t.zombieChild cur := by
  unfold Table.zombieChild
  congr 1
  funext q
  rw [(h q).1, (h q).2]

end Search

/-! ### What the sections write -/

/-- A slot that `allocproc` takes. -/
def Proc.alloc (x : Proc) (now : RtcDate) (pid : ℤ) : Proc :=
  { x with
    processCreationDateTime := now
    processLastContextSwitchedOutDateTime := now
    state := .embryo
    pid := pid }

/-- What `fork` copies from the parent `cur` once the memory `pgdir` is copied. A descriptor that
the parent has not open is left as it is. -/
def Proc.copy (x : Proc) (pgdir : Page) (cur : Slot) (parent : Proc) : Proc :=
  { x with
    pgdir := some pgdir
    sz := parent.sz
    parent := some cur
    ofile := fun fd => (parent.ofile fd).orElse fun _ => x.ofile fd
    name := parent.name }

/-- A zombie after `wait`. Its memory is freed, but `pgdir` keeps its value. -/
def Proc.reaped (x : Proc) : Proc :=
  { x with
    kstack := none
    pid := 0
    parent := none
    name := ⟨[], by decide⟩
    killed := false
    state := .unused }

/-- `kill`, on the process it finds. -/
def Proc.kill (x : Proc) : Proc :=
  { x with
    killed := true
    state := if x.state = .sleeping then .runnable else x.state }

abbrev KERNBASE : ℕ := 0x80000000

abbrev PGSIZE : ℕ := 4096

def PGROUNDUP (sz : ℕ) : ℕ := (sz + PGSIZE - 1) / PGSIZE * PGSIZE

/-- The size that `allocuvm` returns, 0 for a failure; `enough` says that its calls of `kalloc`
succeed. -/
def allocuvmSize (oldsz newsz : ℕ) (enough : Bool) : ℕ :=
  if newsz ≥ KERNBASE then 0
  else if newsz < oldsz then oldsz
  else if enough ∨ newsz ≤ PGROUNDUP oldsz then newsz
  else 0

def deallocuvmSize (oldsz newsz : ℕ) : ℕ := if newsz ≥ oldsz then oldsz else newsz

/-- `growproc` on the record; `none` when it returns -1. -/
def Proc.growproc (x : Proc) (n : ℤ) (enough : Bool) : Option Proc :=
  let newsz := uint (x.sz + n)
  let sz :=
    if 0 < n then allocuvmSize x.sz newsz enough
    else if n < 0 then deallocuvmSize x.sz newsz
    else x.sz
  if sz = 0 ∧ n ≠ 0 then none
  else
    let heapSize := int (x.heapSize + n)
    some { x with sz := sz, heapSize := if heapSize ≥ 0 then heapSize else x.heapSize }

/-- Only the sizes change. -/
theorem growproc_eq_some {x y : Proc} {n : ℤ} {enough : Bool} (h : x.growproc n enough = some y) :
    y = { x with sz := y.sz, heapSize := y.heapSize } := by
  unfold Proc.growproc at h
  dsimp only at h
  rw [Option.ite_none_left_eq_some] at h
  rw [← Option.some.inj h.2]

def wakeup1 (t : Table) (chan : Option Chan) : Table := fun p =>
  if (t p).state = .sleeping ∧ (t p).chan = chan then { t p with state := .runnable } else t p

def kill (t : Table) (pid : ℤ) : Table :=
  match t.findPid pid with
  | some p => update t p (t p).kill
  | none => t

/-- One round of the loop in `exit` that passes children on to the first process. -/
def passChild (cur : Slot) (t : Table) (p : Slot) : Table :=
  if (t p).parent = some cur then
    let t' := update t p { t p with parent := some initproc }
    if (t p).state = .zombie then wakeup1 t' (some (.proc initproc)) else t'
  else
    t

/-- The critical section of `exit`, up to `sched`. -/
def exitSection (t : Table) (cur : Slot) : Table :=
  let t := wakeup1 t ((t cur).parent.map .proc)
  let t := (List.finRange NPROC).foldl (passChild cur) t
  update t cur { t cur with state := .zombie }

/-! ### Waking -/

/-- `y` is `x`, perhaps woken. -/
structure Wakes (x y : Proc) : Prop where
  record : y = { x with state := y.state }
  state : y.state = x.state ∨ x.state = .sleeping ∧ y.state = .runnable

theorem Wakes.refl (x : Proc) : Wakes x x := ⟨rfl, .inl rfl⟩

/-- Who sleeps afterwards slept before. -/
theorem Wakes.sleeping {x y : Proc} (h : Wakes x y) (hy : y.state = .sleeping) :
    x.state = .sleeping := by
  rcases h.state with heq | ⟨-, hrun⟩
  · exact heq ▸ hy
  · rw [hrun] at hy
    cases hy

theorem wakeup1_wakes (t : Table) (chan : Option Chan) (p : Slot) :
    Wakes (t p) (wakeup1 t chan p) := by
  unfold wakeup1
  split
  · next hsleep => exact ⟨rfl, .inr ⟨hsleep.1, rfl⟩⟩
  · exact .refl _

/-- Nobody sleeps on the channel afterwards. -/
theorem wakeup1_awake {t : Table} {chan : Option Chan} {p : Slot}
    (hsleep : (wakeup1 t chan p).state = .sleeping) : (t p).chan ≠ chan := by
  intro hchan
  unfold wakeup1 at hsleep
  split at hsleep
  · cases hsleep
  · next hnot => exact hnot ⟨hsleep, hchan⟩

/-- `kill` marks at most one process and may wake it. -/
theorem kill_wakes (t : Table) (pid : ℤ) (p : Slot) :
    Wakes { t p with killed := (kill t pid p).killed } (kill t pid p) := by
  unfold kill
  cases t.findPid pid with
  | none => exact .refl _
  | some q =>
    by_cases hp : p = q
    · subst hp
      simp only [update_self]
      refine ⟨rfl, ?_⟩
      by_cases hsleep : (t p).state = .sleeping
      · exact .inr ⟨hsleep, if_pos hsleep⟩
      · exact .inl (if_neg hsleep)
    · simp only [update_of_ne hp]
      exact .refl _

/-! ### Exiting -/

/-- `y` is `x`, perhaps woken and passed on to another parent. -/
structure Passed (x y : Proc) : Prop where
  record : y = { x with parent := y.parent, state := y.state }
  state : y.state = x.state ∨ x.state = .sleeping ∧ y.state = .runnable

theorem Passed.refl (x : Proc) : Passed x x := ⟨rfl, .inl rfl⟩

theorem Passed.trans {x y z : Proc} (h : Passed x y) (h' : Passed y z) : Passed x z := by
  refine ⟨?_, ?_⟩
  · rw [h'.record, h.record]
  · rcases h.state with heq | ⟨hsleep, hrun⟩
    · rw [← heq]
      exact h'.state
    · rcases h'.state with heq | ⟨hsleep', -⟩
      · exact .inr ⟨hsleep, heq.trans hrun⟩
      · rw [hrun] at hsleep'
        cases hsleep'

theorem Wakes.passed {x y : Proc} (h : Wakes x y) : Passed x y := by
  refine ⟨?_, h.state⟩
  rw [h.record]

theorem Passed.sleeping {x y : Proc} (h : Passed x y) (hy : y.state = .sleeping) :
    x.state = .sleeping := by
  rcases h.state with heq | ⟨-, hrun⟩
  · exact heq ▸ hy
  · rw [hrun] at hy
    cases hy

theorem Passed.chan {x y : Proc} (h : Passed x y) : y.chan = x.chan := by
  rw [h.record]

theorem wakeup1_parent (t : Table) (chan : Option Chan) (p : Slot) :
    (wakeup1 t chan p).parent = (t p).parent := by
  rw [(wakeup1_wakes t chan p).record]

theorem passChild_passed (cur : Slot) (t : Table) (p q : Slot) :
    Passed (t q) (passChild cur t p q) := by
  unfold passChild
  split
  · have hupdate : Passed (t q) (update t p { t p with parent := some initproc } q) := by
      by_cases hq : q = p
      · subst hq
        rw [update_self]
        exact ⟨rfl, .inl rfl⟩
      · rw [update_of_ne hq]
        exact .refl _
    dsimp only
    split
    · exact hupdate.trans (wakeup1_wakes _ _ q).passed
    · exact hupdate
  · exact .refl _

theorem passChild_parent (cur : Slot) (t : Table) (p q : Slot) :
    (passChild cur t p q).parent =
      if q = p ∧ (t q).parent = some cur then some initproc else (t q).parent := by
  unfold passChild
  by_cases hp : (t p).parent = some cur
  · rw [if_pos hp]
    have hupdate : (update t p { t p with parent := some initproc } q).parent =
        if q = p ∧ (t q).parent = some cur then some initproc else (t q).parent := by
      by_cases hq : q = p
      · subst hq
        rw [update_self, if_pos ⟨rfl, hp⟩]
      · rw [update_of_ne hq, if_neg fun h => hq h.1]
    dsimp only
    split
    · rw [wakeup1_parent, hupdate]
    · exact hupdate
  · rw [if_neg hp, if_neg]
    rintro ⟨rfl, hq⟩
    exact hp hq

/-- When a zombie is passed on, the first process does not go on sleeping in `wait`. -/
theorem passChild_awake {cur p : Slot} {t : Table} (hp : (t p).parent = some cur)
    (hzombie : (t p).state = .zombie) (hsleep : (passChild cur t p initproc).state = .sleeping) :
    (t initproc).chan ≠ some (.proc initproc) := by
  unfold passChild at hsleep
  rw [if_pos hp] at hsleep
  dsimp only at hsleep
  rw [if_pos hzombie] at hsleep
  have hchan := wakeup1_awake hsleep
  by_cases hinit : initproc = p
  · subst hinit
    rwa [update_self] at hchan
  · rwa [update_of_ne hinit] at hchan

section Pass

variable (cur : Slot) (l : List Slot)

theorem passChildren_passed (t : Table) (q : Slot) :
    Passed (t q) (l.foldl (passChild cur) t q) := by
  induction l generalizing t with
  | nil => exact .refl _
  | cons p l ih => exact (passChild_passed cur t p q).trans (ih _)

theorem passChildren_parent (t : Table) (q : Slot) :
    (l.foldl (passChild cur) t q).parent =
      if q ∈ l ∧ (t q).parent = some cur then some initproc else (t q).parent := by
  induction l generalizing t with
  | nil => simp
  | cons p l ih =>
    rw [List.foldl_cons, ih, passChild_parent]
    by_cases hq : q = p
    · by_cases hparent : (t q).parent = some cur
      · simp [hq ▸ hparent, hq]
      · simp [hparent]
    · simp [hq]

theorem passChildren_awake {t : Table} {p : Slot} (hmem : p ∈ l) (hp : (t p).parent = some cur)
    (hzombie : (t p).state = .zombie)
    (hsleep : (l.foldl (passChild cur) t initproc).state = .sleeping) :
    (t initproc).chan ≠ some (.proc initproc) := by
  induction l generalizing t with
  | nil => cases hmem
  | cons p' l ih =>
    by_cases hpp : p = p'
    · -- this round wakes the first process, and the later ones do not put it to sleep
      subst hpp
      exact passChild_awake hp hzombie ((passChildren_passed cur l _ initproc).sleeping hsleep)
    · have hpass := passChild_passed cur t p' p
      have hstate : (passChild cur t p' p).state = .zombie := by
        rcases hpass.state with heq | ⟨hsl, -⟩
        · exact heq.trans hzombie
        · rw [hzombie] at hsl
          cases hsl
      have hparent : (passChild cur t p' p).parent = some cur := by
        rw [passChild_parent, if_neg fun h => hpp h.1]
        exact hp
      have hmem' : p ∈ l := (List.mem_cons.mp hmem).resolve_left hpp
      have hchan := ih hmem' hparent hstate hsleep
      rwa [(passChild_passed cur t p' initproc).chan] at hchan

end Pass

/-- The table on which `exit` sets its own state, after the loop. -/
theorem exitSection_passed (t : Table) (cur q : Slot) :
    Passed (t q) ((List.finRange NPROC).foldl (passChild cur)
      (wakeup1 t ((t cur).parent.map .proc)) q) :=
  (wakeup1_wakes t _ q).passed.trans (passChildren_passed cur _ _ q)

/-- Only the states and the parents change. -/
theorem exitSection_eq (t : Table) (cur q : Slot) :
    exitSection t cur q =
      { t q with
        parent := if (t q).parent = some cur then some initproc else (t q).parent
        state := (exitSection t cur q).state } := by
  have hpass := exitSection_passed t cur q
  have hparent := passChildren_parent cur (List.finRange NPROC)
    (wakeup1 t ((t cur).parent.map .proc)) q
  rw [wakeup1_parent] at hparent
  simp only [List.mem_finRange, true_and] at hparent
  unfold exitSection
  by_cases hq : q = cur
  · subst hq
    simp only [update_self]
    rw [hpass.record]
    simp only [hparent]
  · simp only [update_of_ne hq]
    rw [← hparent]
    exact hpass.record

theorem exitSection_state_self (t : Table) (cur : Slot) :
    (exitSection t cur cur).state = .zombie := by
  simp [exitSection]

theorem exitSection_state {t : Table} {cur q : Slot} (hq : q ≠ cur) :
    (exitSection t cur q).state = (t q).state ∨
      (t q).state = .sleeping ∧ (exitSection t cur q).state = .runnable := by
  simp only [exitSection, update_of_ne hq]
  exact (exitSection_passed t cur q).state

/-- The parent of the process that exits does not go on sleeping in `wait`. -/
theorem exitSection_awake_parent {t : Table} {cur p : Slot} (hparent : (t cur).parent = some p)
    (hsleep : (exitSection t cur p).state = .sleeping) : (t p).chan ≠ some (.proc p) := by
  have hp : p ≠ cur := by
    rintro rfl
    rw [exitSection_state_self] at hsleep
    cases hsleep
  simp only [exitSection, update_of_ne hp] at hsleep
  have hchan := wakeup1_awake ((passChildren_passed cur _ _ p).sleeping hsleep)
  rwa [hparent] at hchan

/-- Nor does the first process, if it gets a zombie. -/
theorem exitSection_awake_init {t : Table} {cur p : Slot} (hparent : (t p).parent = some cur)
    (hzombie : (t p).state = .zombie)
    (hsleep : (exitSection t cur initproc).state = .sleeping) :
    (t initproc).chan ≠ some (.proc initproc) := by
  have hinit : initproc ≠ cur := by
    intro h
    rw [h, exitSection_state_self] at hsleep
    cases hsleep
  simp only [exitSection, update_of_ne hinit] at hsleep
  have hstate : (wakeup1 t ((t cur).parent.map .proc) p).state = .zombie := by
    rcases (wakeup1_wakes t ((t cur).parent.map .proc) p).state with heq | ⟨hsl, -⟩
    · exact heq.trans hzombie
    · rw [hzombie] at hsl
      cases hsl
  have hchan := passChildren_awake cur _ (List.mem_finRange p)
    ((wakeup1_parent t _ p).trans hparent) hstate hsleep
  rwa [(wakeup1_wakes t _ initproc).passed.chan] at hchan

end Xv6.Ptable
