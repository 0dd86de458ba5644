import Assignments.Xv6.Machine

/-!
# Parents, children and what `wait` returns

The life of the processes, without CPUs, locks and memory: a slot is free, holds a process that is
being made, that is active, that is leaving or that has left; it has a pid, a parent and an exit
status. `Family.Step` is what can happen to it, and each event is recorded as in the machine. This
is what `fork`, `exit` and `wait` are for: every process that leaves is reported once, to the parent
it then has, with the status it left with.

* `Family.Ok` — the invariant: pids are distinct, only active processes have children, and the
  history explains each parent and each exit;
* `Step.ok` — every step keeps it;
* `Deliveries`, `Deliveries.delivery` — each report in the history is of a child, of the status it
  passed to `exit`, and the only one for that child.
-/

namespace Xv6.Ptable

open Function

/-! ### Histories -/

def Event.isCreated : Event → Bool
  | .created _ => true
  | _ => false

/-- The number of pids given out. -/
def creations (trace : List Event) : ℕ := trace.countP Event.isCreated

theorem creations_created (pid : ℤ) (trace : List Event) :
    creations (.created pid :: trace) = creations trace + 1 := List.countP_cons_of_pos rfl

/-- What the events before it say about a report of `c` to `P` with the status `s`: `c` was forked
by `P`, or by a process that exited and `P` is the first process; `c` called `exit(s)`; and nobody
has got a report of `c` yet. -/
structure Delivery (earlier : List Event) (P c s : ℤ) : Prop where
  child : Event.forked P c ∈ earlier ∨
    P = 1 ∧ ∃ Q x, Event.forked Q c ∈ earlier ∧ Event.exited Q x ∈ earlier
  status : Event.exited c s ∈ earlier
  fresh : ∀ P' s', Event.waited P' c s' ∉ earlier

/-- Every report in the history is explained by the events before it. -/
def Deliveries : List Event → Prop
  | [] => True
  | e :: earlier => (∀ P c s, e = .waited P c s → Delivery earlier P c s) ∧ Deliveries earlier

theorem Deliveries.delivery {trace later earlier : List Event} {P c s : ℤ} (h : Deliveries trace)
    (hsplit : trace = later ++ .waited P c s :: earlier) : Delivery earlier P c s := by
  induction later generalizing trace with
  | nil =>
    subst hsplit
    exact h.1 P c s rfl
  | cons e later ih =>
    subst hsplit
    exact ih h.2 rfl

/-- There is no second report of the same process. -/
theorem Deliveries.unique {trace later earlier : List Event} {P c s P' s' : ℤ}
    (h : Deliveries trace) (hsplit : trace = later ++ .waited P c s :: earlier) :
    Event.waited P' c s' ∉ later := by
  intro hmem
  obtain ⟨l, l', rfl⟩ := List.append_of_mem hmem
  rw [List.append_assoc, List.cons_append] at hsplit
  exact (h.delivery hsplit).fresh P s (by simp)

/-! ### The family -/

inductive Life where
  | free
  | embryo
  | active
  | leaving
  | zombie
deriving DecidableEq, Repr

@[ext]
structure Member where
  life : Life
  pid : ℤ
  parent : Option Slot
  status : ℤ
  /-- The child that its `fork` has given a parent, but not yet set going. -/
  making : Option Slot

@[ext]
structure Family where
  member : Slot → Member
  trace : List Event

namespace Family

def set (F : Family) (p : Slot) (x : Member) : Family :=
  { F with member := update F.member p x }

def record (F : Family) (e : Event) : Family := { F with trace := e :: F.trace }

/-- The children of `p` get the first process as their parent. -/
def orphan (F : Family) (p : Slot) : Family :=
  { F with
    member := fun q =>
      if (F.member q).parent = some p then { F.member q with parent := some initproc }
      else F.member q }

inductive Step (F : Family) : Family → Prop where
  | stutter : Step F F
  | create (np : Slot) (hfree : (F.member np).life = .free) :
      Step F ((F.set np { F.member np with life := .embryo, pid := creations F.trace + 1 }).record
        (.created (creations F.trace + 1)))
  /-- A `fork` fails. -/
  | abandon (np : Slot) (hembryo : (F.member np).life = .embryo)
      (hmaking : ∀ p, (F.member p).making ≠ some np) :
      Step F (F.set np { F.member np with life := .free })
  /-- A `fork` gives the child its parent. -/
  | adopt (p np : Slot) (hp : (F.member p).life = .active) (hidle : (F.member p).making = none)
      (hembryo : (F.member np).life = .embryo) (hmaking : ∀ q, (F.member q).making ≠ some np) :
      Step F ((F.set np { F.member np with parent := some p }).set p
        { F.member p with making := some np })
  /-- A `fork` sets the child going. -/
  | born (p np : Slot) (hmaking : (F.member p).making = some np) :
      Step F (((F.set np { F.member np with life := .active, making := none }).set p
        { F.member p with making := none }).record
          (.forked (F.member p).pid (F.member np).pid))
  | exit (p : Slot) (status : ℤ) (hp : (F.member p).life = .active)
      (hidle : (F.member p).making = none) (hinit : p ≠ initproc) :
      Step F ((F.set p { F.member p with life := .leaving, status := status }).record
        (.exited (F.member p).pid status))
  | die (p : Slot) (hp : (F.member p).life = .leaving) :
      Step F ((F.orphan p).set p { F.member p with life := .zombie })
  | reap (p q : Slot) (hparent : (F.member q).parent = some p)
      (hzombie : (F.member q).life = .zombie) :
      Step F ((F.set q { F.member q with life := .free, pid := 0, parent := none }).record
        (.waited (F.member p).pid (F.member q).pid (F.member q).status))

/-! ### The invariant -/

/-- The part of the invariant about slots, pids and parents. -/
structure Kin (F : Family) : Prop where
  pid : ∀ q, (F.member q).life ≠ .free →
    1 ≤ (F.member q).pid ∧ (F.member q).pid ≤ creations F.trace
  pid_inj : ∀ p q, (F.member p).life ≠ .free → (F.member q).life ≠ .free →
    (F.member p).pid = (F.member q).pid → p = q
  parent : ∀ q p, (F.member q).parent = some p → q ≠ p ∧ (F.member q).life ≠ .free ∧
    ((F.member p).life = .active ∨ (F.member p).life = .leaving)
  making : ∀ p q, (F.member p).making = some q → (F.member p).life = .active ∧
    (F.member q).life = .embryo ∧ (F.member q).parent = some p
  made : ∀ q p, (F.member q).parent = some p → (F.member q).life = .embryo →
    (F.member p).making = some q
  init : (F.member initproc).life = .active ∧ (F.member initproc).parent = none ∧
    (F.member initproc).pid = 1

/-- The part of the invariant about the history. -/
structure Told (F : Family) : Prop where
  forked : ∀ q p, (F.member q).parent = some p → (F.member q).life ≠ .embryo →
    Event.forked (F.member p).pid (F.member q).pid ∈ F.trace ∨
      p = initproc ∧ ∃ Q x, Event.forked Q (F.member q).pid ∈ F.trace ∧ Event.exited Q x ∈ F.trace
  exited : ∀ q, (F.member q).life = .leaving ∨ (F.member q).life = .zombie →
    Event.exited (F.member q).pid (F.member q).status ∈ F.trace
  exits : ∀ c x : ℤ, Event.exited c x ∈ F.trace → c ≤ creations F.trace ∧
    ∀ q, (F.member q).life ≠ .free → (F.member q).pid = c →
      (F.member q).life = .leaving ∨ (F.member q).life = .zombie
  exit_inj : ∀ c x y : ℤ, Event.exited c x ∈ F.trace → Event.exited c y ∈ F.trace → x = y
  waits : ∀ P c s : ℤ, Event.waited P c s ∈ F.trace → c ≤ creations F.trace ∧
    ∀ q, (F.member q).life ≠ .free → (F.member q).pid ≠ c
  deliveries : Deliveries F.trace

structure Ok (F : Family) : Prop where
  kin : F.Kin
  told : F.Told

variable {F F' : Family}

theorem Kin.step (h : F.Kin) (hstep : F.Step F') : F'.Kin := by
  obtain ⟨hpid, hinj, hparent, hmaking, hmade, hinit⟩ := h
  cases hstep with
  | stutter => exact ⟨hpid, hinj, hparent, hmaking, hmade, hinit⟩
  | create | abandon | adopt | born | exit | die | reap =>
    -- a new pid is above all others (`create`); a process that is made has one parent and no
    -- children (`abandon`, `adopt`, `born`); one that leaves makes no child (`exit`), hands its
    -- children to an active process (`die`) and is then nobody's parent (`reap`)
    constructor <;> simp only [set, record, orphan, update_apply, creations, List.countP_cons,
      Event.isCreated] at * <;> grind -linarith

/-- Events that are not about a step's own process stay true; the step adds what is new: `born` a
fork, `exit` the status, and `reap` a report of a pid that is not used again. -/
theorem Told.step (h : F.Ok) (hstep : F.Step F') : F'.Told := by
  obtain ⟨⟨hpid, hinj, hparent, hmaking, hmade, hinit⟩,
    ⟨hforked, hexited, hexits, hunique, hwaits, hdeliv⟩⟩ := h
  cases hstep with
  | stutter => exact ⟨hforked, hexited, hexits, hunique, hwaits, hdeliv⟩
  | create | abandon | adopt | born | exit | die | reap =>
    constructor <;> simp only [set, record, orphan, update_apply, creations, List.countP_cons,
      Event.isCreated, List.mem_cons, Deliveries] at * <;> grind -linarith [Delivery]

theorem Step.ok (h : F.Ok) (hstep : F.Step F') : F'.Ok := ⟨h.kin.step hstep, .step h hstep⟩

end Family

end Xv6.Ptable
