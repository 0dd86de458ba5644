import Assignments.Framework.Basic

/-!
# Runs of a partial step function

`run f s as` folds a partial step function over a list of calls; `none` stands for a call that is
not possible or has no result. The calls may be those of one component, one after another, or the
labels of the steps that several threads take in turn. `Along f C s as` says that every call of
the run meets the condition `C` in the state it is made in.

The rules that turn a statement about one step into one about whole runs:

* `run_preserves` — an invariant that the steps meeting `C` preserve holds at the end of a run;
* `run_invariant` — if they also have a result, the run has one;
* `run_simulation` — the same for a relation to an abstract state;
* `run_history`, `run_preserves_history` — the same for an invariant over the calls made so far.
-/

namespace Framework

/-! ### Runs of a partial step function -/

section Run

variable {State Call : Type}

/-- The state reached from `s` by the calls `as`, or `none` when one of them has no result. -/
def run (f : State → Call → Option State) (s : State) (as : List Call) : Option State :=
  as.foldlM f s

/-- Every call of the run meets `C` in the state it is made in. -/
def Along (f : State → Call → Option State) (C : State → Call → Prop) :
    State → List Call → Prop
  | _, [] => True
  | s, a :: as => C s a ∧ ∀ s', f s a = some s' → Along f C s' as

variable {f : State → Call → Option State} {C : State → Call → Prop} {as : List Call}

/-- Whether the calls of a run meet a condition can be computed by running it. -/
instance decidableAlong [∀ s a, Decidable (C s a)] :
    ∀ (s : State) (as : List Call), Decidable (Along f C s as)
  | _, [] => .isTrue trivial
  | s, a :: as =>
    match hf : f s a with
    | none => decidable_of_iff (C s a)
      ⟨fun h => ⟨h, fun s' hs' => by rw [hf] at hs'; cases hs'⟩, fun h => h.1⟩
    | some s' =>
      have := decidableAlong s' as
      decidable_of_iff (C s a ∧ Along f C s' as)
        ⟨fun h => ⟨h.1, fun t ht => by rw [hf] at ht; cases ht; exact h.2⟩,
          fun h => ⟨h.1, h.2 s' hf⟩⟩

@[simp] theorem run_nil (s : State) : run f s [] = some s := rfl

@[simp] theorem run_cons (s : State) (a : Call) (as : List Call) :
    run f s (a :: as) = (f s a).bind fun s' => run f s' as := rfl

theorem run_append (s : State) (as bs : List Call) :
    run f s (as ++ bs) = (run f s as).bind fun s' => run f s' bs := by
  induction as generalizing s with
  | nil => rfl
  | cons a as ih =>
    rw [List.cons_append, run_cons, run_cons, Option.bind_assoc]
    congr 1
    funext s'
    exact ih s'

theorem run_concat {s u : State} {a : Call} :
    run f s (as ++ [a]) = some u ↔ ∃ t, run f s as = some t ∧ f t a = some u := by
  rw [run_append, Option.bind_eq_some_iff]
  refine exists_congr fun t => and_congr_right fun _ => ?_
  rw [run_cons]
  exact Eq.congr_left (Option.bind_fun_some (f t a))

/-- A predicate that every call meeting `C` preserves, if it has a result, holds at the end of a
run all of whose calls meet `C`. -/
theorem run_preserves {Inv : State → Prop}
    (hstep : ∀ s a s', Inv s → C s a → f s a = some s' → Inv s') {s t : State} (hs : Inv s)
    (has : Along f C s as) (h : run f s as = some t) : Inv t := by
  induction as generalizing s with
  | nil => exact Option.some.inj h ▸ hs
  | cons a as ih =>
    rw [run_cons] at h
    obtain ⟨s', hf, h⟩ := Option.bind_eq_some_iff.mp h
    exact ih (hstep s a s' hs has.1 hf) (has.2 s' hf) h

/-- **The run rule.** An invariant that every call meeting `C` preserves, with a result, carries
a run all of whose calls meet `C` to its end. -/
theorem run_invariant {Inv : State → Prop}
    (hstep : ∀ s a, Inv s → C s a → ∃ s', f s a = some s' ∧ Inv s') {s : State} (hs : Inv s)
    (has : Along f C s as) : ∃ s', run f s as = some s' ∧ Inv s' := by
  induction as generalizing s with
  | nil => exact ⟨s, rfl, hs⟩
  | cons a as ih =>
    obtain ⟨s', hf, hs'⟩ := hstep s a hs has.1
    obtain ⟨t, ht, hInv⟩ := ih hs' (has.2 s' hf)
    exact ⟨t, by rw [run_cons, hf]; exact ht, hInv⟩

/-- **The simulation rule.** A relation to an abstract state that every call meeting `C`
preserves, with a result, carries a run all of whose calls meet `C` along the abstract run. -/
theorem run_simulation {Abs : Type} {g : Abs → Call → Abs} {R : State → Abs → Prop}
    (hstep : ∀ s b a, R s b → C s a → ∃ s', f s a = some s' ∧ R s' (g b a)) {s : State} {b : Abs}
    (hs : R s b) (has : Along f C s as) : ∃ s', run f s as = some s' ∧ R s' (as.foldl g b) := by
  induction as generalizing s b with
  | nil => exact ⟨s, rfl, hs⟩
  | cons a as ih =>
    obtain ⟨s', hf, hs'⟩ := hstep s b a hs has.1
    obtain ⟨t, ht, hR⟩ := ih hs' (has.2 s' hf)
    exact ⟨t, by rw [run_cons, hf]; exact ht, hR⟩

/-- The condition of a longer run, at its last call. -/
theorem along_concat (s : State) (as : List Call) (a : Call) :
    Along f C s (as ++ [a]) ↔ Along f C s as ∧ ∀ s', run f s as = some s' → C s' a := by
  induction as generalizing s with
  | nil => simp [Along]
  | cons b as ih =>
    rw [List.cons_append]
    constructor
    · rintro ⟨hb, hrest⟩
      refine ⟨⟨hb, fun s' hs' => ((ih s').mp (hrest s' hs')).1⟩, ?_⟩
      intro t ht
      rw [run_cons] at ht
      obtain ⟨s', hs', ht⟩ := Option.bind_eq_some_iff.mp ht
      exact ((ih s').mp (hrest s' hs')).2 t ht
    · rintro ⟨⟨hb, hrest⟩, hlast⟩
      refine ⟨hb, fun s' hs' => (ih s').mpr ⟨hrest s' hs', fun t ht => hlast t ?_⟩⟩
      rw [run_cons, hs']
      exact ht

/-- `run_preserves` with the calls made so far at hand. -/
theorem run_preserves_history {Inv : List Call → State → Prop}
    (hstep : ∀ done s a s', Inv done s → C s a → f s a = some s' → Inv (done ++ [a]) s')
    {s t : State} (hs : Inv [] s) (has : Along f C s as) (h : run f s as = some t) : Inv as t := by
  induction as using List.reverseRecOn generalizing t with
  | nil => exact Option.some.inj h ▸ hs
  | append_singleton as a ih =>
    obtain ⟨has, ha⟩ := (along_concat s as a).mp has
    obtain ⟨u, hu, hf⟩ := run_concat.mp h
    exact hstep as u a t (ih has hu) (ha u hu) hf

/-- **The run rule with the calls made so far at hand.** -/
theorem run_history {Inv : List Call → State → Prop}
    (hstep : ∀ done s a, Inv done s → C s a → ∃ s', f s a = some s' ∧ Inv (done ++ [a]) s')
    {s : State} (hs : Inv [] s) (has : Along f C s as) :
    ∃ s', run f s as = some s' ∧ Inv as s' := by
  induction as using List.reverseRecOn with
  | nil => exact ⟨s, rfl, hs⟩
  | append_singleton as a ih =>
    obtain ⟨has, ha⟩ := (along_concat s as a).mp has
    obtain ⟨t, ht, hInv⟩ := ih has
    obtain ⟨t', hf, hInv'⟩ := hstep as t a hInv (ha t ht)
    exact ⟨t', run_concat.mpr ⟨t, ht, hf⟩, hInv'⟩

/-- The condition of a run, at each of its calls. -/
theorem along_iff (s : State) (as : List Call) :
    Along f C s as ↔ ∀ done a rest s', as = done ++ a :: rest →
      run f s done = some s' → C s' a := by
  induction as using List.reverseRecOn with
  | nil => simp [Along]
  | append_singleton as b ih =>
    rw [along_concat, ih]
    constructor
    · rintro ⟨has, hb⟩ done a rest s' hsplit hrun
      -- the call is one of `as`, or the last one
      rcases List.eq_nil_or_concat rest with rfl | ⟨rest', b', rfl⟩
      · obtain ⟨rfl, hab⟩ := List.append_inj' hsplit rfl
        obtain rfl : b = a := by simpa using hab
        exact hb s' hrun
      · rw [List.concat_eq_append, ← List.cons_append, ← List.append_assoc] at hsplit
        obtain ⟨rfl, -⟩ := List.append_inj' hsplit rfl
        exact has done a rest' s' rfl hrun
    · intro h
      refine ⟨fun done a rest s' hsplit hrun => h done a (rest ++ [b]) s' ?_ hrun, fun s' hrun =>
        h as b [] s' rfl hrun⟩
      rw [hsplit, List.append_assoc, List.cons_append]

/-- The calls made first meet the condition as well. -/
theorem Along.left {s : State} {as bs : List Call} (h : Along f C s (as ++ bs)) :
    Along f C s as := by
  rw [along_iff] at h ⊢
  intro done a rest s' hsplit hrun
  exact h done a (rest ++ bs) s' (by rw [hsplit, List.append_assoc]; rfl) hrun

/-- The calls made afterwards meet the condition as well. -/
theorem Along.right {s t : State} {as bs : List Call} (h : Along f C s (as ++ bs))
    (hrun : run f s as = some t) : Along f C t bs := by
  rw [along_iff] at h ⊢
  intro done a rest s' hsplit hdone
  refine h (as ++ done) a rest s' (by rw [hsplit, List.append_assoc]) ?_
  rw [run_append, hrun]
  exact hdone

theorem along_of_forall {P : Call → Prop} {s : State} (h : ∀ a ∈ as, P a) :
    Along f (fun _ a => P a) s as := by
  induction as generalizing s with
  | nil => trivial
  | cons a as ih =>
    exact ⟨h a List.mem_cons_self, fun s' _ => ih fun b hb => h b (List.mem_cons_of_mem a hb)⟩

theorem along_true (s : State) (as : List Call) : Along f (fun _ _ => True) s as :=
  (along_iff s as).mpr fun _ _ _ _ _ _ => trivial

/-- A run along a concatenation passes through a state between the two parts. -/
theorem run_split {s u : State} {as bs : List Call} (h : run f s (as ++ bs) = some u) :
    ∃ t, run f s as = some t ∧ run f t bs = some u := by
  rw [run_append] at h
  exact Option.bind_eq_some_iff.mp h

theorem run_append_eq {s t u : State} {as bs : List Call} (h₁ : run f s as = some t)
    (h₂ : run f t bs = some u) : run f s (as ++ bs) = some u := by
  rw [run_append, h₁]
  exact h₂

theorem Along.and_of_forall {P : Call → Prop} {s : State} (h : Along f C s as)
    (hP : ∀ a ∈ as, P a) : Along f (fun s a => C s a ∧ P a) s as := by
  rw [along_iff] at h ⊢
  intro done a rest s' hsplit hrun
  exact ⟨h done a rest s' hsplit hrun, hP a (by rw [hsplit]; simp)⟩

end Run

/-! ### Computations that may fail -/

theorem except_bind_eq_ok {ε α β : Type} {x : Except ε α} {f : α → Except ε β} {b : β} :
    x >>= f = .ok b ↔ ∃ a, x = .ok a ∧ f a = .ok b := by
  cases x with
  | error e => exact iff_of_false (fun h => by simp [bind, Except.bind] at h) (by simp)
  | ok a => exact ⟨fun h => ⟨a, rfl, h⟩, fun ⟨a', ha, h⟩ => Except.ok.inj ha ▸ h⟩

end Framework
