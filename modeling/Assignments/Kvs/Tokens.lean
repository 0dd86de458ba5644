import Assignments.Framework.Run
import Assignments.Kvs.Bytes

/-!
# Client tokens

A CON request is answered with a token, the value of the global `clientcount`.
`ConCallData::Proceed` reads it into the reply, reads it again for the log line, and increments it
under a mutex; the three are separate steps, and the handlers of different threads take them in any
order.

Two handlers that both read before either increments hand out one token twice (`same_token`). The
tokens of a run are distinct exactly when no handler reads the token while another one is between
its read and its increment, and there are no more requests than tokens (`distinct_iff`).
-/

namespace Kvs

open Framework

namespace Tokens

/-- A handler of a CON request. -/
abbrev Handler : Type := ℕ

/-- Where a handler is in the `PROCESS` branch, with the `contoken` of its `reply_`. -/
inductive Phase where
  | process
  | tokenSet (contoken : ℤ)
  | logged (contoken : ℤ)
  | counted (contoken : ℤ)
  | finish (contoken : ℤ)
  deriving DecidableEq, Repr

/-- The token in the reply of a handler, once it is set. -/
def Phase.contoken : Phase → Option ℤ
  | .process => none
  | .tokenSet tok => some tok
  | .logged tok => some tok
  | .counted tok => some tok
  | .finish tok => some tok

/-- The token is read and the count not yet incremented. -/
def Phase.Pending : Phase → Prop
  | .tokenSet _ => True
  | .logged _ => True
  | _ => False

structure State where
  clientcount : ℤ
  phase : Handler → Phase
  /-- The numbers in the log lines. -/
  log : List ℤ

inductive Label where
  /-- `reply_.set_contoken(clientcount);` -/
  | setToken (h : Handler)
  /-- `createlog("Connection Established with : " + to_string(clientcount) + "\n");` -/
  | createlog (h : Handler)
  /-- `clientcountmutex.lock(); clientcount++; clientcountmutex.unlock();` -/
  | increment (h : Handler)
  /-- `responder_.Finish(reply_, Status::OK, this);` -/
  | finish (h : Handler)
  deriving DecidableEq, Repr

namespace State

def goto (s : State) (h : Handler) (phase : Phase) : State :=
  { s with phase := Function.update s.phase h phase }

def next (s : State) : Label → Option State
  | .setToken h =>
    match s.phase h with
    | .process => some (s.goto h (.tokenSet s.clientcount))
    | _ => none
  | .createlog h =>
    match s.phase h with
    | .tokenSet tok => some { s.goto h (.logged tok) with log := s.log ++ [s.clientcount] }
    | _ => none
  | .increment h =>
    match s.phase h with
    | .logged tok => some { s.goto h (.counted tok) with clientcount := int32 (s.clientcount + 1) }
    | _ => none
  | .finish h =>
    match s.phase h with
    | .counted tok => some (s.goto h (.finish tok))
    | _ => none

end State

/-- No request has been processed. -/
def initial : State := ⟨0, fun _ => .process, []⟩

/-- No two replies carry the same token. -/
def Distinct (s : State) : Prop :=
  ∀ h h' tok, (s.phase h).contoken = some tok → (s.phase h').contoken = some tok → h = h'

/-- A token is read only when no handler is between its read and its increment. -/
def Exclusive (s : State) : Label → Prop
  | .setToken _ => ∀ h, ¬ (s.phase h).Pending
  | _ => True

/-- The number of requests that were given a token. -/
def requests (labels : List Label) : ℕ :=
  labels.countP fun | .setToken _ => true | _ => false

/-! ### What a step can do -/

variable {s s' : State} {order : List Handler} {h : Handler} {l : Label}

theorem goto_phase (s : State) (h h' : Handler) (phase : Phase) :
    (s.goto h phase).phase h' = if h' = h then phase else s.phase h' := by
  unfold State.goto
  by_cases hh : h' = h
  · rw [if_pos hh, hh]
    exact Function.update_self _ _ _
  · rw [if_neg hh]
    exact Function.update_of_ne hh _ _

/-- The steps, one constructor each. -/
inductive Step (s : State) : Label → State → Prop
  | setToken (h : Handler) (hh : s.phase h = .process) :
      Step s (.setToken h) (s.goto h (.tokenSet s.clientcount))
  | createlog (h : Handler) (tok : ℤ) (hh : s.phase h = .tokenSet tok) :
      Step s (.createlog h) { s.goto h (.logged tok) with log := s.log ++ [s.clientcount] }
  | increment (h : Handler) (tok : ℤ) (hh : s.phase h = .logged tok) :
      Step s (.increment h)
        { s.goto h (.counted tok) with clientcount := int32 (s.clientcount + 1) }
  | finish (h : Handler) (tok : ℤ) (hh : s.phase h = .counted tok) :
      Step s (.finish h) (s.goto h (.finish tok))

theorem step_of_next (h : s.next l = some s') : Step s l s' := by
  cases l with
  | setToken h₀ =>
    simp only [State.next] at h
    split at h
    · next hh => exact Option.some.inj h ▸ .setToken h₀ hh
    · exact absurd h (by simp)
  | createlog h₀ =>
    simp only [State.next] at h
    split at h
    · next tok hh => exact Option.some.inj h ▸ .createlog h₀ tok hh
    · exact absurd h (by simp)
  | increment h₀ =>
    simp only [State.next] at h
    split at h
    · next tok hh => exact Option.some.inj h ▸ .increment h₀ tok hh
    · exact absurd h (by simp)
  | finish h₀ =>
    simp only [State.next] at h
    split at h
    · next tok hh => exact Option.some.inj h ▸ .finish h₀ tok hh
    · exact absurd h (by simp)

/-- A token that is set stays in its reply. -/
theorem Step.contoken (hstep : Step s l s') {tok : ℤ} (hh : (s.phase h).contoken = some tok) :
    (s'.phase h).contoken = some tok := by
  cases hstep with
  | setToken h₀ h₁ =>
    rw [goto_phase]
    split_ifs with heq
    · rw [heq, h₁] at hh
      exact absurd hh (by simp [Phase.contoken])
    · exact hh
  | createlog h₀ tok' h₁ =>
    show ((s.goto h₀ (.logged tok')).phase h).contoken = some tok
    rw [goto_phase]
    split_ifs with heq
    · rw [heq, h₁] at hh
      exact hh
    · exact hh
  | increment h₀ tok' h₁ =>
    show ((s.goto h₀ (.counted tok')).phase h).contoken = some tok
    rw [goto_phase]
    split_ifs with heq
    · rw [heq, h₁] at hh
      exact hh
    · exact hh
  | finish h₀ tok' h₁ =>
    rw [goto_phase]
    split_ifs with heq
    · rw [heq, h₁] at hh
      exact hh
    · exact hh

/-! ### Runs in which the reads are exclusive -/

/-- The count is the number of handlers that read it, or, while the last of these is pending, one
less. -/
def Counted (s : State) (order : List Handler) : Prop :=
  (∀ h, ¬ (s.phase h).Pending) ∧ s.clientcount = int32 order.length ∨
    ∃ rest last, order = rest ++ [last] ∧ (∀ h, (s.phase h).Pending ↔ h = last) ∧
      s.clientcount = int32 rest.length

/-- The handlers in the order of their reads: number `i` has token `i`. -/
structure Ordered (s : State) (order : List Handler) : Prop where
  nodup : order.Nodup
  token : ∀ (i : ℕ) h, order[i]? = some h → (s.phase h).contoken = some (int32 i)
  started : ∀ h tok, (s.phase h).contoken = some tok → h ∈ order
  counted : Counted s order

theorem Ordered.initial : Ordered initial [] where
  nodup := List.nodup_nil
  token i h hi := by simp at hi
  started h tok hh := by simp [Tokens.initial, Phase.contoken] at hh
  counted := Or.inl ⟨fun h => by simp [Tokens.initial, Phase.Pending], rfl⟩

/-- A pending handler was the last to read, and the count is still its token. -/
theorem Counted.pending (hcount : Counted s order) (hh : (s.phase h).Pending) :
    ∃ rest, order = rest ++ [h] ∧ (∀ h', (s.phase h').Pending ↔ h' = h) ∧
      s.clientcount = int32 rest.length := by
  rcases hcount with ⟨hnone, -⟩ | ⟨rest, last, rfl, honly, hcount⟩
  · exact absurd hh (hnone h)
  · obtain rfl := (honly h).mp hh
    exact ⟨rest, rfl, honly, hcount⟩

theorem Counted.of_none (hcount : Counted s order) (hnone : ∀ h, ¬ (s.phase h).Pending) :
    s.clientcount = int32 order.length := by
  rcases hcount with ⟨-, hcount⟩ | ⟨rest, last, rfl, honly, hcount⟩
  · exact hcount
  · exact absurd ((honly last).mpr rfl) (hnone last)

/-- A step that leaves every token as it is keeps the order. -/
theorem Ordered.of_contoken (hinv : Ordered s order)
    (hsame : ∀ h, (s'.phase h).contoken = (s.phase h).contoken) (hcount : Counted s' order) :
    Ordered s' order where
  nodup := hinv.nodup
  token i h hi := (hsame h).trans (hinv.token i h hi)
  started h tok htok := hinv.started h tok ((hsame h).symm.trans htok)
  counted := hcount

theorem goto_contoken {phase : Phase} (hh : (s.phase h).contoken = phase.contoken) (h' : Handler) :
    ((s.goto h phase).phase h').contoken = (s.phase h').contoken := by
  rw [goto_phase]
  split_ifs with heq
  · rw [heq, hh]
  · rfl

theorem goto_pending {phase : Phase} (hh : (s.phase h).Pending ↔ phase.Pending) (h' : Handler) :
    ((s.goto h phase).phase h').Pending ↔ (s.phase h').Pending := by
  rw [goto_phase]
  split_ifs with heq
  · rw [heq, hh]
  · rfl

/-- The count stays right when neither it nor the pending handlers change. -/
theorem Counted.of_pending (hcount : Counted s order)
    (hsame : ∀ h, (s'.phase h).Pending ↔ (s.phase h).Pending)
    (hcc : s'.clientcount = s.clientcount) : Counted s' order := by
  rcases hcount with ⟨hnone, hcount⟩ | ⟨rest, last, rfl, honly, hcount⟩
  · exact Or.inl ⟨fun h hh => hnone h ((hsame h).mp hh), hcc.trans hcount⟩
  · exact Or.inr ⟨rest, last, rfl, fun h => (hsame h).trans (honly h), hcc.trans hcount⟩

/-- The read of an exclusive run: the new token is the number of those handed out. -/
theorem Ordered.setToken (hinv : Ordered s order) (hh : s.phase h = .process)
    (hnone : ∀ h, ¬ (s.phase h).Pending) :
    Ordered (s.goto h (.tokenSet s.clientcount)) (order ++ [h]) := by
  have hcount := hinv.counted.of_none hnone
  have hfresh : h ∉ order := by
    intro hmem
    obtain ⟨i, hi⟩ := List.mem_iff_getElem?.mp hmem
    have := hinv.token i h hi
    rw [hh] at this
    exact absurd this (by simp [Phase.contoken])
  refine ⟨?_, ?_, ?_, Or.inr ⟨order, h, rfl, ?_, hcount⟩⟩
  · exact List.nodup_append.mpr ⟨hinv.nodup, List.nodup_singleton h, fun a ha b hb =>
      List.mem_singleton.mp hb ▸ fun hab => hfresh (hab ▸ ha)⟩
  · intro i h' hi
    rw [goto_phase]
    rcases Nat.lt_trichotomy i order.length with hlt | rfl | hgt
    · rw [List.getElem?_append_left hlt] at hi
      have hne : h' ≠ h := fun heq => hfresh (heq ▸ List.mem_of_getElem? hi)
      rw [if_neg hne]
      exact hinv.token i h' hi
    · obtain rfl : h = h' := by simpa using hi
      rw [if_pos rfl, ← hcount]
      rfl
    · rw [List.getElem?_eq_none (by rw [List.length_append]; exact hgt)] at hi
      exact absurd hi (by simp)
  · intro h' tok htok
    rw [goto_phase] at htok
    split_ifs at htok with heq
    · simp [heq]
    · exact List.mem_append_left _ (hinv.started h' tok htok)
  · intro h'
    rw [goto_phase]
    split_ifs with heq
    · simp [heq, Phase.Pending]
    · exact iff_of_false (hnone h') heq

/-- The increment of the pending handler. -/
theorem Ordered.increment (hinv : Ordered s order) {tok : ℤ} (hh : s.phase h = .logged tok) :
    Ordered { s.goto h (.counted tok) with clientcount := int32 (s.clientcount + 1) } order := by
  have hp : (s.phase h).Pending := by rw [hh]; trivial
  obtain ⟨rest, rfl, honly, hcount⟩ := hinv.counted.pending hp
  refine hinv.of_contoken (goto_contoken (by rw [hh]; rfl)) (Or.inl ⟨?_, ?_⟩)
  · intro h' hp'
    rw [show (_ : State).phase h' = _ from goto_phase s h h' (.counted tok)] at hp'
    split_ifs at hp' with heq
    · exact hp'
    · exact heq ((honly h').mp hp')
  · show int32 (s.clientcount + 1) = int32 ((rest ++ [h]).length : ℤ)
    rw [hcount, int32_int32_add, List.length_append]
    rfl

/-- **An exclusive step keeps the order**, and adds a handler to it exactly when it reads. -/
theorem Ordered.step (hinv : Ordered s order) (hl : Exclusive s l) (hstep : Step s l s') :
    ∃ order', Ordered s' order' ∧ order'.length = order.length + requests [l] := by
  cases hstep with
  | setToken h hh =>
    exact ⟨order ++ [h], hinv.setToken hh hl, by simp [requests]⟩
  | createlog h tok hh =>
    refine ⟨order, hinv.of_contoken (goto_contoken (by rw [hh]; rfl)) ?_, by simp [requests]⟩
    exact hinv.counted.of_pending (goto_pending (by rw [hh]; rfl)) rfl
  | increment h tok hh =>
    exact ⟨order, hinv.increment hh, by simp [requests]⟩
  | finish h tok hh =>
    refine ⟨order, hinv.of_contoken (goto_contoken (by rw [hh]; rfl)) ?_, by simp [requests]⟩
    exact hinv.counted.of_pending (goto_pending (by rw [hh]; rfl)) rfl

theorem requests_append (labels labels' : List Label) :
    requests (labels ++ labels') = requests labels + requests labels' :=
  List.countP_append

/-- In an exclusive run the handlers are ordered, and there is one for each request. -/
theorem ordered_of_along {labels : List Label} (hlabels : Along State.next Exclusive initial labels)
    (hrun : run State.next initial labels = some s) :
    ∃ order, Ordered s order ∧ order.length = requests labels := by
  have hstep : ∀ done s l s', (∃ order, Ordered s order ∧ order.length = requests done) →
      Exclusive s l → State.next s l = some s' →
      ∃ order, Ordered s' order ∧ order.length = requests (done ++ [l]) := by
    rintro done s l s' ⟨order, hinv, hlen⟩ hl hnext
    obtain ⟨order', hinv', hlen'⟩ := hinv.step hl (step_of_next hnext)
    exact ⟨order', hinv', by rw [hlen', hlen, requests_append]⟩
  exact run_preserves_history hstep ⟨[], Ordered.initial, rfl⟩ hlabels hrun

/-- Ordered handlers carry distinct tokens exactly as long as the tokens have not wrapped
around. -/
theorem Ordered.distinct_iff_length (hinv : Ordered s order) :
    Distinct s ↔ order.length ≤ 2 ^ 32 := by
  constructor
  · intro hdistinct
    by_contra hlen
    have hpos : 0 < order.length := by omega
    have hlong : 2 ^ 32 < order.length := by omega
    -- numbers 0 and 2 ^ 32 have the same token
    have hfirst := hinv.token 0 order[0] (List.getElem?_eq_getElem hpos)
    have hwrap := hinv.token (2 ^ 32) order[2 ^ 32] (List.getElem?_eq_getElem hlong)
    have hzero : int32 ((2 ^ 32 : ℕ) : ℤ) = int32 ((0 : ℕ) : ℤ) := by decide
    have heq : order[0] = order[2 ^ 32] := hdistinct _ _ _ hfirst (hzero ▸ hwrap)
    have := (List.Nodup.getElem_inj_iff hinv.nodup).mp heq
    omega
  · intro hlen h h' tok hh hh'
    obtain ⟨i, hi⟩ := List.mem_iff_getElem?.mp (hinv.started h tok hh)
    obtain ⟨j, hj⟩ := List.mem_iff_getElem?.mp (hinv.started h' tok hh')
    have htok : int32 i = int32 j := by
      have h₁ := (hinv.token i h hi).symm.trans hh
      have h₂ := (hinv.token j h' hj).symm.trans hh'
      exact Option.some.inj (h₁.trans h₂.symm)
    have hij : i = j :=
      int32_inj ((List.getElem?_eq_some_iff.mp hi).1.trans_le hlen)
        ((List.getElem?_eq_some_iff.mp hj).1.trans_le hlen) htok
    rw [hij] at hi
    exact Option.some.inj (hi.symm.trans hj)

/-! ### Runs in which they are not -/

/-- The second of two overlapping reads gives the token of the first one. -/
theorem Ordered.not_distinct (hinv : Ordered s order) (hl : ¬ Exclusive s l) (hstep : Step s l s') :
    ¬ Distinct s' := by
  cases hstep with
  | setToken h hh =>
    obtain ⟨h', hp⟩ : ∃ h', (s.phase h').Pending := not_forall_not.mp hl
    obtain ⟨rest, rfl, -, hcount⟩ := hinv.counted.pending hp
    have hne : h' ≠ h := by
      rintro rfl
      rw [hh] at hp
      exact hp
    have htok : (s.phase h').contoken = some s.clientcount := by
      rw [hcount]
      exact hinv.token rest.length h' (by simp)
    intro hdistinct
    refine hne (hdistinct h' h s.clientcount ?_ ?_)
    · rw [goto_phase, if_neg hne]
      exact htok
    · rw [goto_phase, if_pos rfl]
      rfl
  | createlog h tok hh => exact absurd trivial hl
  | increment h tok hh => exact absurd trivial hl
  | finish h tok hh => exact absurd trivial hl

theorem Step.not_distinct (hstep : Step s l s') (h : ¬ Distinct s) : ¬ Distinct s' :=
  fun hdistinct => h fun h₁ h₂ tok hh₁ hh₂ =>
    hdistinct h₁ h₂ tok (hstep.contoken hh₁) (hstep.contoken hh₂)

/-- A run in which two reads overlap hands out a token twice. -/
theorem not_distinct_of_not_along {labels : List Label}
    (hlabels : ¬ Along State.next Exclusive initial labels)
    (hrun : run State.next initial labels = some s) : ¬ Distinct s := by
  induction labels using List.reverseRecOn generalizing s with
  | nil => exact absurd trivial hlabels
  | append_singleton labels l ih =>
    obtain ⟨u, hu, hnext⟩ := run_concat.mp hrun
    by_cases halong : Along State.next Exclusive initial labels
    · -- the last step is the one that overlaps
      obtain ⟨order, hinv, -⟩ := ordered_of_along halong hu
      refine hinv.not_distinct (fun hl => hlabels ?_) (step_of_next hnext)
      exact (along_concat _ _ _).mpr ⟨halong,
        fun u' hu' => Option.some.inj (hu.symm.trans hu') ▸ hl⟩
    · exact (step_of_next hnext).not_distinct (ih halong hu)

/-- **Tokens are distinct exactly when the reads exclude each other** and do not wrap around. -/
theorem distinct_iff (labels : List Label) (s : State)
    (hrun : run State.next initial labels = some s) :
    Distinct s ↔ Along State.next Exclusive initial labels ∧ requests labels ≤ 2 ^ 32 := by
  by_cases halong : Along State.next Exclusive initial labels
  · obtain ⟨order, hinv, hlen⟩ := ordered_of_along halong hrun
    rw [hinv.distinct_iff_length, hlen]
    exact (and_iff_right halong).symm
  · exact iff_of_false (not_distinct_of_not_along halong hrun) fun h => halong h.1

/-- Two clients one after the other. -/
def oneByOne : List Label :=
  [.setToken 0, .createlog 0, .increment 0, .finish 0,
    .setToken 1, .createlog 1, .increment 1, .finish 1]

theorem distinct_oneByOne :
    ∃ s, run State.next initial oneByOne = some s ∧
      (s.phase 0).contoken = some 0 ∧ (s.phase 1).contoken = some 1 ∧ Distinct s := by
  refine ⟨_, rfl, rfl, rfl, (distinct_iff oneByOne _ rfl).mpr ⟨?_, by decide⟩⟩
  -- at the second read, handler 0 has finished
  have hsecond : ∀ h, ¬ ((initial.goto 0 (.tokenSet 0)).goto 0 (.logged 0) |>.goto 0 (.counted 0)
      |>.goto 0 (.finish 0) |>.phase h).Pending := by
    intro h
    by_cases hh : h = 0 <;> simp [goto_phase, hh, initial, Phase.Pending]
  refine ⟨fun h => id, ?_⟩
  rintro _ ⟨⟩
  refine ⟨trivial, ?_⟩
  rintro _ ⟨⟩
  refine ⟨trivial, ?_⟩
  rintro _ ⟨⟩
  refine ⟨trivial, ?_⟩
  rintro _ ⟨⟩
  refine ⟨hsecond, ?_⟩
  rintro _ ⟨⟩
  refine ⟨trivial, ?_⟩
  rintro _ ⟨⟩
  refine ⟨trivial, ?_⟩
  rintro _ ⟨⟩
  exact ⟨trivial, fun _ _ => trivial⟩

/-- Both clients are given token 0: the second handler reads the count before the first one has
incremented it. -/
theorem same_token :
    ∃ s, run State.next initial
        [.setToken 0, .setToken 1, .createlog 0, .createlog 1, .increment 0, .increment 1,
          .finish 0, .finish 1] = some s ∧
      s.phase 0 = .finish 0 ∧ s.phase 1 = .finish 0 ∧ ¬ Distinct s := by
  refine ⟨_, rfl, rfl, rfl, fun hdistinct => ?_⟩
  exact absurd (hdistinct 0 1 0 rfl rfl) (by decide)

end Tokens

end Kvs
