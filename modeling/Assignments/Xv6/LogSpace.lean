import Assignments.Xv6.Log

/-!
# Space in the log

`begin_op` lets an operation start only when the log has room for `MAXOPBLOCKS` blocks of each
operation under way; it counts the `LOGSIZE` entries of the header. `log_write` panics when
`log.lh.n` reaches `log.size - 1`, which on a disk made by `mkfs` is `LOGSIZE - 1`. The reservation
is one block short: three operations that keep to `MAXOPBLOCKS` blocks each reach the panic
(`tooBig_threeOps`).

The panic is avoided in exactly those runs in which `log_write` is only called when fewer than
`nlog - 1` distinct blocks have been recorded since the last commit (`not_tooBig_iff`), whether or
not the block is a new one: the test comes before the log absorption.
-/

namespace Xv6.Log

open Framework

/-! ### The blocks of a group and of an operation -/

/-- How an event changes the set of blocks recorded since the last commit. -/
def record (blocks : Finset BlockNo) : Event → Finset BlockNo
  | .step (.record _ b) => insert b blocks
  | .step (.clearHead _) => ∅
  | .step .recoverClear => ∅
  | .step .crash => ∅
  | _ => blocks

/-- The blocks recorded since the last commit. -/
def recorded (events : List Event) : Finset BlockNo := events.foldl record ∅

theorem recorded_concat (events : List Event) (e : Event) :
    recorded (events ++ [e]) = record (recorded events) e :=
  List.foldl_append

/-- The call of `log_write` that an event is, with the process and the block. -/
def Event.call : Event → Option (Pid × BlockNo)
  | .step (.logWrite p b _) => some (p, b)
  | .panic (.logWrite p b _) => some (p, b)
  | _ => none

/-- No operation calls `log_write` for more than `MAXOPBLOCKS` distinct blocks; `ops` lists the
blocks of the operations under way. -/
def opsBounded (ops : Pid → List BlockNo) : List Event → Bool
  | [] => true
  | e :: es =>
    match e.call, e with
    | some (p, b), _ =>
      decide ((absorb (ops p) b).length ≤ MAXOPBLOCKS) &&
        opsBounded (Function.update ops p (absorb (ops p) b)) es
    | none, .step (.beginOp p) => opsBounded (Function.update ops p []) es
    | none, _ => opsBounded ops es

/-! ### `log.lh` lists the recorded blocks -/

variable {s s' : State} {l : Label} {blocks : Finset BlockNo}

/-- The header of a running machine lists the recorded blocks, each once. -/
def Lists (blocks : Finset BlockNo) (s : State) : Prop :=
  s.mode = .running → s.lh.Nodup ∧ s.lh.toFinset = blocks

theorem Lists.absorb {lh : List BlockNo} (h : lh.Nodup ∧ lh.toFinset = blocks) (b : BlockNo) :
    (absorb lh b).Nodup ∧ (Log.absorb lh b).toFinset = insert b blocks := by
  unfold Log.absorb
  split_ifs with hb
  · refine ⟨h.1, ?_⟩
    rw [← h.2, Finset.insert_eq_of_mem (List.mem_toFinset.mpr hb)]
  · refine ⟨List.nodup_append.mpr ⟨h.1, List.nodup_singleton b, fun x hx y hy =>
      List.mem_singleton.mp hy ▸ fun heq => hb (heq ▸ hx)⟩, ?_⟩
    rw [List.toFinset_append, h.2, Finset.union_comm]
    rfl

theorem Lists.step (h : Lists blocks s) (hstep : Step s l s') :
    Lists (record blocks (.step l)) s' := by
  intro hmode'
  cases hstep with
  | crash => exact absurd hmode' (by simp [boot])
  | record p b hmode hp => exact Lists.absorb (h hmode) b
  | clearHead p bio hmode hp hbio => exact ⟨List.nodup_nil, rfl⟩
  | readHead bio bio' lh hmode hread hlh hbio => exact absurd hmode' (by simp)
  | recoverInstall tail b bio hmode hb hbio => exact absurd hmode' (by simp)
  | recoverClear bio hmode hbio => exact ⟨List.nodup_nil, rfl⟩
  -- the other steps do not change the header
  | beginOp p hmode => exact h hmode
  | bget p b bio hmode => exact h hmode
  | acquire p b bio hmode => exact h hmode
  | brelse p b bio hmode => exact h hmode
  | logWrite p b data hmode => exact h hmode
  | endOp p hmode => exact h hmode
  | endLast p hmode => exact h hmode
  | writeLog p tail b bio hmode => exact h hmode
  | writeHead p bio hmode => exact h hmode
  | installTrans p tail b bio hmode => exact h hmode
  | finish p hmode => exact h hmode

theorem Lists.next (h : Lists blocks s) {e : Event} (hnext : s.next e = some s') :
    Lists (record blocks e) s' := by
  cases e with
  | step l => exact h.step (step_of_next hnext)
  | panic l =>
    obtain ⟨panic, -, rfl⟩ := panic_of_next hnext
    exact fun hmode => absurd hmode (by simp)

/-- In every run, `log.lh.n` is the number of distinct blocks recorded since the last commit. -/
theorem length_eq_card_recorded {d₀ : Disk} {events : List Event}
    (hrun : run State.next (boot d₀) events = some s) (hmode : s.mode = .running) :
    s.lh.length = (recorded events).card := by
  have hstep : ∀ done s e s', Lists (recorded done) s → True → State.next s e = some s' →
      Lists (recorded (done ++ [e])) s' := by
    intro done s e s' h _ hnext
    rw [recorded_concat]
    exact h.next hnext
  have hlists : Lists (recorded events) s :=
    run_preserves_history hstep (fun hm => absurd hm (by simp [boot])) (along_true _ _) hrun
  obtain ⟨hnodup, hset⟩ := hlists hmode
  rw [← hset, List.toFinset_card_of_nodup hnodup]

/-! ### The panic -/

theorem andThen_ne_tooBig (r : Except Stop Bio) (k : Bio → State) :
    State.andThen r k ≠ .error (.panic .tooBig) := by
  unfold State.andThen
  split <;> simp

theorem useCache_ne_tooBig (p : Pid) (r : Except Stop Bio) :
    s.useCache p r ≠ .error (.panic .tooBig) := by
  unfold State.useCache
  split
  · exact andThen_ne_tooBig _ _
  · exact andThen_ne_tooBig _ _
  · simp

/-- Only `log_write` panics with "too big a transaction". -/
theorem execRunning_ne_tooBig (hl : ∀ p b data, l ≠ .logWrite p b data) :
    s.execRunning l ≠ .error (.panic .tooBig) := by
  cases l with
  | logWrite p b data => exact absurd rfl (hl p b data)
  | beginOp p =>
    show s.beginOp p ≠ _
    unfold State.beginOp
    split
    · split_ifs <;> simp
    · simp
  | bget p b => exact useCache_ne_tooBig _ _
  | acquire p b => exact useCache_ne_tooBig _ _
  | brelse p b => exact useCache_ne_tooBig _ _
  | record p b =>
    show s.record p b ≠ _
    unfold State.record
    split
    · split_ifs <;> simp
    · simp
  | endOp p =>
    show s.endOp p ≠ _
    unfold State.endOp
    split
    · split_ifs <;> simp
    · simp
  | writeLog p =>
    show s.writeLog p ≠ _
    unfold State.writeLog
    split
    · split
      · exact andThen_ne_tooBig _ _
      · simp
    · simp
  | writeHead p =>
    show s.writeHead p ≠ _
    unfold State.writeHead
    split
    · exact andThen_ne_tooBig _ _
    · simp
  | installTrans p =>
    show s.installTrans p ≠ _
    unfold State.installTrans
    split
    · split
      · exact andThen_ne_tooBig _ _
      · simp
    · simp
  | clearHead p =>
    show s.clearHead p ≠ _
    unfold State.clearHead
    split
    · exact andThen_ne_tooBig _ _
    · simp
  | finish p =>
    show s.finish p ≠ _
    unfold State.finish
    split <;> simp
  | crash => simp [State.execRunning]
  | readHead => simp [State.execRunning]
  | recoverInstall => simp [State.execRunning]
  | recoverClear => simp [State.execRunning]

theorem execRecovering_ne_tooBig (pc : RecoverPc) :
    s.execRecovering pc l ≠ .error (.panic .tooBig) := by
  unfold State.execRecovering
  split
  · unfold State.readHead
    split
    · split
      · exact andThen_ne_tooBig _ _
      · simp
    · simp
    · simp
  · unfold State.recoverInstall
    split
    · exact andThen_ne_tooBig _ _
    · simp
  · exact andThen_ne_tooBig _ _
  · simp

/-- A call of `log_write` that panics does so because the log is full, or because there is no
operation. -/
theorem logWrite_panic {p : Pid} {b : BlockNo} {data : Block} {panic : Panic}
    (h : s.exec (.logWrite p b data) = .error (.panic panic)) :
    s.mode = .running ∧ (panic = .tooBig ↔ nlog - 1 ≤ s.lh.length) := by
  simp only [State.exec] at h
  split at h
  · next hmode =>
    refine ⟨hmode, ?_⟩
    simp only [State.execRunning, State.logWrite] at h
    split at h
    · split_ifs at h with hheld hfull hout
      · obtain rfl := Halt.panic.inj (Except.error.inj h)
        exact iff_of_true rfl (hfull.elim (le_trans (Nat.sub_le nlog 1)) id)
      · obtain rfl := Halt.panic.inj (Except.error.inj h)
        exact iff_of_false (by simp) fun hle => hfull (Or.inr hle)
      · exact absurd h (by simp)
    · exact absurd h (by simp)
  · exact absurd h (by unfold State.execRecovering; simp)
  · exact absurd h (by simp)

theorem tooBig_of_exec (h : s.exec l = .error (.panic .tooBig)) :
    ∃ p b data, l = .logWrite p b data := by
  by_contra hl
  push Not at hl
  unfold State.exec at h
  split at h
  · exact absurd h (by simp)
  · split at h
    · exact absurd h (execRunning_ne_tooBig hl)
    · exact absurd h (execRecovering_ne_tooBig _)
    · exact absurd h (by simp)

/-- A step that is taken does not panic. -/
theorem Step.not_panicked (hstep : Step s l s') (panic : Panic) : s'.mode ≠ .panicked panic := by
  cases hstep with
  | crash => simp [boot]
  | readHead bio bio' lh hmode hread hlh hbio => simp
  | recoverInstall tail b bio hmode hb hbio => simp
  | recoverClear bio hmode hbio => simp
  -- the other steps leave the mode as it is
  | beginOp p hmode => exact fun h => absurd (hmode.symm.trans h) (by simp)
  | bget p b bio hmode => exact fun h => absurd (hmode.symm.trans h) (by simp)
  | acquire p b bio hmode => exact fun h => absurd (hmode.symm.trans h) (by simp)
  | brelse p b bio hmode => exact fun h => absurd (hmode.symm.trans h) (by simp)
  | logWrite p b data hmode => exact fun h => absurd (hmode.symm.trans h) (by simp)
  | record p b hmode => exact fun h => absurd (hmode.symm.trans h) (by simp)
  | endOp p hmode => exact fun h => absurd (hmode.symm.trans h) (by simp)
  | endLast p hmode => exact fun h => absurd (hmode.symm.trans h) (by simp)
  | writeLog p tail b bio hmode => exact fun h => absurd (hmode.symm.trans h) (by simp)
  | writeHead p bio hmode => exact fun h => absurd (hmode.symm.trans h) (by simp)
  | installTrans p tail b bio hmode => exact fun h => absurd (hmode.symm.trans h) (by simp)
  | clearHead p bio hmode => exact fun h => absurd (hmode.symm.trans h) (by simp)
  | finish p hmode => exact fun h => absurd (hmode.symm.trans h) (by simp)

/-- An event reaches the panic exactly when it is a call of `log_write` on a full log. -/
theorem next_tooBig_iff {e : Event} (hnext : s.next e = some s') :
    s'.mode = .panicked .tooBig ↔ e.call.isSome ∧ nlog - 1 ≤ s.lh.length := by
  cases e with
  | step l =>
    refine iff_of_false ((step_of_next hnext).not_panicked _) ?_
    rintro ⟨hcall, hfull⟩
    cases l with
    | logWrite p b data =>
      cases step_of_next hnext with
      | logWrite _ _ _ hmode hp hheld hroom => exact absurd hfull (Nat.not_le_of_lt hroom.2)
    | _ => exact absurd hcall (by simp [Event.call])
  | panic l =>
    obtain ⟨panic, hexec, rfl⟩ := panic_of_next hnext
    constructor
    · intro hmode
      obtain rfl := Mode.panicked.inj hmode
      obtain ⟨p, b, data, rfl⟩ := tooBig_of_exec hexec
      exact ⟨rfl, (logWrite_panic hexec).2.mp rfl⟩
    · rintro ⟨hcall, hfull⟩
      cases l with
      | logWrite p b data => exact congrArg Mode.panicked ((logWrite_panic hexec).2.mpr hfull)
      | _ => exact absurd hcall (by simp [Event.call])

/-- A machine on which `log_write` is called runs. -/
theorem running_of_call {e : Event} (hcall : e.call.isSome) (hnext : s.next e = some s') :
    s.mode = .running := by
  cases e with
  | step l =>
    cases l with
    | logWrite p b data =>
      cases step_of_next hnext with
      | logWrite _ _ _ hmode hp hheld hroom => exact hmode
    | _ => exact absurd hcall (by simp [Event.call])
  | panic l =>
    obtain ⟨panic, hexec, -⟩ := panic_of_next hnext
    cases l with
    | logWrite p b data => exact (logWrite_panic hexec).1
    | _ => exact absurd hcall (by simp [Event.call])

/-- **When the panic is avoided**: no state of a run is one of the panic "too big a transaction"
exactly when every call of `log_write` is made with fewer than `nlog - 1` distinct blocks recorded
since the last commit. -/
theorem not_tooBig_iff (d₀ : Disk) (events : List Event) (s : State)
    (hrun : run State.next (boot d₀) events = some s) :
    (∀ done rest t, events = done ++ rest → run State.next (boot d₀) done = some t →
        t.mode ≠ .panicked .tooBig) ↔
      ∀ done e rest, events = done ++ e :: rest → e.call.isSome →
        (recorded done).card < nlog - 1 := by
  constructor
  · intro hsafe done e rest hsplit hcall
    rw [hsplit] at hrun
    obtain ⟨t, ht, hrest⟩ := run_split hrun
    obtain ⟨u, hnext, -⟩ := Option.bind_eq_some_iff.mp hrest
    -- the state after the call is not one of the panic
    have hu : u.mode ≠ .panicked .tooBig :=
      hsafe (done ++ [e]) rest u (by rw [hsplit, List.append_assoc]; rfl)
        (run_concat.mpr ⟨t, ht, hnext⟩)
    rw [← length_eq_card_recorded ht (running_of_call hcall hnext)]
    exact Nat.lt_of_not_le fun hfull => hu ((next_tooBig_iff hnext).mpr ⟨hcall, hfull⟩)
  · intro hcalls done rest t hsplit ht hmode
    rcases List.eq_nil_or_concat done with rfl | ⟨done, e, rfl⟩
    · obtain rfl := Option.some.inj ht
      exact absurd hmode (by simp [boot])
    · rw [List.concat_eq_append] at ht hsplit
      obtain ⟨u, hu, hnext⟩ := run_concat.mp ht
      obtain ⟨hcall, hfull⟩ := (next_tooBig_iff hnext).mp hmode
      rw [length_eq_card_recorded hu (running_of_call hcall hnext)] at hfull
      have hlt := hcalls done e rest (by rw [hsplit, List.append_assoc]; rfl) hcall
      exact absurd hfull (Nat.not_le_of_lt hlt)

/-- One operation that changes one block. -/
def oneOp : List Event :=
  [.step .readHead, .step .recoverClear, .step (.beginOp 1), .step (.bget 1 100),
    .step (.acquire 1 100), .step (.logWrite 1 100 fun _ => 1)]

theorem not_tooBig_oneOp :
    ∃ s, run State.next (boot fun _ _ => 0) oneOp = some s ∧ s.mode ≠ .panicked .tooBig := by
  have hsome : (run State.next (boot fun _ _ => 0) oneOp).isSome = true := by decide +kernel
  obtain ⟨s, hs⟩ := Option.isSome_iff_exists.mp hsome
  refine ⟨s, hs, (not_tooBig_iff _ oneOp s hs).mpr ?_ oneOp [] s (List.append_nil _).symm hs⟩
  have hinits : ∀ done ∈ oneOp.inits, (recorded done).card < nlog - 1 := by decide +kernel
  exact fun done e rest hsplit _ => hinits done ((List.mem_inits _ _).mpr ⟨e :: rest, hsplit.symm⟩)

/-- A process reads a block, changes it and records it. -/
def writeBlock (p : Pid) (b : BlockNo) : List Event :=
  [.step (.bget p b), .step (.acquire p b), .step (.logWrite p b fun _ => 1), .step (.record p b),
    .step (.brelse p b)]

/-- Three operations of ten blocks each, at the same time; the thirtieth block is one too many. -/
def threeOps : List Event :=
  [.step .readHead, .step .recoverClear, .step (.beginOp 1), .step (.beginOp 2),
    .step (.beginOp 3)] ++
    (List.range 29).flatMap (fun i => writeBlock (i / 10 + 1) (100 + i)) ++
    [.step (.bget 3 129), .step (.acquire 3 129), .panic (.logWrite 3 129 fun _ => 1)]

theorem tooBig_threeOps :
    opsBounded (fun _ => []) threeOps = true ∧
      (run State.next (boot fun _ _ => 0) threeOps).map State.mode = some (.panicked .tooBig) := by
  decide +kernel

end Xv6.Log
