import Assignments.Framework.Basic

/-!
# The conditional operators of the shell

`executecmd` of `shell.c`: it looks for the operators `;`, `&&`, `||`, `|` and the redirections in
this order, splits the tokens at the first one it finds and runs the parts, each in a child of its
own. What a run does is a `Trace`: the simple commands that ran, with the status each passed to
`exit`, and for every `&&` and `||` whether its right side ran.

Three things of the source matter here:

* a child that runs a part of the line ends with `exit(0)`, whatever the part's status was;
* `wait(0)` stores the status at address 0, which is mapped (`zero` is the word there);
* the loop that looks for redirections goes one token too far, to the null pointer at the end, and
  so compares the string at address 0. After a status of 60 or 62 this is the string `<` or `>`,
  and `executecmd` then calls itself for the same tokens without an end.

`Cmd` is the tree that the splits make of the tokens. The results:

* `executecmd_ran` — what `executecmd` runs: both sides of every `&&`, the left side of every `||`;
* `conditional_iff` — the operators do as they should just if every left side succeeds.
-/

namespace Xv6.Shell

/-! ### The tokens -/

abbrev Word : Type := List Char

/-- The tokens before and after the first `w`. -/
def splitAt (w : Word) : List Word → Option (List Word × List Word)
  | [] => none
  | token :: tokens =>
    if token = w then some ([], tokens)
    else (splitAt w tokens).map fun (lhs, rhs) => (token :: lhs, rhs)

/-- `strcmp(0, ...) == 0` for a string of one character, when the word at address 0 is `zero`. -/
def nullIs (zero : ℤ) (c : Char) : Prop := zero % 2 ^ 16 = c.toNat

instance (zero : ℤ) (c : Char) : Decidable (nullIs zero c) := by
  unfold nullIs
  infer_instance

/-- The tokens before the first `<` or `>`. The loop also looks at the null pointer that ends the
tokens. -/
def beforeRedirection (zero : ℤ) : List Word → Option (List Word)
  | [] => if nullIs zero '<' ∨ nullIs zero '>' then some [] else none
  | token :: tokens =>
    if token = ['<'] ∨ token = ['>'] then some []
    else (beforeRedirection zero tokens).map (token :: ·)

inductive Op where
  | and
  | or
deriving DecidableEq, Repr

/-- The test of the left side's status before the right side is run. -/
def Op.test : Op → ℤ → Bool
  | .and, status => status = 0
  | .or, status => status ≠ 0

/-- What `executecmd` finds the tokens to be. -/
inductive Form where
  | seq (lhs rhs : List Word)
  | cond (op : Op) (lhs rhs : List Word)
  | pipe (lhs rhs : List Word)
  | redirect (tokens : List Word)
  | simple
deriving DecidableEq, Repr

/-- The loops of `executecmd`, one after another. -/
def form (zero : ℤ) (tokens : List Word) : Form :=
  match splitAt [';'] tokens with
  | some (lhs, rhs) => .seq lhs rhs
  | none =>
    match splitAt ['&', '&'] tokens with
    | some (lhs, rhs) => .cond .and lhs rhs
    | none =>
      match splitAt ['|', '|'] tokens with
      | some (lhs, rhs) => .cond .or lhs rhs
      | none =>
        match splitAt ['|'] tokens with
        | some (lhs, rhs) => .pipe lhs rhs
        | none =>
          match beforeRedirection zero tokens with
          | some tokens => .redirect tokens
          | none => .simple

/-! ### `executecmd` -/

/-- What a run has done. -/
inductive Trace where
  /-- A simple command ran and passed `status` to `exit`. -/
  | simple (status : ℤ)
  | seq (left right : Trace)
  | pipe (left right : Trace)
  | redirect (inner : Trace)
  /-- An operator whose right side did not run. -/
  | skipped (op : Op) (left : Trace)
  /-- An operator whose right side ran. -/
  | both (op : Op) (left right : Trace)
deriving DecidableEq, Repr

/-- The statuses of the simple commands: each is named by the way that leads to it, `false` for a
left side and `true` for a right side. -/
abbrev Statuses : Type := List Bool → ℤ

/-- The statuses of the commands on one side. -/
def Statuses.on (status : Statuses) (side : Bool) : Statuses := fun path => status (side :: path)

/-- The status that a child passes to `exit` once it has run its part of the line. -/
def exitStatus : ℤ := 0

/-- `executecmd`, in a process whose word at address 0 is `zero`: what it does, and that word
afterwards. Every call of `fork` makes a child. There is no result when the fuel does not suffice
for the depth of the calls. -/
def executecmd : ℕ → ℤ → Statuses → List Word → Option (Trace × ℤ)
  | 0, _, _, _ => none
  | fuel + 1, zero, status, tokens =>
    match form zero tokens with
    | .seq lhs rhs => do
      let (left, _) ← executecmd fuel zero (status.on false) lhs
      -- `wait(0)`: the status of the child goes to address 0
      let (right, _) ← executecmd fuel exitStatus (status.on true) rhs
      return (.seq left right, exitStatus)
    | .cond op lhs rhs => do
      let (left, _) ← executecmd fuel zero (status.on false) lhs
      -- `wait(&status)`
      if op.test exitStatus then
        let (right, _) ← executecmd fuel zero (status.on true) rhs
        return (.both op left right, exitStatus)
      else return (.skipped op left, zero)
    | .pipe lhs rhs => do
      let (left, _) ← executecmd fuel zero (status.on false) lhs
      let (right, _) ← executecmd fuel zero (status.on true) rhs
      return (.pipe left right, exitStatus)
    | .redirect tokens => do
      let (inner, _) ← executecmd fuel zero (status.on false) tokens
      return (.redirect inner, exitStatus)
    | .simple => some (.simple (status []), status [])

/-! ### The tree of a line -/

/-- How `executecmd` takes the tokens apart. -/
inductive Cmd where
  | simple
  | seq (left right : Cmd)
  | pipe (left right : Cmd)
  | redirect (inner : Cmd)
  | cond (op : Op) (left right : Cmd)
deriving DecidableEq, Repr

theorem splitAt_length {w : Word} {tokens lhs rhs : List Word}
    (h : splitAt w tokens = some (lhs, rhs)) :
    lhs.length < tokens.length ∧ rhs.length < tokens.length := by
  induction tokens generalizing lhs with
  | nil => cases h
  | cons token tokens ih =>
    unfold splitAt at h
    split at h
    · cases h
      simp
    · obtain ⟨⟨lhs', rhs'⟩, hsplit, heq⟩ := Option.map_eq_some_iff.mp h
      cases heq
      have := ih hsplit
      simp only [List.length_cons]
      omega

/-- As long as address 0 does not hold an operator, a redirection is a token. -/
theorem beforeRedirection_length {zero : ℤ} (hzero : ¬(nullIs zero '<' ∨ nullIs zero '>'))
    {tokens inner : List Word} (h : beforeRedirection zero tokens = some inner) :
    inner.length < tokens.length := by
  induction tokens generalizing inner with
  | nil =>
    rw [beforeRedirection, if_neg hzero] at h
    cases h
  | cons token tokens ih =>
    unfold beforeRedirection at h
    split at h
    · cases h
      simp
    · obtain ⟨inner', hinner, rfl⟩ := Option.map_eq_some_iff.mp h
      have := ih hinner
      simp only [List.length_cons]
      omega

/-- The parts of a line are shorter than the line. -/
def Form.Below (n : ℕ) : Form → Prop
  | .seq lhs rhs | .cond _ lhs rhs | .pipe lhs rhs => lhs.length < n ∧ rhs.length < n
  | .redirect tokens => tokens.length < n
  | .simple => True

theorem form_below {zero : ℤ} (hzero : ¬(nullIs zero '<' ∨ nullIs zero '>'))
    (tokens : List Word) : (form zero tokens).Below tokens.length := by
  unfold form
  split
  · next hsplit => exact splitAt_length hsplit
  · split
    · next hsplit => exact splitAt_length hsplit
    · split
      · next hsplit => exact splitAt_length hsplit
      · split
        · next hsplit => exact splitAt_length hsplit
        · split
          · next hbefore => exact beforeRedirection_length hzero hbefore
          · trivial

theorem not_nullIs_zero : ¬(nullIs 0 '<' ∨ nullIs 0 '>') := by decide

/-- The tree of the tokens, with nothing at address 0. -/
def parse (tokens : List Word) : Cmd :=
  match _h : form 0 tokens with
  | .seq lhs rhs => .seq (parse lhs) (parse rhs)
  | .cond op lhs rhs => .cond op (parse lhs) (parse rhs)
  | .pipe lhs rhs => .pipe (parse lhs) (parse rhs)
  | .redirect inner => .redirect (parse inner)
  | .simple => .simple
termination_by tokens.length
decreasing_by
  all_goals
    have hbelow := form_below not_nullIs_zero tokens
    rw [_h] at hbelow
    first
    | exact hbelow.1
    | exact hbelow.2
    | exact hbelow

theorem parse_eq (tokens : List Word) :
    parse tokens = match form 0 tokens with
      | .seq lhs rhs => .seq (parse lhs) (parse rhs)
      | .cond op lhs rhs => .cond op (parse lhs) (parse rhs)
      | .pipe lhs rhs => .pipe (parse lhs) (parse rhs)
      | .redirect inner => .redirect (parse inner)
      | .simple => .simple := by
  rw [parse]
  split <;> simp_all

/-! ### What the operators should do -/

/-- The status of the last simple command that ran. -/
def Trace.last : Trace → ℤ
  | .simple status => status
  | .seq _ right | .pipe _ right | .both _ _ right => right.last
  | .redirect inner => inner.last
  | .skipped _ left => left.last

/-- The right side of every `&&` ran just if the status of the left side was 0, and that of every
`||` just if it was not. -/
def Trace.Respects : Trace → Prop
  | .simple _ => True
  | .seq left right | .pipe left right => left.Respects ∧ right.Respects
  | .redirect inner => inner.Respects
  | .skipped op left => op.test left.last = false ∧ left.Respects
  | .both op left right => op.test left.last = true ∧ left.Respects ∧ right.Respects

/-- The status of a line, if the operators do as they should. -/
def Cmd.last : Cmd → Statuses → ℤ
  | .simple, status => status []
  | .seq _ right, status | .pipe _ right, status => right.last (status.on true)
  | .redirect inner, status => inner.last (status.on false)
  | .cond op left right, status =>
    if op.test (left.last (status.on false)) then right.last (status.on true)
    else left.last (status.on false)

/-- The left side of every operator that is reached ends with status 0. -/
def Cmd.LeftsSucceed : Cmd → Statuses → Prop
  | .simple, _ => True
  | .seq left right, status | .pipe left right, status =>
    left.LeftsSucceed (status.on false) ∧ right.LeftsSucceed (status.on true)
  | .redirect inner, status => inner.LeftsSucceed (status.on false)
  | .cond .and left right, status =>
    left.last (status.on false) = 0 ∧ left.LeftsSucceed (status.on false) ∧
      right.LeftsSucceed (status.on true)
  | .cond .or left _, status =>
    left.last (status.on false) = 0 ∧ left.LeftsSucceed (status.on false)

/-! ### What `executecmd` does -/

/-- What the code runs, whatever the statuses are. -/
def Cmd.ran : Cmd → Statuses → Trace
  | .simple, status => .simple (status [])
  | .seq left right, status => .seq (left.ran (status.on false)) (right.ran (status.on true))
  | .pipe left right, status => .pipe (left.ran (status.on false)) (right.ran (status.on true))
  | .redirect inner, status => .redirect (inner.ran (status.on false))
  | .cond .and left right, status =>
    .both .and (left.ran (status.on false)) (right.ran (status.on true))
  | .cond .or left _, status => .skipped .or (left.ran (status.on false))

variable {zero : ℤ}

theorem form_zero (hzero : ¬(nullIs zero '<' ∨ nullIs zero '>')) (tokens : List Word) :
    form zero tokens = form 0 tokens := by
  have hbefore : beforeRedirection zero tokens = beforeRedirection 0 tokens := by
    induction tokens with
    | nil => rw [beforeRedirection, beforeRedirection, if_neg hzero, if_neg not_nullIs_zero]
    | cons token tokens ih => rw [beforeRedirection, beforeRedirection, ih]
  rw [form, form, hbefore]

/-- With an operator at address 0 the tokens are never a simple command. -/
theorem form_null (hzero : nullIs zero '<' ∨ nullIs zero '>') (tokens : List Word) :
    form zero tokens ≠ .simple := by
  have hbefore : ∃ inner, beforeRedirection zero tokens = some inner := by
    induction tokens with
    | nil => exact ⟨[], by rw [beforeRedirection, if_pos hzero]⟩
    | cons token tokens ih =>
      obtain ⟨inner, hinner⟩ := ih
      rw [beforeRedirection]
      split
      · exact ⟨_, rfl⟩
      · exact ⟨_, by rw [hinner]; rfl⟩
  obtain ⟨inner, hinner⟩ := hbefore
  unfold form
  split
  · nofun
  · split
    · nofun
    · split
      · nofun
      · split
        · nofun
        · rw [hinner]
          nofun

/-- With an operator at address 0, `executecmd` does not come back. -/
theorem executecmd_null (hzero : nullIs zero '<' ∨ nullIs zero '>') (fuel : ℕ) (status : Statuses)
    (tokens : List Word) : executecmd fuel zero status tokens = none := by
  induction fuel generalizing status tokens with
  | zero => rfl
  | succ fuel ih =>
    have hform := form_null hzero tokens
    unfold executecmd
    cases hcase : form zero tokens with
    | seq lhs rhs => simp only [ih, bind, Option.bind]
    | cond op lhs rhs => simp only [ih, bind, Option.bind]
    | pipe lhs rhs => simp only [ih, bind, Option.bind]
    | redirect inner => simp only [ih, bind, Option.bind]
    | simple => exact absurd hcase hform

/-- **What is run.** The tests see the status of the child, which is always 0: the right side of an
`&&` always runs and that of an `||` never does. -/
theorem executecmd_ran {fuel : ℕ} {status : Statuses} {tokens : List Word} {t : Trace} {zero' : ℤ}
    (hzero : ¬(nullIs zero '<' ∨ nullIs zero '>'))
    (h : executecmd fuel zero status tokens = some (t, zero')) : t = (parse tokens).ran status := by
  induction fuel generalizing zero status tokens t zero' with
  | zero => cases h
  | succ fuel ih =>
    unfold executecmd at h
    rw [form_zero hzero] at h
    rw [parse_eq]
    split at h
    · simp only [bind, Option.bind_eq_some_iff] at h
      obtain ⟨⟨left, z₁⟩, hleft, ⟨right, z₂⟩, hright, heq⟩ := h
      cases heq
      rw [ih hzero hleft, ih not_nullIs_zero hright]
      rfl
    · next op lhs rhs hform =>
      simp only [bind, Option.bind_eq_some_iff] at h
      obtain ⟨⟨left, z₁⟩, hleft, h⟩ := h
      cases op with
      | and =>
        simp only [Op.test, exitStatus, decide_true, if_true, Option.bind_eq_some_iff] at h
        obtain ⟨⟨right, z₂⟩, hright, heq⟩ := h
        cases heq
        rw [ih hzero hleft, ih hzero hright]
        rfl
      | or =>
        cases h
        rw [ih hzero hleft]
        rfl
    · simp only [bind, Option.bind_eq_some_iff] at h
      obtain ⟨⟨left, z₁⟩, hleft, ⟨right, z₂⟩, hright, heq⟩ := h
      cases heq
      rw [ih hzero hleft, ih hzero hright]
      rfl
    · simp only [bind, Option.bind_eq_some_iff] at h
      obtain ⟨⟨inner, z₁⟩, hinner, heq⟩ := h
      cases heq
      rw [ih hzero hinner]
      rfl
    · cases h
      rfl

/-- With no operator at address 0, `executecmd` comes back. -/
theorem executecmd_total {fuel : ℕ} {tokens : List Word}
    (hzero : ¬(nullIs zero '<' ∨ nullIs zero '>')) (hfuel : tokens.length < fuel)
    (status : Statuses) : ∃ t zero', executecmd fuel zero status tokens = some (t, zero') := by
  induction fuel generalizing zero status tokens with
  | zero => exact absurd hfuel (Nat.not_lt_zero _)
  | succ fuel ih =>
    have hbelow := form_below hzero tokens
    have sides : ∀ {zero : ℤ} {side : List Word}, ¬(nullIs zero '<' ∨ nullIs zero '>') →
        side.length < tokens.length → ∀ b,
        ∃ t zero', executecmd fuel zero (status.on b) side = some (t, zero') :=
      fun hz hlt b => ih hz (by omega) (status.on b)
    unfold executecmd
    cases hform : form zero tokens with
    | seq lhs rhs =>
      obtain ⟨left, z₁, hleft⟩ := sides hzero (hform ▸ hbelow).1 false
      obtain ⟨right, z₂, hright⟩ := sides not_nullIs_zero (hform ▸ hbelow).2 true
      exact ⟨_, _, by simp only [hleft, bind, Option.bind_some, exitStatus, hright]; rfl⟩
    | cond op lhs rhs =>
      obtain ⟨left, z₁, hleft⟩ := sides hzero (hform ▸ hbelow).1 false
      obtain ⟨right, z₂, hright⟩ := sides hzero (hform ▸ hbelow).2 true
      simp only [hleft, bind, Option.bind_some, hright]
      split
      · exact ⟨_, _, rfl⟩
      · exact ⟨_, _, rfl⟩
    | pipe lhs rhs =>
      obtain ⟨left, z₁, hleft⟩ := sides hzero (hform ▸ hbelow).1 false
      obtain ⟨right, z₂, hright⟩ := sides hzero (hform ▸ hbelow).2 true
      exact ⟨_, _, by simp only [hleft, bind, Option.bind_some, hright]; rfl⟩
    | redirect inner =>
      obtain ⟨t, z₁, hinner⟩ := sides hzero (hform ▸ hbelow) false
      exact ⟨_, _, by simp only [hinner, bind, Option.bind_some]; rfl⟩
    | simple => exact ⟨_, _, rfl⟩

/-! ### When the operators do as they should -/

theorem Cmd.ran_last {c : Cmd} {status : Statuses} (h : c.LeftsSucceed status) :
    (c.ran status).last = c.last status := by
  induction c generalizing status with
  | simple => rfl
  | seq left right _ ih => exact ih h.2
  | pipe left right _ ih => exact ih h.2
  | redirect inner ih => exact ih h
  | cond op left right ihl ihr =>
    cases op with
    | and =>
      obtain ⟨hzero, -, hright⟩ := h
      show (right.ran (status.on true)).last = _
      rw [ihr hright, Cmd.last, hzero]
      rfl
    | or =>
      obtain ⟨hzero, hleft⟩ := h
      show (left.ran (status.on false)).last = _
      rw [ihl hleft, Cmd.last, hzero]
      rfl

theorem Cmd.ran_respects (c : Cmd) (status : Statuses) :
    (c.ran status).Respects ↔ c.LeftsSucceed status := by
  induction c generalizing status with
  | simple => exact Iff.rfl
  | seq left right ihl ihr => exact and_congr (ihl _) (ihr _)
  | pipe left right ihl ihr => exact and_congr (ihl _) (ihr _)
  | redirect inner ih => exact ih _
  | cond op left right ihl ihr =>
    -- what ran on the left side ended with the status of the left side, once that side is right
    have hlast : (left.ran (status.on false)).Respects →
        (left.ran (status.on false)).last = left.last (status.on false) := fun hleft =>
      left.ran_last ((ihl _).mp hleft)
    cases op with
    | and =>
      constructor
      · rintro ⟨htest, hleft, hright⟩
        rw [hlast hleft] at htest
        exact ⟨by simpa [Op.test] using htest, (ihl _).mp hleft, (ihr _).mp hright⟩
      · rintro ⟨hzero, hleft, hright⟩
        refine ⟨?_, (ihl _).mpr hleft, (ihr _).mpr hright⟩
        rw [left.ran_last hleft, hzero]
        rfl
    | or =>
      constructor
      · rintro ⟨htest, hleft⟩
        rw [hlast hleft] at htest
        exact ⟨by simpa [Op.test] using htest, (ihl _).mp hleft⟩
      · rintro ⟨hzero, hleft⟩
        refine ⟨?_, (ihl _).mpr hleft⟩
        rw [left.ran_last hleft, hzero]
        rfl

/-- **The conditional operators.** Whenever `executecmd` comes back, the right side of every `&&`
has run just if its left side ended with status 0, and that of every `||` just if it did not, if and
only if the left side of every operator that is reached ends with status 0. It comes back unless the
string at address 0 is a redirection. -/
theorem conditional_iff (zero : ℤ) (status : Statuses) (tokens : List Word) :
    (∀ fuel t zero', executecmd fuel zero status tokens = some (t, zero') →
      (t.Respects ↔ (parse tokens).LeftsSucceed status)) ∧
    ((∃ fuel t zero', executecmd fuel zero status tokens = some (t, zero')) ↔
      ¬(nullIs zero '<' ∨ nullIs zero '>')) := by
  refine ⟨fun fuel t zero' h => ?_, fun ⟨fuel, t, zero', h⟩ hzero => ?_, fun hzero => ?_⟩
  · by_cases hzero : nullIs zero '<' ∨ nullIs zero '>'
    · rw [executecmd_null hzero] at h
      cases h
    · rw [executecmd_ran hzero h]
      exact Cmd.ran_respects _ _
  · rw [executecmd_null hzero] at h
    cases h
  · exact ⟨_, executecmd_total hzero (Nat.lt_succ_self _) status⟩

/-- `false || true`, where the first command exits with status 1: the right side does not run. -/
theorem or_after_failure :
    executecmd 4 0 (fun path => if path = [false] then 1 else 0)
      [['f', 'a', 'l', 's', 'e'], ['|', '|'], ['t', 'r', 'u', 'e']] =
        some (.skipped .or (.simple 1), 0) ∧
    ¬(Trace.skipped .or (.simple 1)).Respects := by
  refine ⟨by decide, ?_⟩
  rintro ⟨htest, -⟩
  exact absurd htest (by decide)

end Xv6.Shell
