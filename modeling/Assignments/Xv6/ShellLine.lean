import Assignments.Framework.Levels
import Assignments.Xv6.Shell

/-!
# The shell on its arrays

`executecmd` of `shell.c` and the handlers it calls, on `struct line`: the loops that look for an
operator, the operator that is overwritten with a null pointer, the two loops that copy the tokens
around it into structures on the stack, and the descriptors of the children. What such a structure
held before is a parameter (`stack`), and so is the string at address 0, which is what `strcmp`
compares when it is given the null pointer at the end of the tokens (`null`).

What is computed is the tree of the calls (`Run`). At a leaf stands the structure that is passed to
`exec`, with the descriptors of the process. The right side of `&&` and `||` is called when the
status of the left child lets it, and that status is always 0: the child ends with `exit(0)`.

* `lhs_holds`, `rhs_holds` — both halves of a split are again a size and tokens that end in a null
  pointer;
* `executecmd_splits` — the calls come back with the tree that the tokens lead to (`Splits`);
* `executecmd_refines` — this is the tree that the model on lists of tokens runs (`Xv6.Shell`);
* `Splits.follows_iff` — it follows the operators of the line just if none of them is a `||`;
* `executecmd_leaves_iff` — which lines without redirections are cut at their operators, level by
  level, with nothing lost.
-/

namespace Xv6.ShellLine

open Framework Function Option
open Shell (Word Op Cmd splitAt form parse)

/-! ### Structures and descriptors -/

/-- `struct line`, as far as `executecmd` reads it. -/
structure Line where
  tokens : ℕ → Option Word
  size : ℕ

/-- `tokens[i] = 0` -/
def Line.clear (line : Line) (i : ℕ) : Line :=
  { line with tokens := update line.tokens i none }

/-- What a descriptor stands for: something that the shell was started with, a file, or an end of
the pipe that a call has made. -/
inductive Source where
  | inherited (n : ℕ)
  | file (name : Word)
  | pipeRead (path : List Bool)
  | pipeWrite (path : List Bool)
  deriving DecidableEq, Repr

/-- The descriptors of a process. -/
abbrev Fds : Type := List (Option Source)

namespace Fds

def get (fds : Fds) (fd : ℕ) : Option Source := fds[fd]?.join

/-- The lowest free descriptor. -/
def lowest (fds : Fds) : ℕ := fds.findIdx isNone

/-- The lowest free descriptor gets a source. -/
def alloc (fds : Fds) (source : Source) : ℕ × Fds :=
  (fds.lowest, if fds.lowest < fds.length then fds.set fds.lowest (some source)
    else fds ++ [some source])

/-- `close`: an error number is no descriptor. -/
def close (fds : Fds) : Option ℕ → Fds
  | some fd => fds.set fd none
  | none => fds

def dup (fds : Fds) (fd : Option ℕ) : Fds :=
  match fd.bind fds.get with
  | some source => (fds.alloc source).2
  | none => fds

end Fds

/-- What the shell does not decide: which names `open` succeeds for, and what the structures on the
stack hold before they are written. A structure is named by the call it belongs to. -/
structure World where
  openable : Word → Bool
  stack : List Bool → ℕ → Option Word

/-- A process that runs `executecmd`: the string at address 0, its descriptors, and the way of calls
that leads to it, `false` for a left side and `true` for a right side. -/
structure Env where
  null : Word
  fds : Fds
  path : List Bool

/-- `open`: the descriptor, or an error. -/
def World.open_ (w : World) (fds : Fds) (name : Word) : Option ℕ × Fds :=
  if w.openable name then
    let r := fds.alloc (.file name)
    (some r.1, r.2)
  else (none, fds)

/-- The child for one side of an operator. -/
def Env.child (env : Env) (side : Bool) : Env := { env with path := env.path ++ [side] }

/-- The tree of the calls of `executecmd`. -/
inductive Run where
  /-- `exec(command->tokens[0], command->tokens)` in a child. -/
  | exec (line : Line) (fds : Fds)
  | seq (left right : Run)
  | cond (op : Op) (left right : Run)
  /-- An operator whose right side is not called. -/
  | skipped (op : Op) (left : Run)
  | pipe (left right : Run)
  | redirect (inner : Run)
  /-- A second redirection by the same loop. -/
  | also (first second : Run)

/-! ### The handlers -/

/-- `strcmp(token, w) == 0` -/
def same (null : Word) (token : Option Word) (w : Word) : Prop := token.getD null = w

instance (null : Word) (token : Option Word) (w : Word) : Decidable (same null token w) :=
  inferInstanceAs (Decidable (_ = _))

/-- The loop `for (i = 0; i < command->size; i++)` that looks for an operator. -/
def Line.find (line : Line) (null w : Word) : Option ℕ :=
  (List.range line.size).find? fun i => same null (line.tokens i) w

/-- The loop that copies `tokens[0..position]`. -/
def lhs (stack : ℕ → Option Word) (command : Line) (position : ℕ) : Line where
  tokens i := if i ≤ position then command.tokens i else stack i
  size := position

/-- The loop that copies `tokens[position+1..size]`. -/
def rhs (stack : ℕ → Option Word) (command : Line) (position : ℕ) : Line where
  tokens j := if position + 1 + j ≤ command.size then command.tokens (position + 1 + j) else stack j
  size := command.size - position - 1

section Handlers

variable (w : World) (call : Env → Line → Option Run)

/-- The structure for one side of an operator. -/
def World.half (env : Env) (side : Bool) (command : Line) (position : ℕ) : Line :=
  if side then rhs (w.stack (env.path ++ [true])) command position
  else lhs (w.stack (env.path ++ [false])) command position

/-- The second child is made after `wait(0)` has stored the status 0 of the first at address 0. -/
def parallelExecution (env : Env) (command : Line) (position : ℕ) : Option Run := do
  let left ← call (env.child false) (w.half env false command position)
  let right ← call { env.child true with null := [] } (w.half env true command position)
  return .seq left right

/-- The status that the second `fork` depends on is the one that the child has passed to `exit`.
`wait(&status)` leaves address 0 alone. -/
def condExecution (op : Op) (env : Env) (command : Line) (position : ℕ) : Option Run := do
  let left ← call (env.child false) (w.half env false command position)
  if op.test Shell.exitStatus then
    let right ← call (env.child true) (w.half env true command position)
    return .cond op left right
  else return .skipped op left

def succAndExecution : Env → Line → ℕ → Option Run := condExecution w call .and

def succOrExecution : Env → Line → ℕ → Option Run := condExecution w call .or

def pipeExecution (env : Env) (command : Line) (position : ℕ) : Option Run := do
  let (fd0, fds) := env.fds.alloc (.pipeRead env.path)
  let (fd1, fds) := fds.alloc (.pipeWrite env.path)
  let leftFds := (((fds.close (some 1)).dup (some fd1)).close (some fd0)).close (some fd1)
  let rightFds := (((fds.close (some 0)).dup (some fd0)).close (some fd0)).close (some fd1)
  let left ← call { env.child false with fds := leftFds } (w.half env false command position)
  let right ← call { env.child true with fds := rightFds } (w.half env true command position)
  return .pipe left right

/-- The loop of `ioredirection` that looks for a `>` behind the `<`. -/
def outputFlag (null : Word) (command : Line) (input : ℕ) : Option ℕ :=
  ((List.range (command.size - input)).map (input + 1 + ·)).find? fun i =>
    same null (command.tokens i) ['>']

/-- `close(fd); dup(des); close(des);` -/
def Fds.redirect (fds : Fds) (fd : ℕ) (des : Option ℕ) : Fds :=
  ((fds.close (some fd)).dup des).close des

/-- The descriptors of the child that `ioredirection` makes. -/
def ioFds (env : Env) (command : Line) (input : ℕ) : Fds :=
  let (inputdes, fds) := w.open_ env.fds ((command.tokens (input + 1)).getD env.null)
  let fds := match outputFlag env.null command input with
    | some flag =>
      let (outputdes, fds) := w.open_ fds ((command.tokens (flag + 1)).getD env.null)
      fds.redirect 1 outputdes
    | none => fds
  fds.redirect 0 inputdes

def ioredirection (env : Env) (command : Line) (input : ℕ) : Option Run :=
  call { env.child false with fds := ioFds w env command input } { command with size := input }

/-- The descriptors of the child that `oiredirection` makes. -/
def oiFds (env : Env) (command : Line) (output : ℕ) : Fds :=
  let (outputdes, fds) := w.open_ env.fds ((command.tokens (output + 1)).getD env.null)
  fds.redirect 1 outputdes

def oiredirection (env : Env) (command : Line) (output : ℕ) : Option Run :=
  call { env.child false with fds := oiFds w env command output } { command with size := output }

/-- The redirections made so far, and one more. -/
def addRun : Option Run → Run → Run
  | none, run => .redirect run
  | some made, run => .also made run

/-- One of the two tests in the loop of `executecmd`, with the handler it calls: the handler has set
`size` and waited for its child. -/
def redirectAt (op : Word) (handler : Env → Line → ℕ → Option Run) (i : ℕ)
    (s : Env × Line × Option Run) : Option (Env × Line × Option Run) :=
  if same s.1.null (s.2.1.tokens i) op then do
    let run ← handler s.1 (s.2.1.clear i) i
    return ({ s.1 with null := [] }, { s.2.1.clear i with size := i }, some (addRun s.2.2 run))
  else some s

/-- The loop `for (i = 0; i <= command->size; i++)` from `i` on; `n` bounds the rounds. -/
def redirectLoop : ℕ → ℕ → Env × Line × Option Run → Option (Option Run)
  | 0, _, s => some s.2.2
  | n + 1, i, s =>
    if s.2.1.size < i then some s.2.2
    else do
      let s ← redirectAt ['<'] (ioredirection w call) i s
      let s ← redirectAt ['>'] (oiredirection w call) i s
      redirectLoop n (i + 1) s

/-- The end of `executecmd`: redirections, or a simple command. -/
def executeSimple (env : Env) (command : Line) : Option Run := do
  match ← redirectLoop w call (command.size + 1) 0 (env, command, none) with
  | some run => return run
  | none => return .exec command env.fds

/-- The body of `executecmd`. -/
def executeLine (env : Env) (command : Line) : Option Run :=
  match command.find env.null [';'] with
  | some i => parallelExecution w call env (command.clear i) i
  | none =>
    match command.find env.null ['&', '&'] with
    | some i => succAndExecution w call env (command.clear i) i
    | none =>
      match command.find env.null ['|', '|'] with
      | some i => succOrExecution w call env (command.clear i) i
      | none =>
        match command.find env.null ['|'] with
        | some i => pipeExecution w call env (command.clear i) i
        | none => executeSimple w call env command

end Handlers

/-- `executecmd`. There is no result when the fuel does not suffice for the depth of the calls. -/
def executecmd (w : World) : ℕ → Env → Line → Option Run
  | 0, _, _ => none
  | fuel + 1, env, command => executeLine w (executecmd w fuel) env command

/-! ### Lines that hold a list of tokens -/

/-- The tokens of the line are `ws`, followed by a null pointer. -/
structure Line.Holds (line : Line) (ws : List Word) : Prop where
  size : line.size = ws.length
  tokens : ∀ i, i ≤ ws.length → line.tokens i = ws[i]?

variable {line : Line} {ws : List Word} {null v : Word} {i : ℕ}

theorem Line.Holds.find_eq (h : line.Holds ws) (null v : Word) :
    line.find null v = ws.findIdx? (· = v) := by
  have hlen : ∀ i, i < ws.length → (same null (line.tokens i) v ↔ ws[i]? = some v) := by
    intro i hi
    rw [h.tokens i (Nat.le_of_lt hi), List.getElem?_eq_getElem hi]
    exact ⟨fun hs => congrArg some hs, fun hs => some.inj hs⟩
  unfold Line.find
  rw [h.size]
  cases hfind : ws.findIdx? (· = v) with
  | none =>
    rw [List.find?_eq_none]
    intro i hi
    have hlt := List.mem_range.mp hi
    rw [decide_eq_true_iff, hlen i hlt, List.getElem?_eq_getElem hlt]
    have hnone := List.findIdx?_eq_none_iff.mp hfind ws[i] (List.getElem_mem hlt)
    simpa using hnone
  | some i =>
    obtain ⟨hlt, hi, hbefore⟩ := List.findIdx?_eq_some_iff_getElem.mp hfind
    rw [List.find?_range_eq_some]
    refine ⟨?_, List.mem_range.mpr hlt, ?_⟩
    · rw [decide_eq_true_iff, hlen i hlt, List.getElem?_eq_getElem hlt]
      simpa using hi
    · intro j hj
      have hjlt := Nat.lt_trans hj hlt
      have hnot := hbefore j hj
      rw [Bool.not_eq_true', decide_eq_false_iff_not, hlen j hjlt, List.getElem?_eq_getElem hjlt]
      simpa using hnot

/-- Cutting the list where the loop stops. -/
theorem splitAt_eq (v : Word) (ws : List Word) :
    splitAt v ws = (ws.findIdx? (· = v)).map fun i => (ws.take i, ws.drop (i + 1)) := by
  induction ws with
  | nil => rfl
  | cons token ws ih =>
    rw [splitAt, List.findIdx?_cons]
    by_cases ht : token = v
    · simp [ht]
    · rw [if_neg ht, ih, decide_eq_false ht]
      cases ws.findIdx? (· = v) <;> simp

section

variable (h : line.Holds ws) (hi : i < ws.length)

include h hi

theorem lhs_holds (stack : ℕ → Option Word) :
    (lhs stack (line.clear i) i).Holds (ws.take i) where
  size := by
    rw [List.length_take_of_le (Nat.le_of_lt hi)]
    rfl
  tokens j hj := by
    rw [List.length_take_of_le (Nat.le_of_lt hi)] at hj
    show (if j ≤ i then update line.tokens i none j else stack j) = _
    rw [if_pos hj]
    by_cases hji : j = i
    · rw [hji, update_self, List.getElem?_take_eq_none (Nat.le_refl i)]
    · rw [update_of_ne hji, List.getElem?_take_of_lt (by omega), h.tokens j (by omega)]

theorem rhs_holds (stack : ℕ → Option Word) :
    (rhs stack (line.clear i) i).Holds (ws.drop (i + 1)) where
  size := by
    rw [List.length_drop]
    show line.size - i - 1 = _
    rw [h.size]
    omega
  tokens j hj := by
    rw [List.length_drop] at hj
    have hle : i + 1 + j ≤ ws.length := by omega
    show (if i + 1 + j ≤ line.size then update line.tokens i none (i + 1 + j)
      else stack j) = _
    rw [h.size, if_pos hle, update_of_ne (by omega), h.tokens _ hle, List.getElem?_drop]

/-- The line that a redirection leaves: the tokens before the operator. -/
theorem cut_holds :
    Line.Holds { line.clear i with size := i } (ws.take i) where
  size := by
    rw [List.length_take_of_le (Nat.le_of_lt hi)]
  tokens j hj := by
    rw [List.length_take_of_le (Nat.le_of_lt hi)] at hj
    show update line.tokens i none j = _
    by_cases hji : j = i
    · rw [hji, update_self, List.getElem?_take_eq_none (Nat.le_refl i)]
    · rw [update_of_ne hji, List.getElem?_take_of_lt (by omega), h.tokens j (by omega)]

end

/-! ### The loop for redirections -/

/-- The string at address 0 is no redirection. -/
def Env.Quiet (env : Env) : Prop := env.null ≠ ['<'] ∧ env.null ≠ ['>']

variable {w : World} {call : Env → Line → Option Run} {env : Env} {made : Option Run}

/-- A token where neither test of the loop succeeds. -/
def NoRedirection (null : Word) (token : Option Word) : Prop :=
  ¬ same null token ['<'] ∧ ¬ same null token ['>']

theorem redirectAt_of_not {op : Word} {handler : Env → Line → ℕ → Option Run}
    (h : ¬ same env.null (line.tokens i) op) :
    redirectAt op handler i (env, line, made) = some (env, line, made) :=
  if_neg h

/-- The loop goes on over tokens that are no redirections. -/
theorem redirectLoop_skip (k n : ℕ)
    (h : ∀ j, i ≤ j → j < i + k → NoRedirection env.null (line.tokens j))
    (hk : i + k ≤ line.size + 1) :
    redirectLoop w call (k + n) i (env, line, made) =
      redirectLoop w call n (i + k) (env, line, made) := by
  induction k generalizing i with
  | zero => rw [Nat.zero_add, Nat.add_zero]
  | succ k ih =>
    obtain ⟨hin, hout⟩ := h i (Nat.le_refl i) (by omega)
    rw [show k + 1 + n = k + n + 1 by omega, redirectLoop, if_neg (show ¬ line.size < i by omega),
      redirectAt_of_not hin]
    simp only [bind_eq_bind, bind_some]
    rw [redirectAt_of_not hout, bind_some, ih (fun j h₁ h₂ => h j (by omega) (by omega))
      (by omega), show i + 1 + k = i + (k + 1) by omega]

/-- The loop is over once it is behind the last token. -/
theorem redirectLoop_end (n : ℕ) (h : line.size < i) :
    redirectLoop w call n i (env, line, made) = some made := by
  cases n with
  | zero => rfl
  | succ n => exact if_pos h

/-- At a redirection the loop calls its handler, and ends: the handler has moved the end of the line
to the operator, which is a null pointer now, and the string at address 0 is empty. -/
theorem redirectLoop_input (n : ℕ) (hi : i ≤ line.size) (h : same env.null (line.tokens i) ['<']) :
    redirectLoop w call (n + 1) i (env, line, none) =
      (ioredirection w call env (line.clear i) i).map fun run => some (.redirect run) := by
  rw [redirectLoop, if_neg (show ¬ line.size < i by omega), redirectAt, if_pos h]
  cases ioredirection w call env (line.clear i) i with
  | none => rfl
  | some run =>
    have hnot : ¬ same [] ((line.clear i).tokens i) ['>'] := by
      show ¬ same [] (update line.tokens i none i) ['>']
      rw [update_self]
      exact fun h => nomatch h
    simp only [bind_eq_bind, bind_some, pure, map_some]
    rw [redirectAt_of_not hnot, bind_some, redirectLoop_end n (Nat.lt_succ_self i)]
    rfl

theorem redirectLoop_output (n : ℕ) (hi : i ≤ line.size)
    (hnot : ¬ same env.null (line.tokens i) ['<']) (h : same env.null (line.tokens i) ['>']) :
    redirectLoop w call (n + 1) i (env, line, none) =
      (oiredirection w call env (line.clear i) i).map fun run => some (.redirect run) := by
  rw [redirectLoop, if_neg (show ¬ line.size < i by omega), redirectAt_of_not hnot]
  simp only [bind_eq_bind, bind_some]
  rw [redirectAt, if_pos h]
  cases oiredirection w call env (line.clear i) i with
  | none => rfl
  | some run =>
    simp only [bind_eq_bind, bind_some, pure, map_some]
    rw [redirectLoop_end n (Nat.lt_succ_self i)]
    rfl

/-! ### The end of `executecmd` -/

/-- A token of a list without redirections, or the null pointer behind it. -/
theorem noRedirection (hq : env.Quiet) (hin : ['<'] ∉ ws) (hout : ['>'] ∉ ws) (j : ℕ) :
    NoRedirection env.null ws[j]? := by
  cases hj : ws[j]? with
  | none => exact hq
  | some token =>
    have hmem := List.mem_of_getElem? hj
    exact ⟨fun h => hin (h ▸ hmem), fun h => hout (h ▸ hmem)⟩

theorem executeSimple_plain (h : line.Holds ws) (hq : env.Quiet) (hin : ['<'] ∉ ws)
    (hout : ['>'] ∉ ws) : executeSimple w call env line = some (.exec line env.fds) := by
  have hskip : redirectLoop w call (line.size + 1 + 0) 0 (env, line, none) =
      redirectLoop w call 0 (0 + (line.size + 1)) (env, line, none) := by
    refine redirectLoop_skip _ _ (fun j _ hj => ?_) (by omega)
    rw [h.tokens j (by rw [← h.size]; omega)]
    exact noRedirection hq hin hout j
  rw [executeSimple, ← Nat.add_zero (line.size + 1), hskip]
  rfl

/-- The first redirection is at `i`. -/
structure FirstAt (null : Word) (line : Line) (i : ℕ) : Prop where
  le : i ≤ line.size
  before : ∀ j, j < i → NoRedirection null (line.tokens j)

section

variable (h : FirstAt env.null line i)

include h

theorem FirstAt.loop :
    redirectLoop w call (line.size + 1) 0 (env, line, none) =
      redirectLoop w call (line.size - i + 1) i (env, line, none) := by
  have hle := h.le
  have hskip : redirectLoop w call (i + (line.size - i + 1)) 0 (env, line, none) =
      redirectLoop w call (line.size - i + 1) (0 + i) (env, line, none) :=
    redirectLoop_skip _ _ (fun j _ hj => h.before j (by omega)) (by omega)
  rw [Nat.zero_add] at hskip
  rw [← hskip, show i + (line.size - i + 1) = line.size + 1 by omega]

theorem executeSimple_input (hop : same env.null (line.tokens i) ['<']) :
    executeSimple w call env line = (ioredirection w call env (line.clear i) i).map .redirect := by
  rw [executeSimple, h.loop, redirectLoop_input _ h.le hop]
  cases ioredirection w call env (line.clear i) i <;> rfl

theorem executeSimple_output (hnot : ¬ same env.null (line.tokens i) ['<'])
    (hop : same env.null (line.tokens i) ['>']) :
    executeSimple w call env line = (oiredirection w call env (line.clear i) i).map .redirect := by
  rw [executeSimple, h.loop, redirectLoop_output _ h.le hnot hop]
  cases oiredirection w call env (line.clear i) i <;> rfl

/-- A redirection calls `executecmd` for the tokens before it, whichever it is. -/
theorem executeSimple_redirect (hop : ¬ NoRedirection env.null (line.tokens i)) :
    ∃ fds, ∀ call, executeSimple w call env line =
      (call { env.child false with fds } { line.clear i with size := i }).map .redirect := by
  by_cases hin : same env.null (line.tokens i) ['<']
  · exact ⟨_, fun call => executeSimple_input h hin⟩
  · have hout : same env.null (line.tokens i) ['>'] := by
      by_contra hout
      exact hop ⟨hin, hout⟩
    exact ⟨_, fun call => executeSimple_output h hin hout⟩

end

theorem exists_firstAt {j : ℕ} (hj : j ≤ line.size) (hop : ¬ NoRedirection null (line.tokens j)) :
    ∃ i, FirstAt null line i ∧ ¬ NoRedirection null (line.tokens i) := by
  classical
  have hex : ∃ i, ¬ NoRedirection null (line.tokens i) := ⟨j, hop⟩
  have hle : Nat.find hex ≤ j := Nat.find_min' hex hop
  refine ⟨Nat.find hex, ⟨by omega, fun k hk => ?_⟩, Nat.find_spec hex⟩
  by_contra hnot
  exact Nat.find_min hex hk hnot

/-! ### The tree of the calls -/

/-- The tokens before the first redirection. -/
theorem beforeRedirection_eq (ws : List Word) :
    Shell.beforeRedirection 0 ws =
      (ws.findIdx? fun token => token = ['<'] ∨ token = ['>']).map fun i => ws.take i := by
  induction ws with
  | nil => rfl
  | cons token ws ih =>
    rw [Shell.beforeRedirection, List.findIdx?_cons]
    by_cases ht : token = ['<'] ∨ token = ['>']
    · simp [ht]
    · rw [if_neg ht, ih, decide_eq_false ht]
      cases ws.findIdx? _ <;> simp

/-- The tree of calls that the tokens `ws` lead to. -/
inductive Splits : List Word → Run → Prop
  | seq {ws l r : List Word} {left right : Run} :
      form 0 ws = .seq l r → Splits l left → Splits r right → Splits ws (.seq left right)
  | and {ws l r : List Word} {left right : Run} :
      form 0 ws = .cond .and l r → Splits l left → Splits r right →
      Splits ws (.cond .and left right)
  | or {ws l r : List Word} {left : Run} :
      form 0 ws = .cond .or l r → Splits l left → Splits ws (.skipped .or left)
  | pipe {ws l r : List Word} {left right : Run} :
      form 0 ws = .pipe l r → Splits l left → Splits r right → Splits ws (.pipe left right)
  | redirect {ws inner : List Word} {run : Run} : form 0 ws = .redirect inner → Splits inner run →
      Splits ws (.redirect run)
  | exec {ws : List Word} {line : Line} {fds : Fds} : form 0 ws = .simple → line.Holds ws →
      Splits ws (.exec line fds)

/-- **The calls of `executecmd`.** It comes back with the tree of its tokens, once the fuel exceeds
their number. -/
theorem executecmd_splits (w : World) {env : Env} {line : Line} {ws : List Word}
    (h : line.Holds ws) (hq : env.Quiet) :
    ∃ run, (∀ fuel, ws.length < fuel → executecmd w fuel env line = some run) ∧ Splits ws run := by
  induction hn : ws.length using Nat.strong_induction_on generalizing env line ws with
  | _ n ih =>
    subst hn
    -- one call, with the fuel of the calls in it
    suffices ∃ run, (∀ fuel, ws.length ≤ fuel → executecmd w (fuel + 1) env line = some run) ∧
        Splits ws run by
      obtain ⟨run, hrun, hsplits⟩ := this
      refine ⟨run, fun fuel hfuel => ?_, hsplits⟩
      obtain ⟨fuel, rfl⟩ : ∃ f, fuel = f + 1 := ⟨fuel - 1, by omega⟩
      exact hrun fuel (by omega)
    -- both sides of an operator, whatever the descriptors of the children are
    have hsides : ∀ i, i < ws.length → ∀ envL envR : Env, envL.Quiet → envR.Quiet →
        ∃ left right, (∀ fuel, ws.length ≤ fuel →
            executecmd w fuel envL (w.half env false (line.clear i) i) = some left ∧
            executecmd w fuel envR (w.half env true (line.clear i) i) = some right) ∧
          Splits (ws.take i) left ∧ Splits (ws.drop (i + 1)) right := by
      intro i hi envL envR hL hR
      have hleft : (ws.take i).length < ws.length := by simpa using hi
      have hright : (ws.drop (i + 1)).length < ws.length := by
        rw [List.length_drop]
        omega
      obtain ⟨left, hl, hsl⟩ := ih _ hleft (lhs_holds h hi _) hL rfl
      obtain ⟨right, hr, hsr⟩ := ih _ hright (rhs_holds h hi _) hR rfl
      exact ⟨left, right, fun fuel hfuel => ⟨hl fuel (by omega), hr fuel (by omega)⟩, hsl, hsr⟩
    have hquiet : ∀ side fds, Env.Quiet { env.child side with fds } := fun _ _ => hq
    have hlt : ∀ {p : Word → Bool} {i}, ws.findIdx? p = some i → i < ws.length := fun hi =>
      (List.findIdx?_eq_some_iff_getElem.mp hi).1
    -- the loops stop where the list is cut
    have hfind := h.find_eq env.null
    cases hseq : ws.findIdx? (· = [';']) with
    | some i =>
      obtain ⟨left, right, hcall, hsl, hsr⟩ := hsides i (hlt hseq) (env.child false)
        { env.child true with null := [] } hq ⟨nofun, nofun⟩
      refine ⟨.seq left right, fun fuel hfuel => ?_, .seq ?_ hsl hsr⟩
      · obtain ⟨hl, hr⟩ := hcall fuel hfuel
        simp only [executecmd, executeLine, hfind, hseq, parallelExecution, hl, hr,
          bind_eq_bind, bind_some, pure]
      · simp only [form, splitAt_eq, hseq, map_some]
    | none =>
    cases hand : ws.findIdx? (· = ['&', '&']) with
    | some i =>
      obtain ⟨left, right, hcall, hsl, hsr⟩ := hsides i (hlt hand) (env.child false)
        (env.child true) hq hq
      have htest : Op.and.test Shell.exitStatus = true := rfl
      refine ⟨.cond .and left right, fun fuel hfuel => ?_, .and ?_ hsl hsr⟩
      · obtain ⟨hl, hr⟩ := hcall fuel hfuel
        simp only [executecmd, executeLine, hfind, hseq, hand, succAndExecution, condExecution,
          hl, hr, htest, if_true, bind_eq_bind, bind_some, pure]
      · simp only [form, splitAt_eq, hseq, hand, map_some, map_none]
    | none =>
    cases hor : ws.findIdx? (· = ['|', '|']) with
    | some i =>
      obtain ⟨left, right, hcall, hsl, -⟩ := hsides i (hlt hor) (env.child false)
        (env.child true) hq hq
      have htest : Op.or.test Shell.exitStatus = false := rfl
      refine ⟨.skipped .or left, fun fuel hfuel => ?_, .or (r := ws.drop (i + 1)) ?_ hsl⟩
      · obtain ⟨hl, -⟩ := hcall fuel hfuel
        simp only [executecmd, executeLine, hfind, hseq, hand, hor, succOrExecution,
          condExecution, hl, htest, Bool.false_eq_true, if_false, bind_eq_bind,
          bind_some, pure]
      · simp only [form, splitAt_eq, hseq, hand, hor, map_some, map_none]
    | none =>
    cases hpipe : ws.findIdx? (· = ['|']) with
    | some i =>
      obtain ⟨left, right, hcall, hsl, hsr⟩ := hsides i (hlt hpipe) _ _ (hquiet false _)
        (hquiet true _)
      refine ⟨.pipe left right, fun fuel hfuel => ?_, .pipe ?_ hsl hsr⟩
      · obtain ⟨hl, hr⟩ := hcall fuel hfuel
        simp only [executecmd, executeLine, hfind, hseq, hand, hor, hpipe, pipeExecution,
          bind_eq_bind, pure]
        rw [hl, bind_some, hr, bind_some]
      · simp only [form, splitAt_eq, hseq, hand, hor, hpipe, map_some, map_none]
    | none =>
    have hexec : ∀ fuel, executecmd w (fuel + 1) env line =
        executeSimple w (executecmd w fuel) env line := by
      intro fuel
      simp only [executecmd, executeLine, hfind, hseq, hand, hor, hpipe]
    cases hred : ws.findIdx? fun token => token = ['<'] ∨ token = ['>'] with
    | none =>
      have hnot := List.findIdx?_eq_none_iff.mp hred
      have hin : ['<'] ∉ ws := fun hmem => by simpa using hnot _ hmem
      have hout : ['>'] ∉ ws := fun hmem => by simpa using hnot _ hmem
      refine ⟨.exec line env.fds, fun fuel hfuel => ?_, .exec ?_ h⟩
      · rw [hexec, executeSimple_plain h hq hin hout]
      · simp only [form, splitAt_eq, beforeRedirection_eq, hseq, hand, hor, hpipe, hred,
          map_none]
    | some i =>
      obtain ⟨hi, hop, hbefore⟩ := List.findIdx?_eq_some_iff_getElem.mp hred
      have hfirst : FirstAt env.null line i := by
        refine ⟨by rw [h.size]; omega, fun j hj => ?_⟩
        have hjlt : j < ws.length := by omega
        rw [h.tokens j (Nat.le_of_lt hjlt), List.getElem?_eq_getElem hjlt]
        have hnot := hbefore j hj
        simp only [decide_eq_true_eq, not_or] at hnot
        exact hnot
      have hred' : ¬ NoRedirection env.null (line.tokens i) := by
        rw [h.tokens i (Nat.le_of_lt hi), List.getElem?_eq_getElem hi]
        simp only [decide_eq_true_eq] at hop
        exact fun hno => hop.elim hno.1 hno.2
      have hlen : (ws.take i).length < ws.length := by simpa using hi
      obtain ⟨fds, hredirect⟩ := executeSimple_redirect hfirst hred'
      obtain ⟨run, hrun, hsplits⟩ := ih _ hlen (cut_holds h hi) (hquiet false fds) rfl
      refine ⟨.redirect run, fun fuel hfuel => ?_, .redirect ?_ hsplits⟩
      · rw [hexec, hredirect, hrun fuel (by omega)]
        rfl
      · simp only [form, splitAt_eq, beforeRedirection_eq, hseq, hand, hor, hpipe, hred,
          map_none, map_some]

/-! ### The tree against the model on lists of tokens -/

/-- The calls are those whose effect the trace records. -/
def Run.Matches : Run → Shell.Trace → Prop
  | .exec _ _, .simple _ => True
  | .seq left right, .seq l r | .pipe left right, .pipe l r => left.Matches l ∧ right.Matches r
  | .cond op left right, .both op' l r => op = op' ∧ left.Matches l ∧ right.Matches r
  | .skipped op left, .skipped op' l => op = op' ∧ left.Matches l
  | .redirect inner, .redirect t => inner.Matches t
  | _, _ => False

theorem Splits.matches {ws : List Word} {run : Run} (h : Splits ws run)
    (status : Shell.Statuses) : run.Matches ((parse ws).ran status) := by
  induction h generalizing status with
  | seq hform _ _ ihl ihr =>
    rw [Shell.parse_eq, hform]
    exact ⟨ihl _, ihr _⟩
  | and hform _ _ ihl ihr =>
    rw [Shell.parse_eq, hform]
    exact ⟨rfl, ihl _, ihr _⟩
  | or hform _ ih =>
    rw [Shell.parse_eq, hform]
    exact ⟨rfl, ih _⟩
  | pipe hform _ _ ihl ihr =>
    rw [Shell.parse_eq, hform]
    exact ⟨ihl _, ihr _⟩
  | redirect hform _ ih =>
    rw [Shell.parse_eq, hform]
    exact ih _
  | exec hform _ =>
    rw [Shell.parse_eq, hform]
    trivial

/-- **The arrays refine the lists.** What `executecmd` does to a structure that holds the tokens is
what the model on lists of tokens does to the list. -/
theorem executecmd_refines (w : World) {env : Env} {line : Line} {ws : List Word}
    (h : line.Holds ws) (hq : env.Quiet) {zero zero' : ℤ} {status : Shell.Statuses} {fuel : ℕ}
    {t : Shell.Trace} (hzero : ¬(Shell.nullIs zero '<' ∨ Shell.nullIs zero '>'))
    (ht : Shell.executecmd fuel zero status ws = some (t, zero')) :
    ∃ run, (∀ fuel, ws.length < fuel → executecmd w fuel env line = some run) ∧ run.Matches t := by
  obtain ⟨run, hrun, hsplits⟩ := executecmd_splits w h hq
  rw [Shell.executecmd_ran hzero ht]
  exact ⟨run, hrun, hsplits.matches status⟩

/-! ### The tree against the operators -/

/-- The operators that split a line, from the weakest to the strongest. -/
def operators : List Word := [[';'], ['&', '&'], ['|', '|'], ['|']]

/-- The token of a conditional operator. -/
def opToken : Op → Word
  | .and => ['&', '&']
  | .or => ['|', '|']

/-- The calls follow the tree: the operators are those of the tree, and the structure at a leaf
holds the piece there, followed by a null pointer. -/
def Run.Follows : Run → OpTree Word → Prop
  | .exec line _, .leaf piece => line.Holds piece
  | .seq left right, .node op l r => op = [';'] ∧ left.Follows l ∧ right.Follows r
  | .cond o left right, .node op l r => op = opToken o ∧ left.Follows l ∧ right.Follows r
  | .pipe left right, .node op l r => op = ['|'] ∧ left.Follows l ∧ right.Follows r
  | _, _ => False

/-- The structures passed to `exec`, from left to right. -/
def Run.leaves : Run → List Line
  | .exec line _ => [line]
  | .seq left right | .cond _ left right | .pipe left right | .also left right =>
    left.leaves ++ right.leaves
  | .skipped _ inner | .redirect inner => inner.leaves

theorem Run.Follows.leaves {run : Run} {t : OpTree Word} (h : run.Follows t) :
    List.Forall₂ Line.Holds run.leaves t.leaves := by
  induction run generalizing t with
  | exec line fds =>
    cases t with
    | leaf piece => exact .cons h .nil
    | node op l r => exact h.elim
  | seq left right ihl ihr =>
    cases t with
    | leaf piece => exact h.elim
    | node op l r => exact List.rel_append (ihl h.2.1) (ihr h.2.2)
  | cond o left right ihl ihr =>
    cases t with
    | leaf piece => exact h.elim
    | node op l r => exact List.rel_append (ihl h.2.1) (ihr h.2.2)
  | pipe left right ihl ihr =>
    cases t with
    | leaf piece => exact h.elim
    | node op l r => exact List.rel_append (ihl h.2.1) (ihr h.2.2)
  | skipped o left _ => exact h.elim
  | redirect inner _ => exact h.elim
  | also first second _ _ => exact h.elim

theorem splitAt_eq_none_iff {v : Word} {ws : List Word} : splitAt v ws = none ↔ v ∉ ws := by
  rw [splitAt_eq, map_eq_none_iff, List.findIdx?_eq_none_iff]
  simp only [decide_eq_false_iff_not]
  exact ⟨fun h hmem => h v hmem rfl, fun h x hx e => h (e ▸ hx)⟩

theorem splitAt_eq_some {v : Word} {ws l r : List Word} (h : splitAt v ws = some (l, r)) :
    ws = l ++ v :: r ∧ v ∉ l := by
  induction ws generalizing l with
  | nil => cases h
  | cons token ws ih =>
    rw [splitAt] at h
    split_ifs at h with ht
    · cases h
      exact ⟨by rw [ht]; rfl, List.not_mem_nil⟩
    · obtain ⟨⟨l', r'⟩, hsplit, heq⟩ := map_eq_some_iff.mp h
      cases heq
      obtain ⟨rfl, hnot⟩ := ih hsplit
      refine ⟨rfl, fun hmem => ?_⟩
      rcases List.mem_cons.mp hmem with rfl | hmem
      · exact ht rfl
      · exact hnot hmem

/-- What the loops before the one that splits the line have found. -/
theorem form_inv {ws : List Word} : match form 0 ws with
    | .seq l r => splitAt [';'] ws = some (l, r)
    | .cond .and l r => [';'] ∉ ws ∧ splitAt ['&', '&'] ws = some (l, r)
    | .cond .or l r => [';'] ∉ ws ∧ ['&', '&'] ∉ ws ∧ splitAt ['|', '|'] ws = some (l, r)
    | .pipe l r => [';'] ∉ ws ∧ ['&', '&'] ∉ ws ∧ ['|', '|'] ∉ ws ∧ splitAt ['|'] ws = some (l, r)
    | .redirect _ => ['<'] ∈ ws ∨ ['>'] ∈ ws
    | .simple => ∀ op ∈ operators, op ∉ ws := by
  unfold form
  cases hseq : splitAt [';'] ws with
  | some p => rfl
  | none =>
  have hseq' := splitAt_eq_none_iff.mp hseq
  cases hand : splitAt ['&', '&'] ws with
  | some p => exact ⟨hseq', rfl⟩
  | none =>
  have hand' := splitAt_eq_none_iff.mp hand
  cases hor : splitAt ['|', '|'] ws with
  | some p => exact ⟨hseq', hand', rfl⟩
  | none =>
  have hor' := splitAt_eq_none_iff.mp hor
  cases hpipe : splitAt ['|'] ws with
  | some p => exact ⟨hseq', hand', hor', rfl⟩
  | none =>
  have hpipe' := splitAt_eq_none_iff.mp hpipe
  rw [beforeRedirection_eq]
  cases hred : ws.findIdx? fun token => token = ['<'] ∨ token = ['>'] with
  | some i =>
    obtain ⟨hi, hop, -⟩ := List.findIdx?_eq_some_iff_getElem.mp hred
    have hmem := List.getElem_mem hi
    simp only [decide_eq_true_eq] at hop
    rcases hop with hop | hop
    · exact .inl (hop ▸ hmem)
    · exact .inr (hop ▸ hmem)
  | none =>
    intro op hop
    simp only [operators, List.mem_cons, List.not_mem_nil, or_false] at hop
    rcases hop with rfl | rfl | rfl | rfl
    · exact hseq'
    · exact hand'
    · exact hor'
    · exact hpipe'

theorem notMem_sides {v op : Word} {l r : List Word} (hne : v ≠ op) :
    v ∉ l ++ op :: r ↔ v ∉ l ∧ v ∉ r := by
  rw [List.mem_append, List.mem_cons, not_or, not_or, and_iff_right hne]

open OpTree in
/-- Without redirections the calls follow the operators, level by level, unless one of them is a
`||`: its right side is not called. -/
theorem Splits.follows_iff {ws : List Word} {run : Run} (h : Splits ws run) (hin : ['<'] ∉ ws)
    (hout : ['>'] ∉ ws) : run.Follows (byLevel operators ws) ↔ ['|', '|'] ∉ ws := by
  have hinv := @form_inv ws
  induction h with
  | @seq ws l r left right hform _ _ ihl ihr =>
    rw [hform] at hinv
    obtain ⟨rfl, hl⟩ := splitAt_eq_some hinv
    obtain ⟨hinl, hinr⟩ := (notMem_sides (by decide)).mp hin
    obtain ⟨houtl, houtr⟩ := (notMem_sides (by decide)).mp hout
    have hleft := ihl hinl houtl form_inv
    rw [operators, byLevel_of_notMem hl] at hleft
    rw [operators, byLevel_of_mem hl, notMem_sides (by decide)]
    exact (and_iff_right rfl).trans (and_congr hleft (ihr hinr houtr form_inv))
  | @and ws l r left right hform _ _ ihl ihr =>
    rw [hform] at hinv
    obtain ⟨hseq, hsplit⟩ := hinv
    obtain ⟨rfl, hl⟩ := splitAt_eq_some hsplit
    obtain ⟨hseql, hseqr⟩ := (notMem_sides (by decide)).mp hseq
    obtain ⟨hinl, hinr⟩ := (notMem_sides (by decide)).mp hin
    obtain ⟨houtl, houtr⟩ := (notMem_sides (by decide)).mp hout
    have hleft := ihl hinl houtl form_inv
    have hright := ihr hinr houtr form_inv
    rw [operators, byLevel_of_notMem hseql, byLevel_of_notMem hl] at hleft
    rw [operators, byLevel_of_notMem hseqr] at hright
    rw [operators, byLevel_of_notMem hseq, byLevel_of_mem hl, notMem_sides (by decide)]
    exact (and_iff_right rfl).trans (and_congr hleft hright)
  | @or ws l r left hform _ _ =>
    rw [hform] at hinv
    obtain ⟨rfl, hl⟩ := splitAt_eq_some hinv.2.2
    rw [operators, byLevel_of_notMem hinv.1, byLevel_of_notMem hinv.2.1, byLevel_of_mem hl]
    exact iff_of_false id fun hnot => hnot (List.mem_append_right l List.mem_cons_self)
  | @pipe ws l r left right hform _ _ ihl ihr =>
    rw [hform] at hinv
    obtain ⟨hseq, hand, hor, hsplit⟩ := hinv
    obtain ⟨rfl, hl⟩ := splitAt_eq_some hsplit
    obtain ⟨hseql, hseqr⟩ := (notMem_sides (by decide)).mp hseq
    obtain ⟨handl, handr⟩ := (notMem_sides (by decide)).mp hand
    obtain ⟨horl, horr⟩ := (notMem_sides (by decide)).mp hor
    obtain ⟨hinl, hinr⟩ := (notMem_sides (by decide)).mp hin
    obtain ⟨houtl, houtr⟩ := (notMem_sides (by decide)).mp hout
    have hleft := (ihl hinl houtl form_inv).mpr horl
    have hright := (ihr hinr houtr form_inv).mpr horr
    rw [operators, byLevel_of_notMem hseql, byLevel_of_notMem handl, byLevel_of_notMem horl,
      byLevel_of_notMem hl] at hleft
    rw [operators, byLevel_of_notMem hseqr, byLevel_of_notMem handr, byLevel_of_notMem horr]
      at hright
    rw [operators, byLevel_of_notMem hseq, byLevel_of_notMem hand, byLevel_of_notMem hor,
      byLevel_of_mem hl]
    exact iff_of_true ⟨rfl, hleft, hright⟩ hor
  | @redirect ws inner run hform _ _ =>
    rw [hform] at hinv
    exact absurd hinv (not_or.mpr ⟨hin, hout⟩)
  | @exec ws line fds hform hline =>
    rw [hform] at hinv
    rw [operators, byLevel_of_notMem (hinv _ (by simp [operators])),
      byLevel_of_notMem (hinv _ (by simp [operators])),
      byLevel_of_notMem (hinv _ (by simp [operators])),
      byLevel_of_notMem (hinv _ (by simp [operators]))]
    exact iff_of_true hline (hinv _ (by simp [operators]))

/-- **Splitting loses nothing but what follows `||`.** On a line that holds tokens without
redirections, `executecmd` comes back, whatever the structures on the stack held before. Its calls
follow the operators, `;` weakest and `|` strongest, and what it passes to `exec`, from left to
right, are the pieces of the line between the operators, each followed by a null pointer, just if
the line has no `||`. -/
theorem executecmd_leaves_iff (w : World) (env : Env) (line : Line) (ws : List Word)
    (h : line.Holds ws) (hin : ['<'] ∉ ws) (hout : ['>'] ∉ ws)
    (hnull : env.null ≠ ['<'] ∧ env.null ≠ ['>']) :
    ∃ run, (∀ fuel, ws.length < fuel → executecmd w fuel env line = some run) ∧
      ((run.Follows (OpTree.byLevel operators ws) ∧
        List.Forall₂ Line.Holds run.leaves (ws.splitOnP (· ∈ operators))) ↔ ['|', '|'] ∉ ws) := by
  obtain ⟨run, hrun, hsplits⟩ := executecmd_splits w h hnull
  have hiff := hsplits.follows_iff hin hout
  refine ⟨run, hrun, fun hall => hiff.mp hall.1, fun hbar => ?_⟩
  have hfollows := hiff.mpr hbar
  have hleaves := hfollows.leaves
  rw [OpTree.leaves_byLevel] at hleaves
  refine ⟨hfollows, ?_⟩
  convert hleaves

/-- The structure that holds a list of tokens, with nothing behind them. -/
def Line.ofList (ws : List Word) : Line := ⟨fun i => ws[i]?, ws.length⟩

theorem Line.holds_ofList (ws : List Word) : (Line.ofList ws).Holds ws := ⟨rfl, fun _ _ => rfl⟩

/-- Both files can be opened, the stack holds an `x` everywhere, and the descriptors are those of
the console. -/
def plainWorld : World := ⟨fun _ => true, fun _ _ => some ['x']⟩

def plainEnv : Env := ⟨[], [some (.inherited 0), some (.inherited 1), some (.inherited 2)], []⟩

/-- `a && b ; c | | d`: the piece between the two bars is empty. -/
theorem executecmd_leaves_pipes :
    ∃ run, executecmd plainWorld 9 plainEnv
        (Line.ofList [['a'], ['&', '&'], ['b'], [';'], ['c'], ['|'], ['|'], ['d']]) = some run ∧
      List.Forall₂ Line.Holds run.leaves [[['a']], [['b']], [['c']], [], [['d']]] := by
  obtain ⟨run, hrun, hiff⟩ := executecmd_leaves_iff plainWorld plainEnv _ _
    (Line.holds_ofList [['a'], ['&', '&'], ['b'], [';'], ['c'], ['|'], ['|'], ['d']])
    (by decide) (by decide) (by decide)
  exact ⟨run, hrun 9 (by decide), (hiff.mpr (by decide)).2⟩

/-- `a || b`: only `a` is passed to `exec`. -/
theorem executecmd_loses_after_or :
    ∃ run, (∀ fuel, 3 < fuel →
        executecmd plainWorld fuel plainEnv (Line.ofList [['a'], ['|', '|'], ['b']]) = some run) ∧
      run.leaves.length = 1 ∧
      ¬ List.Forall₂ Line.Holds run.leaves
        ([['a'], ['|', '|'], ['b']].splitOnP (· ∈ operators)) := by
  have hquiet : plainEnv.Quiet := ⟨by decide, by decide⟩
  obtain ⟨run, hrun, -⟩ := executecmd_splits plainWorld
    (Line.holds_ofList [['a'], ['|', '|'], ['b']]) hquiet
  have hlen : run.leaves.length = 1 := by
    have heq : (executecmd plainWorld 4 plainEnv (Line.ofList [['a'], ['|', '|'], ['b']])).map
        (fun run => run.leaves.length) = some 1 := by decide
    rw [hrun 4 (by decide)] at heq
    exact some.inj heq
  refine ⟨run, hrun, hlen, fun hall => ?_⟩
  have heq := hall.length_eq
  rw [hlen] at heq
  exact absurd heq (by decide)

end Xv6.ShellLine
