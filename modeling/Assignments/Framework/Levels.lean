import Assignments.Framework.Basic

/-!
# Splitting a list at operators of several levels

A list of tokens with binary operators, one operator for each level. `byLevel ops tokens` cuts the
list at every token `ops[0]` first, which therefore binds weakest, each piece at every `ops[1]`, and
so on; the pieces of one level are put together from the right. What is left between the operators
stands at the leaves.

* `byLevel_of_notMem`, `byLevel_of_mem` — the tree from the first operator of the weakest level;
* `leaves_byLevel` — the leaves are the pieces of the list between all operators, in order.
-/

namespace Framework

/-- A tree of operators over pieces of a list. -/
inductive OpTree (α : Type) where
  | leaf (piece : List α)
  | node (op : α) (left right : OpTree α)
  deriving DecidableEq, Repr

namespace OpTree

variable {α : Type}

/-- The pieces at the leaves, from left to right. -/
def leaves : OpTree α → List (List α)
  | leaf piece => [piece]
  | node _ left right => left.leaves ++ right.leaves

/-- Trees joined by one operator, from the right. -/
def nest (op : α) : List (OpTree α) → OpTree α
  | [] => leaf []
  | [t] => t
  | t :: ts => node op t (nest op ts)

theorem nest_cons (op : α) (t : OpTree α) {ts : List (OpTree α)} (h : ts ≠ []) :
    nest op (t :: ts) = node op t (nest op ts) := by
  cases ts with
  | nil => exact absurd rfl h
  | cons u us => rfl

theorem leaves_nest (op : α) {ts : List (OpTree α)} (h : ts ≠ []) :
    (nest op ts).leaves = ts.flatMap leaves := by
  induction ts with
  | nil => exact absurd rfl h
  | cons t ts ih =>
    by_cases hts : ts = []
    · subst hts
      simp [nest]
    · rw [nest_cons op t hts, leaves, ih hts, List.flatMap_cons]

variable [DecidableEq α]

/-- The tree of a list, with the operators from the weakest to the strongest. -/
def byLevel : List α → List α → OpTree α
  | [], tokens => leaf tokens
  | op :: ops, tokens => nest op ((tokens.splitOn op).map (byLevel ops))

variable {op : α} {ops tokens left right : List α}

/-- A level without its operator. -/
theorem byLevel_of_notMem (h : op ∉ tokens) : byLevel (op :: ops) tokens = byLevel ops tokens := by
  have hsingle : tokens.splitOn op = [tokens] := by
    refine List.splitOnP_eq_singleton fun x hx => ?_
    simpa using fun e : x = op => h (e ▸ hx)
  rw [byLevel, hsingle]
  rfl

/-- A level, at its first operator. -/
theorem byLevel_of_mem (h : op ∉ left) :
    byLevel (op :: ops) (left ++ op :: right) =
      node op (byLevel ops left) (byLevel (op :: ops) right) := by
  have hsplit : (left ++ op :: right).splitOn op = left :: right.splitOn op := by
    have hleft : left.splitOnP (· == op) = [left] :=
      List.splitOnP_eq_singleton fun x hx => by simpa using fun e : x = op => h (e ▸ hx)
    show (left ++ op :: right).splitOnP (· == op) = _
    rw [List.splitOnP_append_cons _ _ (by simp), hleft]
    rfl
  have hne : (right.splitOn op).map (byLevel ops) ≠ [] := by
    rw [ne_eq, List.map_eq_nil_iff]
    exact List.splitOnP_ne_nil _ _
  rw [byLevel, hsplit, List.map_cons, nest_cons op _ hne, ← byLevel]

omit [DecidableEq α] in
/-- Cutting at two kinds of separators at once, or at one after the other. -/
theorem splitOnP_or (p q : α → Bool) (tokens : List α) :
    tokens.splitOnP (fun x => p x || q x) = (tokens.splitOnP p).flatMap (List.splitOnP q) := by
  induction tokens with
  | nil => simp
  | cons x tokens ih =>
    obtain ⟨first, rest, hsplit⟩ := List.exists_cons_of_ne_nil (List.splitOnP_ne_nil p tokens)
    rw [List.splitOnP_cons_eq_if_modifyHead, List.splitOnP_cons_eq_if_modifyHead, ih]
    by_cases hp : p x
    · simp [hp]
    · rw [hsplit]
      simp only [hp, Bool.false_or, Bool.false_eq_true, if_false, List.modifyHead_cons,
        List.flatMap_cons]
      rw [List.splitOnP_cons_eq_if_modifyHead]
      by_cases hq : q x
      · simp [hq]
      · -- the first piece is not empty, so the token goes to its first part
        obtain ⟨part, parts, hparts⟩ :=
          List.exists_cons_of_ne_nil (List.splitOnP_ne_nil q first)
        simp [hq, hparts]

/-- **The leaves** are the pieces between the operators of all levels. -/
theorem leaves_byLevel (ops tokens : List α) :
    (byLevel ops tokens).leaves = tokens.splitOnP (· ∈ ops) := by
  induction ops generalizing tokens with
  | nil =>
    rw [List.splitOnP_eq_singleton fun x _ => by simp]
    rfl
  | cons op ops ih =>
    have hne : (tokens.splitOn op).map (byLevel ops) ≠ [] := by
      rw [ne_eq, List.map_eq_nil_iff]
      exact List.splitOnP_ne_nil _ _
    have hmem : (fun x => decide (x ∈ op :: ops)) = fun x => (x == op) || decide (x ∈ ops) := by
      funext x
      rw [Bool.eq_iff_iff]
      simp
    rw [byLevel, leaves_nest op hne, List.flatMap_map, hmem, splitOnP_or]
    exact congrArg (fun f => (tokens.splitOnP (· == op)).flatMap f) (funext ih)

end OpTree

end Framework
