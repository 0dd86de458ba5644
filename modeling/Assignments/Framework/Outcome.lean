import Assignments.Framework.Basic

/-!
# Postconditions of computations that may fail

`Ensures allowed x post` says that the computation `x` yields a value with `post`, or fails with an
error that is `allowed`. It is both halves of a safety proof at once: what a computation leaves
behind, and which errors it cannot end in. The rules follow the shape of a program:

* `Ensures.ok`, `Ensures.error` — a result and a failure;
* `Ensures.bind` — one computation after another;
* `Ensures.ite` — a branch;
* `Ensures.mono`, `Ensures.weaken`, `Ensures.and`, `Ensures.map` — a weaker postcondition, more
  errors, two postconditions, a part of the result;
* `Ensures.foldlM` — a loop, by its invariant.
-/

namespace Framework

variable {ε α β : Type}

/-- A value with `post`, or an allowed error. -/
def Ensures (allowed : ε → Prop) (x : Except ε α) (post : α → Prop) : Prop :=
  match x with
  | .ok a => post a
  | .error e => allowed e

namespace Ensures

variable {allowed : ε → Prop} {x : Except ε α} {post : α → Prop}

theorem ok {a : α} (h : post a) : Ensures allowed (.ok a) post := h

theorem error {e : ε} (h : allowed e) : Ensures allowed (.error e) post := h

theorem true : Ensures (fun _ => True) x fun _ => True := by
  cases x with
  | ok a => trivial
  | error e => trivial

theorem bind {f : α → Except ε β} {mid : α → Prop} {post : β → Prop} (hx : Ensures allowed x mid)
    (hf : ∀ a, mid a → Ensures allowed (f a) post) : Ensures allowed (x >>= f) post := by
  cases x with
  | ok a => exact hf a hx
  | error e => exact hx

/-- The value is put into the result. -/
theorem bind_ok {f : α → β} {post : β → Prop} (hx : Ensures allowed x fun a => post (f a)) :
    Ensures allowed (x >>= fun a => .ok (f a)) post :=
  hx.bind fun _ ha => .ok ha

theorem ite {c : Prop} [Decidable c] {y : Except ε α} (hx : c → Ensures allowed x post)
    (hy : ¬c → Ensures allowed y post) : Ensures allowed (if c then x else y) post := by
  split_ifs with hc
  · exact hx hc
  · exact hy hc

theorem mono {post' : α → Prop} (hx : Ensures allowed x post) (h : ∀ a, post a → post' a) :
    Ensures allowed x post' := by
  cases x with
  | ok a => exact h a hx
  | error e => exact hx

/-- More errors may be allowed. -/
theorem weaken {allowed' : ε → Prop} (hx : Ensures allowed x post)
    (h : ∀ e, allowed e → allowed' e) : Ensures allowed' x post := by
  cases x with
  | ok a => exact hx
  | error e => exact h e hx

/-- Two postconditions at once; the first says which errors are allowed. -/
theorem and {allowed' : ε → Prop} {post' : α → Prop} (hx : Ensures allowed x post)
    (hx' : Ensures allowed' x post') : Ensures allowed x fun a => post a ∧ post' a := by
  cases x with
  | ok a => exact ⟨hx, hx'⟩
  | error e => exact hx

theorem map {f : α → β} {post : β → Prop} (hx : Ensures allowed x fun a => post (f a)) :
    Ensures allowed (f <$> x) post := by
  cases x with
  | ok a => exact hx
  | error e => exact hx

/-- The invariant may mention the part of the list that is still to come. -/
theorem foldlM {f : β → α → Except ε β} (inv : List α → β → Prop) {l : List α} {b : β}
    (hb : inv l b)
    (hstep : ∀ a rest b, inv (a :: rest) b → Ensures allowed (f b a) (inv rest)) :
    Ensures allowed (l.foldlM f b) (inv []) := by
  induction l generalizing b with
  | nil => exact hb
  | cons a rest ih =>
    rw [List.foldlM_cons]
    exact (hstep a rest b hb).bind fun b' hb' => ih hb'

theorem of_eq_ok {a : α} (hx : Ensures allowed x post) (h : x = .ok a) : post a := by
  subst h
  exact hx

theorem of_eq_error {e : ε} (hx : Ensures allowed x post) (h : x = .error e) : allowed e := by
  subst h
  exact hx

end Ensures

end Framework
