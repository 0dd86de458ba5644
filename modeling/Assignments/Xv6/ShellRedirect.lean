import Assignments.Xv6.ShellLine

/-!
# Redirections of the shell

What `c < in > out` and `c > out < in` do. In the loop of `executecmd` the first redirection
decides: `ioredirection` looks for a `>` behind the `<` and opens both files, `oiredirection` opens
its own file, makes the line end at the `>` and never sees what stands behind it.

* `ioFds_get`, `oiFds_get` — the standard descriptors of the child in the two cases;
* `executecmd_null` — with a redirection at address 0, `executecmd` does not come back;
* `redirections_commute_iff` — the two orders do the same just if the standard input of the shell is
  the file already.
-/

namespace Xv6.ShellLine

open Function
open Shell (Word splitAt)

/-! ### Descriptors -/

namespace Fds

variable {fds : Fds} {s σ : Source} {fd : ℕ}

@[simp] theorem get_zero (x : Option Source) (fds : Fds) : get (x :: fds) 0 = x := by
  unfold get
  rw [List.getElem?_cons_zero]
  rfl

@[simp] theorem get_succ (x : Option Source) (fds : Fds) (n : ℕ) :
    get (x :: fds) (n + 1) = get fds n := by
  unfold get
  rw [List.getElem?_cons_succ]

theorem alloc_none (fds : Fds) (s : Source) : alloc (none :: fds) s = (0, some s :: fds) := by
  have hlow : lowest (none :: fds) = 0 := rfl
  unfold alloc
  rw [hlow, if_pos (by rw [List.length_cons]; omega)]
  rfl

theorem alloc_some (fds : Fds) (σ s : Source) :
    alloc (some σ :: fds) s = ((fds.alloc s).1 + 1, some σ :: (fds.alloc s).2) := by
  have hlow : lowest (some σ :: fds) = fds.lowest + 1 := by
    unfold lowest
    rw [List.findIdx_cons]
    rfl
  unfold alloc
  rw [hlow, List.length_cons]
  by_cases h : fds.lowest < fds.length
  · rw [if_pos h, if_pos (by omega)]
    rfl
  · rw [if_neg h, if_neg (by omega)]
    rfl

theorem get_alloc (fds : Fds) (s : Source) : (fds.alloc s).2.get (fds.alloc s).1 = some s := by
  induction fds with
  | nil => rfl
  | cons x fds ih =>
    cases x with
    | none => rw [alloc_none, get_zero]
    | some σ => rw [alloc_some, get_succ, ih]

/-- A descriptor in use is not given out again, and stands for the same as before. -/
theorem get_alloc_of_get (s : Source) (h : fds.get fd = some σ) :
    fd ≠ (fds.alloc s).1 ∧ (fds.alloc s).2.get fd = some σ := by
  induction fds generalizing fd with
  | nil =>
    unfold get at h
    rw [List.getElem?_nil] at h
    cases h
  | cons x fds ih =>
    cases x with
    | none =>
      rw [alloc_none]
      cases fd with
      | zero =>
        rw [get_zero] at h
        cases h
      | succ fd =>
        rw [get_succ] at h ⊢
        exact ⟨Nat.succ_ne_zero fd, h⟩
    | some τ =>
      rw [alloc_some]
      cases fd with
      | zero =>
        rw [get_zero] at h ⊢
        exact ⟨(Nat.succ_ne_zero _).symm, h⟩
      | succ fd =>
        rw [get_succ] at h ⊢
        obtain ⟨hne, hget⟩ := ih h
        exact ⟨fun e => hne (Nat.succ.inj e), hget⟩

theorem get_close_of_ne {fd' : ℕ} (h : fd ≠ fd') : (fds.close (some fd')).get fd = fds.get fd := by
  unfold close get
  rw [List.getElem?_set_ne h.symm]

theorem dup_of_get (h : fds.get fd = some s) : fds.dup (some fd) = (fds.alloc s).2 := by
  unfold dup
  rw [Option.bind_some, h]

/-- Redirecting descriptor 0, whatever descriptor 1 stands for. -/
theorem redirect_zero (x y : Option Source) (h : fds.get fd = some s) :
    redirect (x :: y :: fds) 0 (some (fd + 2)) = some s :: y :: fds.close (some fd) := by
  show close (dup (none :: y :: fds) (some (fd + 2))) (some (fd + 2)) = _
  rw [dup_of_get (by rw [get_succ, get_succ, h]), alloc_none]
  rfl

/-- Redirecting descriptor 1, while descriptor 0 is in use. -/
theorem redirect_one (σ : Source) (y : Option Source) (h : fds.get fd = some s) :
    redirect (some σ :: y :: fds) 1 (some (fd + 2)) = some σ :: some s :: fds.close (some fd) := by
  show close (dup (some σ :: none :: fds) (some (fd + 2))) (some (fd + 2)) = _
  rw [dup_of_get (by rw [get_succ, get_succ, h]), alloc_some, alloc_none]
  rfl

end Fds

/-! ### The children of the two handlers -/

variable {w : World} {env : Env} {line : Line} {σ₀ σ₁ : Source} {rest : Fds} {i : ℕ}
  {inp out : Word}

/-- A file that is opened behind descriptors 0 and 1. -/
theorem open_eq (w : World) (x y : Source) (rest : Fds) (name : Word) :
    w.open_ (some x :: some y :: rest) name =
      if w.openable name then
        (some ((rest.alloc (.file name)).1 + 2), some x :: some y :: (rest.alloc (.file name)).2)
      else (none, some x :: some y :: rest) := by
  unfold World.open_
  rw [Fds.alloc_some, Fds.alloc_some]

/-- What a name stands for as a standard descriptor. -/
def World.opened (w : World) (name : Word) : Option Source :=
  if w.openable name then some (.file name) else none

/-- The child of `oiredirection` keeps the standard input. -/
theorem oiFds_get (hfds : env.fds = some σ₀ :: some σ₁ :: rest)
    (hout : line.tokens (i + 1) = some out) :
    (oiFds w env line i).get 0 = some σ₀ ∧ (oiFds w env line i).get 1 = w.opened out := by
  unfold oiFds World.opened
  rw [hout, hfds, Option.getD_some, open_eq]
  by_cases ho : w.openable out
  · simp only [ho, if_true]
    rw [Fds.redirect_one _ _ (Fds.get_alloc rest _)]
    exact ⟨Fds.get_zero _ _, rfl⟩
  · simp only [ho, Bool.false_eq_true, if_false]
    exact ⟨rfl, rfl⟩

/-- The child of `ioredirection` with both files. -/
theorem ioFds_get (hfds : env.fds = some σ₀ :: some σ₁ :: rest)
    (hin : line.tokens (i + 1) = some inp) {flag : ℕ}
    (hflag : outputFlag env.null line i = some flag) (hout : line.tokens (flag + 1) = some out) :
    (ioFds w env line i).get 0 = w.opened inp ∧ (ioFds w env line i).get 1 = w.opened out := by
  unfold ioFds World.opened
  simp only [hin, hfds, hflag, hout, Option.getD_some, open_eq]
  by_cases hi : w.openable inp
  · simp only [hi, if_true]
    rw [open_eq]
    generalize hrest : rest.alloc (.file inp) = r
    have hget : r.2.get r.1 = some (.file inp) := by rw [← hrest]; exact Fds.get_alloc rest _
    by_cases ho : w.openable out
    · simp only [ho, if_true]
      obtain ⟨hne, hget'⟩ := Fds.get_alloc_of_get (.file out) hget
      rw [Fds.redirect_one _ _ (Fds.get_alloc r.2 _), Fds.redirect_zero _ _
        ((Fds.get_close_of_ne hne).trans hget')]
      exact ⟨rfl, rfl⟩
    · simp only [ho, Bool.false_eq_true, if_false]
      show (Fds.redirect (some σ₀ :: none :: r.2) 0 _).get 0 = _ ∧
        (Fds.redirect (some σ₀ :: none :: r.2) 0 _).get 1 = _
      rw [Fds.redirect_zero _ _ hget]
      exact ⟨rfl, rfl⟩
  · simp only [hi, Bool.false_eq_true, if_false]
    rw [open_eq]
    by_cases ho : w.openable out
    · simp only [ho, if_true]
      rw [Fds.redirect_one _ _ (Fds.get_alloc rest _)]
      exact ⟨rfl, rfl⟩
    · simp only [ho, Bool.false_eq_true, if_false]
      exact ⟨rfl, rfl⟩

/-! ### A redirection at address 0 -/

/-- The left half of a split ends in a null pointer. -/
theorem half_end (w : World) (env : Env) (line : Line) (i : ℕ) :
    (w.half env false (line.clear i) i).tokens (w.half env false (line.clear i) i).size = none := by
  show (if i ≤ i then update line.tokens i none i else _) = none
  rw [if_pos (Nat.le_refl i), update_self]

/-- With a redirection at address 0 the null pointer at the end of the line is one, for every line:
`executecmd` calls itself without an end. -/
theorem executecmd_null (w : World) (hnull : ¬ env.Quiet) (hend : line.tokens line.size = none)
    (fuel : ℕ) : executecmd w fuel env line = none := by
  induction fuel generalizing env line with
  | zero => rfl
  | succ fuel ih =>
    have hchild : ∀ i fds, executecmd w fuel { env.child false with fds }
        (w.half env false (line.clear i) i) = none := fun i fds => ih hnull (half_end w env line i)
    have hsame : ∀ i, executecmd w fuel (env.child false) (w.half env false (line.clear i) i) =
        none := fun i => hchild i env.fds
    unfold executecmd executeLine
    cases line.find env.null [';'] with
    | some i =>
      simp only [parallelExecution]
      rw [hsame]
      rfl
    | none =>
    cases line.find env.null ['&', '&'] with
    | some i =>
      simp only [succAndExecution, condExecution]
      rw [hsame]
      rfl
    | none =>
    cases line.find env.null ['|', '|'] with
    | some i =>
      simp only [succOrExecution, condExecution]
      rw [hsame]
      rfl
    | none =>
    cases line.find env.null ['|'] with
    | some i =>
      simp only [pipeExecution]
      rw [hchild]
      rfl
    | none =>
    -- the loop calls a handler, at the null pointer at the latest
    have hop : ¬ NoRedirection env.null (line.tokens line.size) := by
      rw [hend]
      exact hnull
    obtain ⟨i, hfirst, hi⟩ := exists_firstAt (Nat.le_refl line.size) hop
    obtain ⟨fds, hredirect⟩ := executeSimple_redirect (w := w) hfirst hi
    have hcut : executecmd w fuel { env.child false with fds }
        { line.clear i with size := i } = none := by
      refine ih hnull ?_
      show update line.tokens i none i = none
      rw [update_self]
    show executeSimple w (executecmd w fuel) env line = none
    rw [hredirect, hcut]
    rfl

/-! ### The two orders -/

/-- A token that is no operator and no redirection. -/
abbrev Plain : Type := { v : Word // v ∉ operators ∧ v ≠ ['<'] ∧ v ≠ ['>'] }

/-- The words of plain tokens. -/
def words (c : List Plain) : List Word := c.map Subtype.val

theorem not_mem_words (c : List Plain) {v : Word} (hv : v ∈ operators ∨ v = ['<'] ∨ v = ['>']) :
    v ∉ words c := by
  intro hmem
  obtain ⟨x, -, rfl⟩ := List.mem_map.mp hmem
  rcases hv with hv | hv | hv
  · exact x.2.1 hv
  · exact x.2.2.1 hv
  · exact x.2.2.2 hv

/-- The tokens `c op₁ name₁ op₂ name₂`. -/
def redirected (c : List Plain) (op₁ : Word) (name₁ : Plain) (op₂ : Word) (name₂ : Plain) :
    List Word :=
  words c ++ [op₁, name₁.1, op₂, name₂.1]

section Redirected

variable {c : List Plain} {op₁ op₂ : Word} {name₁ name₂ : Plain}

theorem redirected_length : (redirected c op₁ name₁ op₂ name₂).length = c.length + 4 := by
  simp [redirected, words]

variable (h : line.Holds (redirected c op₁ name₁ op₂ name₂))

include h

/-- The tokens from the first redirection on. -/
theorem redirected_tokens :
    line.size = c.length + 4 ∧ line.tokens c.length = some op₁ ∧
      line.tokens (c.length + 1) = some name₁.1 ∧ line.tokens (c.length + 2) = some op₂ ∧
      line.tokens (c.length + 3) = some name₂.1 := by
  have htoken : ∀ k, k ≤ 4 →
      line.tokens (c.length + k) = [op₁, name₁.1, op₂, name₂.1][k]? := by
    intro k hk
    have hlen : (words c).length = c.length := List.length_map _
    rw [h.tokens _ (by rw [redirected_length]; omega), redirected, ← hlen,
      List.getElem?_append_right (Nat.le_add_right _ _), Nat.add_sub_cancel_left]
  refine ⟨by rw [h.size, redirected_length], htoken 0 (by omega), htoken 1 (by omega),
    htoken 2 (by omega), htoken 3 (by omega)⟩

/-- The line goes to the loop for redirections, and its first redirection is behind `c`. -/
theorem redirected_first (hops : ∀ op ∈ [op₁, op₂], op = ['<'] ∨ op = ['>']) (null : Word) :
    FirstAt null line c.length ∧ ∀ op ∈ operators, line.find null op = none := by
  have hlen : (words c).length = c.length := List.length_map _
  constructor
  · refine ⟨by rw [(redirected_tokens h).1]; omega, fun j hj => ?_⟩
    rw [h.tokens j (by rw [redirected_length]; omega), redirected,
      List.getElem?_append_left (by omega), List.getElem?_eq_getElem (by omega)]
    have hmem : (words c)[j] ∈ words c := List.getElem_mem (by omega)
    exact ⟨fun e => not_mem_words c (.inr (.inl rfl)) (e ▸ hmem),
      fun e => not_mem_words c (.inr (.inr rfl)) (e ▸ hmem)⟩
  · intro op hop
    rw [h.find_eq, List.findIdx?_eq_none_iff]
    intro token htoken
    rw [decide_eq_false_iff_not]
    rintro rfl
    have hnot : ∀ op ∈ operators, ¬(op = ['<'] ∨ op = ['>']) := by decide
    rw [redirected, List.mem_append] at htoken
    rcases htoken with htoken | htoken
    · exact not_mem_words c (.inl hop) htoken
    · simp only [List.mem_cons, List.not_mem_nil, or_false] at htoken
      rcases htoken with rfl | rfl | rfl | rfl
      · exact hnot _ hop (hops _ (by simp))
      · exact name₁.2.1 hop
      · exact hnot _ hop (hops _ (by simp))
      · exact name₂.2.1 hop

/-- What is left of the line for the child: the simple command. -/
theorem redirected_cut : Line.Holds { line.clear c.length with size := c.length } (words c) := by
  have hcut := cut_holds h (show c.length < _ by rw [redirected_length]; omega)
  have hlen : (words c).length = c.length := List.length_map _
  rw [redirected, List.take_append_of_le_length (by omega), List.take_of_length_le (by omega)]
    at hcut
  exact hcut

end Redirected

/-- A line without operators goes to the end of `executecmd`. -/
theorem executecmd_of_find {fuel : ℕ} (hfind : ∀ op ∈ operators, line.find env.null op = none) :
    executecmd w (fuel + 1) env line = executeSimple w (executecmd w fuel) env line := by
  rw [executecmd, executeLine, hfind _ (by simp [operators]), hfind _ (by simp [operators]),
    hfind _ (by simp [operators]), hfind _ (by simp [operators])]

/-- A simple command is passed to `exec` as it stands. -/
theorem executecmd_words (w : World) (hq : env.Quiet) {c : List Plain} (h : line.Holds (words c))
    (fuel : ℕ) : executecmd w (fuel + 1) env line = some (.exec line env.fds) := by
  have hfind : ∀ op ∈ operators, line.find env.null op = none := by
    intro op hop
    rw [h.find_eq, List.findIdx?_eq_none_iff]
    intro token htoken
    rw [decide_eq_false_iff_not]
    rintro rfl
    exact not_mem_words c (.inl hop) htoken
  rw [executecmd_of_find hfind]
  exact executeSimple_plain h hq (not_mem_words c (.inr (.inl rfl)))
    (not_mem_words c (.inr (.inr rfl)))

/-- The run executes the tokens of `c` with `inp` as its standard input and `out` as its standard
output. -/
def Run.Executes (run : Run) (c : List Plain) (inp out : Plain) : Prop :=
  ∃ line fds, run = .redirect (.exec line fds) ∧ line.Holds (words c) ∧
    fds.get 0 = some (.file inp.1) ∧ fds.get 1 = some (.file out.1)

/-- `executecmd` redirects the tokens of `c`, with these descriptors. -/
def Redirects (w : World) (env : Env) (line : Line) (c : List Plain) (fds : Fds) : Prop :=
  ∃ line' : Line, line'.Holds (words c) ∧ ∀ fuel, executecmd w (fuel + 1) env line =
    (executecmd w fuel { env.child false with fds } line').map .redirect

/-- The line `c < in > out`. -/
theorem redirects_io (w : World) {c : List Plain} {inp out : Plain}
    (h : line.Holds (redirected c ['<'] inp ['>'] out))
    (hfds : env.fds = some σ₀ :: some σ₁ :: rest) :
    ∃ fds, Redirects w env line c fds ∧ fds.get 0 = w.opened inp.1 ∧
      fds.get 1 = w.opened out.1 := by
  obtain ⟨hsize, h₀, h₁, h₂, h₃⟩ := redirected_tokens h
  obtain ⟨hfirst, hfind⟩ := redirected_first h (by decide) env.null
  -- the clearing of the operator leaves the other tokens
  have hclear : ∀ k, 0 < k → (line.clear c.length).tokens (c.length + k) =
      line.tokens (c.length + k) := fun k hk => update_of_ne (by omega) _ _
  have hflag : outputFlag env.null (line.clear c.length) c.length = some (c.length + 2) := by
    have hrange : List.range ((line.clear c.length).size - c.length) = [0, 1, 2, 3] := by
      show List.range (line.size - c.length) = _
      rw [hsize, Nat.add_sub_cancel_left]
      rfl
    have hno : ¬ same env.null ((line.clear c.length).tokens (c.length + 1)) ['>'] := by
      rw [hclear 1 (by omega), h₁]
      exact inp.2.2.2
    have hyes : same env.null ((line.clear c.length).tokens (c.length + 2)) ['>'] := by
      rw [hclear 2 (by omega), h₂]
      rfl
    unfold outputFlag
    rw [hrange]
    simp only [List.map_cons, List.map_nil, Nat.add_zero]
    rw [List.find?_cons_of_neg (by simpa using hno), List.find?_cons_of_pos (by simpa using hyes)]
  obtain ⟨hget₀, hget₁⟩ := ioFds_get (w := w) hfds
    (show (line.clear c.length).tokens (c.length + 1) = some inp.1 by
      rw [hclear 1 (by omega), h₁]) hflag
    (show (line.clear c.length).tokens (c.length + 3) = some out.1 by
      rw [hclear 3 (by omega), h₃])
  refine ⟨_, ⟨_, redirected_cut h, fun fuel => ?_⟩, hget₀, hget₁⟩
  rw [executecmd_of_find hfind]
  exact executeSimple_input hfirst (by rw [h₀]; rfl)

/-- The line `c > out < in`: the second redirection is not seen. -/
theorem redirects_oi (w : World) {c : List Plain} {inp out : Plain}
    (h : line.Holds (redirected c ['>'] out ['<'] inp))
    (hfds : env.fds = some σ₀ :: some σ₁ :: rest) :
    ∃ fds, Redirects w env line c fds ∧ fds.get 0 = some σ₀ ∧ fds.get 1 = w.opened out.1 := by
  obtain ⟨hsize, h₀, h₁, -, -⟩ := redirected_tokens h
  obtain ⟨hfirst, hfind⟩ := redirected_first h (by decide) env.null
  obtain ⟨hget₀, hget₁⟩ := oiFds_get (w := w) hfds
    (show (line.clear c.length).tokens (c.length + 1) = some out.1 by
      rw [← h₁]
      exact update_of_ne (by omega) _ _)
  refine ⟨_, ⟨_, redirected_cut h, fun fuel => ?_⟩, hget₀, hget₁⟩
  rw [executecmd_of_find hfind]
  exact executeSimple_output hfirst (by rw [h₀]; exact fun h => nomatch h) (by rw [h₀]; rfl)

/-- One level of fuel is used up by the redirection, and one by the command. -/
theorem Redirects.executecmd_eq {c : List Plain} {fds : Fds} (h : Redirects w env line c fds)
    (hq : env.Quiet) : ∃ line' : Line, line'.Holds (words c) ∧ ∀ fuel,
      executecmd w fuel env line =
        if fuel < 2 then none else some (.redirect (.exec line' fds)) := by
  obtain ⟨line', hline', hexec⟩ := h
  refine ⟨line', hline', fun fuel => ?_⟩
  rcases fuel with _ | _ | fuel
  · rfl
  · rw [hexec]
    rfl
  · have hchild : Env.Quiet { env.child false with fds } := hq
    have hcommand : executecmd w (fuel + 1) { env.child false with fds } line' =
        some (.exec line' fds) := executecmd_words w hchild hline' fuel
    rw [hexec, hcommand, if_neg (by omega)]
    rfl

/-- What a redirected line executes. -/
theorem Redirects.executes_iff {c : List Plain} {fds : Fds} (h : Redirects w env line c fds)
    (hq : env.Quiet) {fuel : ℕ} {run : Run} (hrun : executecmd w fuel env line = some run)
    (inp out : Plain) : run.Executes c inp out ↔
      fds.get 0 = some (.file inp.1) ∧ fds.get 1 = some (.file out.1) := by
  obtain ⟨line', hline', hexec⟩ := h.executecmd_eq hq
  rw [hexec] at hrun
  split_ifs at hrun
  obtain rfl := Option.some.inj hrun
  constructor
  · rintro ⟨_, _, heq, -, hin, hout⟩
    cases heq
    exact ⟨hin, hout⟩
  · rintro ⟨hin, hout⟩
    exact ⟨line', fds, rfl, hline', hin, hout⟩

theorem Redirects.total {c : List Plain} {fds : Fds} (h : Redirects w env line c fds)
    (hq : env.Quiet) : ∃ run, executecmd w 2 env line = some run := by
  obtain ⟨line', -, hexec⟩ := h.executecmd_eq hq
  exact ⟨_, hexec 2⟩

/-- **The order of the redirections.** `c < in > out` and `c > out < in` both execute the tokens of
`c` with the two files, if and only if address 0 holds no redirection, both files can be opened, and
the standard input of the shell is the file `in` already: of the second line only `> out` is
done. -/
theorem redirections_commute_iff (w : World) (env : Env) (σ₀ σ₁ : Source) (rest : Fds)
    (hfds : env.fds = some σ₀ :: some σ₁ :: rest) (c : List Plain) (inp out : Plain)
    (io oi : Line) (hio : io.Holds (redirected c ['<'] inp ['>'] out))
    (hoi : oi.Holds (redirected c ['>'] out ['<'] inp)) :
    (∃ fuel run run', executecmd w fuel env io = some run ∧ executecmd w fuel env oi = some run' ∧
        run.Executes c inp out ∧ run'.Executes c inp out) ↔
      (env.null ≠ ['<'] ∧ env.null ≠ ['>']) ∧ w.openable inp.1 ∧ w.openable out.1 ∧
        σ₀ = .file inp.1 := by
  have hopened : ∀ name, w.opened name = some (.file name) ↔ w.openable name = true := by
    intro name
    unfold World.opened
    by_cases h : w.openable name <;> simp [h]
  obtain ⟨fds₁, hredirects₁, hin₁, hout₁⟩ := redirects_io w hio hfds
  obtain ⟨fds₂, hredirects₂, hin₂, hout₂⟩ := redirects_oi w hoi hfds
  constructor
  · rintro ⟨fuel, run, run', hrun, hrun', hexec, hexec'⟩
    have hq : env.Quiet := by
      by_contra hnull
      have hend : io.tokens io.size = none := by
        rw [hio.size, hio.tokens _ (Nat.le_refl _), List.getElem?_eq_none (Nat.le_refl _)]
      rw [executecmd_null w hnull hend] at hrun
      cases hrun
    rw [hredirects₁.executes_iff hq hrun, hin₁, hout₁, hopened, hopened] at hexec
    rw [hredirects₂.executes_iff hq hrun', hin₂, hout₂] at hexec'
    exact ⟨hq, hexec.1, hexec.2, Option.some.inj hexec'.1⟩
  · rintro ⟨hq, hinp, hout, rfl⟩
    obtain ⟨run, hrun⟩ := hredirects₁.total hq
    obtain ⟨run', hrun'⟩ := hredirects₂.total hq
    refine ⟨2, run, run', hrun, hrun', (hredirects₁.executes_iff hq hrun inp out).mpr ?_,
      (hredirects₂.executes_iff hq hrun' inp out).mpr ?_⟩
    · rw [hin₁, hout₁]
      exact ⟨(hopened _).mpr hinp, (hopened _).mpr hout⟩
    · rw [hin₂, hout₂]
      exact ⟨rfl, (hopened _).mpr hout⟩

/-- The descriptors of a shell at the console. -/
def console : Env :=
  ⟨[], [some (.inherited 0), some (.inherited 1), some (.inherited 2)], []⟩

/-- A shell whose standard input is the file `x` does `c < x > y` and `c > y < x` alike. -/
theorem redirections_commute_same_input :
    ∃ fuel run run', executecmd ⟨fun _ => true, fun _ _ => none⟩ fuel
        ⟨[], [some (.file ['x']), some (.inherited 1)], []⟩
        (Line.ofList [['c'], ['<'], ['x'], ['>'], ['y']]) = some run ∧
      executecmd ⟨fun _ => true, fun _ _ => none⟩ fuel
        ⟨[], [some (.file ['x']), some (.inherited 1)], []⟩
        (Line.ofList [['c'], ['>'], ['y'], ['<'], ['x']]) = some run' ∧
      run.Executes [⟨['c'], by decide⟩] ⟨['x'], by decide⟩ ⟨['y'], by decide⟩ ∧
      run'.Executes [⟨['c'], by decide⟩] ⟨['x'], by decide⟩ ⟨['y'], by decide⟩ :=
  (redirections_commute_iff ⟨fun _ => true, fun _ _ => none⟩
    ⟨[], [some (.file ['x']), some (.inherited 1)], []⟩ (.file ['x']) (.inherited 1) [] rfl
    [⟨['c'], by decide⟩] ⟨['x'], by decide⟩ ⟨['y'], by decide⟩ _ _ (Line.holds_ofList _)
    (Line.holds_ofList _)).mpr ⟨by decide, rfl, rfl, rfl⟩

/-- At the console, `c > y < x` executes `c` with the console as its standard input. -/
theorem input_after_output_lost :
    ∃ line fds, executecmd ⟨fun _ => true, fun _ _ => none⟩ 2 console
        (Line.ofList [['c'], ['>'], ['y'], ['<'], ['x']]) = some (.redirect (.exec line fds)) ∧
      line.Holds [['c']] ∧ fds.get 0 = some (.inherited 0) ∧ fds.get 1 = some (.file ['y']) := by
  have hholds : (Line.ofList [['c'], ['>'], ['y'], ['<'], ['x']]).Holds
      (redirected [⟨['c'], by decide⟩] ['>'] ⟨['y'], by decide⟩ ['<'] ⟨['x'], by decide⟩) :=
    Line.holds_ofList _
  obtain ⟨fds, hredirects, hin, hout⟩ := redirects_oi ⟨fun _ => true, fun _ _ => none⟩ hholds
    (show console.fds = _ from rfl)
  obtain ⟨line, hline, hexec⟩ := hredirects.executecmd_eq ⟨nofun, nofun⟩
  exact ⟨line, fds, hexec 2, hline, hin, hout⟩

end Xv6.ShellLine
