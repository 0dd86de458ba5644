import Assignments.Framework.Basic

/-!
# `grep`

The matcher of `grep.c` and the loop that reads its input. A string is the list of its characters,
without the terminating NUL.

A pattern is read as a sequence of items, each of which stands for a set of strings, and an end
mark `$`. The matcher tries out where the pattern may begin and how long a run each `*` may take;
that it finds a match whenever there is one is `match_iff`. All the backtracking is in one loop,
which is followed for an arbitrary matcher of the rest of the pattern (`matchstar_iff`).

The loop of `grep` keeps the beginning of a line in its buffer until the rest of it has been read,
but only if the buffer holds the end of another line: otherwise it forgets what it has read. So
what `grep` writes does depend on how the input arrives, and `grep_delivery_iff` says when it does
not.
-/

namespace Xv6.Grep

open List

/-! ### The matcher -/

/-- `matchstar(c, re, text)`, where `here` is `matchhere` with the pattern `re`. -/
def matchstar (here : List Char → Bool) (c : Char) : List Char → Bool
  | [] => here []
  | t :: text => here (t :: text) || ((t = c || c = '.') && matchstar here c text)

/-- The end of `matchhere`: a single character, and then the rest of the pattern. -/
def matchone (here : List Char → Bool) (c : Char) : List Char → Bool
  | [] => false
  | t :: text => (c = '.' || c = t) && here text

def matchhere : List Char → List Char → Bool
  | [], _ => true
  | [c], text => if c = '$' then text.isEmpty else matchone (matchhere []) c text
  | c :: d :: re, text =>
    if d = '*' then matchstar (matchhere re) c text else matchone (matchhere (d :: re)) c text

/-- The loop of `match`. -/
def matchfrom (here : List Char → Bool) : List Char → Bool
  | [] => here []
  | t :: text => here (t :: text) || matchfrom here text

/-- `match(re, text)` -/
def match_ (re text : List Char) : Bool :=
  if re.head? = some '^' then matchhere re.tail text else matchfrom (matchhere re) text

/-! ### What a pattern stands for -/

/-- A character, or any number of them. -/
inductive Item where
  | one (c : Char)
  | many (c : Char)

/-- The strings of one character that `c` stands for. -/
def atom (c : Char) : Language Char := { w | ∃ t, (c = '.' ∨ t = c) ∧ w = [t] }

open Computability in
def Item.language : Item → Language Char
  | .one c => atom c
  | .many c => (atom c)∗

def language (is : List Item) : Language Char := (is.map Item.language).prod

/-- The items of a pattern from left to right, and whether it ends with an end mark. -/
def items : List Char → List Item × Bool
  | [] => ([], false)
  | [c] => if c = '$' then ([], true) else ([.one c], false)
  | c :: d :: re =>
    if d = '*' then (.many c :: (items re).1, (items re).2)
    else (.one c :: (items (d :: re)).1, (items (d :: re)).2)

/-- The items, with their end mark, at the beginning of a text. -/
def Begins (p : List Item × Bool) (text : List Char) : Prop :=
  ∃ part after, text = part ++ after ∧ part ∈ language p.1 ∧ (p.2 = true → after = [])

/-- Some part of the text, the beginning of it if `^` leads, is a string of the items. -/
def Matches (re text : List Char) : Prop :=
  if re.head? = some '^' then Begins (items re.tail) text
  else ∃ before rest, text = before ++ rest ∧ Begins (items re) rest

section Matcher

variable {c : Char} {here : List Char → Bool} {text : List Char} {is : List Item} {fin : Bool}

open Computability in
/-- A run of characters that `c` stands for. -/
theorem mem_kstar_atom {w : List Char} : w ∈ (atom c)∗ ↔ ∀ t ∈ w, c = '.' ∨ t = c := by
  rw [Language.mem_kstar]
  constructor
  · rintro ⟨ws, rfl, hws⟩ t ht
    obtain ⟨w, hw, ht⟩ := mem_flatten.mp ht
    obtain ⟨t', htc, rfl⟩ := hws w hw
    rwa [mem_singleton.mp ht]
  · intro hw
    refine ⟨w.map fun t => [t], (flatMap_singleton' w).symm, fun y hy => ?_⟩
    obtain ⟨t, ht, rfl⟩ := mem_map.mp hy
    exact ⟨t, hw t ht, rfl⟩

/-- The loop of `matchstar` tries every run of characters that `c` stands for. -/
theorem matchstar_iff : matchstar here c text = true ↔
    ∃ run rest, text = run ++ rest ∧ (∀ t ∈ run, c = '.' ∨ t = c) ∧ here rest = true := by
  induction text with
  | nil =>
    constructor
    · exact fun h => ⟨[], [], rfl, nofun, h⟩
    · rintro ⟨run, rest, heq, -, h⟩
      obtain ⟨-, rfl⟩ := append_eq_nil_iff.mp heq.symm
      exact h
  | cons t text ih =>
    rw [matchstar, Bool.or_eq_true, Bool.and_eq_true, ih]
    constructor
    · rintro (h | ⟨hc, run, rest, rfl, hrun, h⟩)
      · exact ⟨[], t :: text, rfl, nofun, h⟩
      · refine ⟨t :: run, rest, rfl, forall_mem_cons.mpr ⟨?_, hrun⟩, h⟩
        simpa [or_comm] using hc
    · rintro ⟨run, rest, heq, hrun, h⟩
      cases run with
      | nil =>
        -- the shortest run, which the loop tries first
        rw [nil_append] at heq
        exact .inl (heq ▸ h)
      | cons t' run =>
        obtain ⟨rfl, rfl⟩ := cons_eq_cons.mp heq
        obtain ⟨hc, hrun⟩ := forall_mem_cons.mp hrun
        exact .inr ⟨by simpa [or_comm] using hc, run, rest, rfl, hrun, h⟩

/-- The loop of `match` tries every place to begin. -/
theorem matchfrom_iff : matchfrom here text = true ↔
    ∃ before rest, text = before ++ rest ∧ here rest = true := by
  have hloop : matchfrom here text = matchstar here '.' text := by
    induction text with
    | nil => rfl
    | cons t text ih => simp [matchfrom, matchstar, ih]
  rw [hloop, matchstar_iff]
  simp

theorem begins_nil : Begins ([], fin) text ↔ (fin = true → text = []) := by
  constructor
  · rintro ⟨part, after, rfl, hpart, hfin⟩
    rw [(Language.mem_one part).mp hpart, nil_append]
    exact hfin
  · exact fun h => ⟨[], text, rfl, rfl, h⟩

/-- The first item takes a beginning of the text, the others the beginning of what is left. -/
theorem begins_cons {i : Item} : Begins (i :: is, fin) text ↔
    ∃ run rest, text = run ++ rest ∧ run ∈ i.language ∧ Begins (is, fin) rest := by
  constructor
  · rintro ⟨part, after, rfl, hpart, hfin⟩
    rw [language, map_cons, prod_cons, Language.mem_mul] at hpart
    obtain ⟨run, hrun, part, hpart, rfl⟩ := hpart
    exact ⟨run, part ++ after, append_assoc .., hrun, part, after, rfl, hpart, hfin⟩
  · rintro ⟨run, rest, rfl, hrun, part, after, rfl, hpart, hfin⟩
    refine ⟨run ++ part, after, (append_assoc ..).symm, ?_, hfin⟩
    rw [language, map_cons, prod_cons, Language.mem_mul]
    exact ⟨run, hrun, part, hpart, rfl⟩

theorem matchone_iff (hhere : ∀ rest, here rest = true ↔ Begins (is, fin) rest) :
    matchone here c text = true ↔ Begins (.one c :: is, fin) text := by
  rw [begins_cons]
  cases text with
  | nil =>
    refine iff_of_false nofun ?_
    rintro ⟨run, rest, heq, ⟨t, -, rfl⟩, -⟩
    cases heq
  | cons t text =>
    rw [matchone, Bool.and_eq_true, hhere]
    constructor
    · rintro ⟨hc, h⟩
      rw [Bool.or_eq_true, decide_eq_true_iff, decide_eq_true_iff] at hc
      exact ⟨[t], text, rfl, ⟨t, hc.imp_right Eq.symm, rfl⟩, h⟩
    · rintro ⟨run, rest, heq, ⟨t', hc, rfl⟩, h⟩
      obtain ⟨rfl, rfl⟩ := cons_eq_cons.mp heq
      rw [Bool.or_eq_true, decide_eq_true_iff, decide_eq_true_iff]
      exact ⟨hc.imp_right Eq.symm, h⟩

/-- `matchhere` follows the items of the pattern. -/
theorem matchhere_iff {re : List Char} : matchhere re text = true ↔ Begins (items re) text := by
  induction re using items.induct generalizing text with
  | case1 => simp [matchhere, items, begins_nil]
  | case2 => simp [matchhere, items, begins_nil]
  | case3 c hc =>
    rw [matchhere, items, if_neg hc, if_neg hc]
    exact matchone_iff fun rest => by simp [matchhere, begins_nil]
  | case4 c re ih =>
    rw [matchhere, items, if_pos rfl, if_pos rfl, matchstar_iff, begins_cons]
    simp only [Item.language, mem_kstar_atom, ih]
  | case5 c d re hd ih =>
    rw [matchhere, items, if_neg hd, if_neg hd]
    exact matchone_iff fun rest => ih

/-- **The matcher of `grep`.** `match` returns 1 just if some part of the text, the beginning of it
if `^` leads, is one of the strings that the items of the pattern stand for; with a final `$` the
part has to be the end of the text. -/
theorem match_iff (re text : List Char) : match_ re text = true ↔ Matches re text := by
  unfold match_ Matches
  split
  · exact matchhere_iff
  · rw [matchfrom_iff]
    simp only [matchhere_iff]

end Matcher

/-! ### The loop of `grep` -/

/-- The loop over the lines in the buffer, with `line` the characters from `p` to where `strchr` has
come: the lines that it finds, and what there is from `p` on in the end. A NUL ends the search. -/
def scan : List Char → List Char → List (List Char) × List Char
  | line, [] => ([], line)
  | line, c :: rest =>
    if c = '\x00' then ([], line ++ c :: rest)
    else if c = '\n' then (line :: (scan [] rest).1, (scan [] rest).2)
    else scan (line ++ [c]) rest

/-- What is written for a line. -/
def emit (pattern line : List Char) : List Char :=
  if match_ pattern line then line ++ ['\n'] else []

/-- What stays in the buffer: nothing if `p` has not moved. -/
def keep (buf : List Char) : List Char :=
  if (scan [] buf).2.length = buf.length then [] else (scan [] buf).2

/-- What `grep` writes, from what is in the buffer and the results of its calls of `read` up to the
end of the input. -/
def grep (pattern : List Char) : List Char → List (List Char) → List Char
  | _, [] => []
  | kept, result :: results =>
    (scan [] (kept ++ result)).1.flatMap (emit pattern) ++
      grep pattern (keep (kept ++ result)) results

/-- `sizeof(buf)` -/
def bufSize : ℕ := 1024

/-- The results of `read` are not empty and no larger than what is asked for. -/
def Served : List Char → List (List Char) → Prop
  | _, [] => True
  | kept, result :: results =>
    result ≠ [] ∧ result.length ≤ bufSize - kept.length - 1 ∧ Served (keep (kept ++ result)) results

/-- A way to deliver a stream without NUL. -/
structure Delivers (results : List (List Char)) (stream : List Char) : Prop where
  all : results.flatten = stream
  noNul : '\x00' ∉ stream
  served : Served [] results

/-- The lines of the stream that match, each with its newline. -/
def matching (pattern stream : List Char) : List Char :=
  ((stream.splitOn '\n').dropLast.filter (match_ pattern)).flatMap (· ++ ['\n'])

/-- Each call of `read` returns the end of a line, as long as there is one to come. -/
def Whole : List (List Char) → Prop
  | [] => True
  | result :: results => ('\n' ∈ result ∨ '\n' ∉ results.flatten) ∧ Whole results

section Loop

variable {l s t : List Char} {results : List (List Char)}

theorem scan_of_notMem (hnul : '\x00' ∉ s) (hs : '\n' ∉ s) : scan l s = ([], l ++ s) := by
  induction s generalizing l with
  | nil => simp [scan]
  | cons c s ih =>
    rw [mem_cons, not_or] at hnul hs
    rw [scan, if_neg (Ne.symm hnul.1), if_neg (Ne.symm hs.1), ih hnul.2 hs.2, append_assoc]
    rfl

/-- The search goes on where it stopped. -/
theorem scan_append (hnul : '\x00' ∉ s) :
    scan l (s ++ t) = ((scan l s).1 ++ (scan (scan l s).2 t).1, (scan (scan l s).2 t).2) := by
  induction s generalizing l with
  | nil => rfl
  | cons c s ih =>
    rw [mem_cons, not_or] at hnul
    rw [cons_append, scan, scan, if_neg (Ne.symm hnul.1), if_neg (Ne.symm hnul.1)]
    split
    · rw [ih hnul.2, cons_append]
    · exact ih hnul.2

/-- A line that is only begun is searched together with what follows. -/
theorem scan_line (hnul : '\x00' ∉ l) (hl : '\n' ∉ l) : scan l s = scan [] (l ++ s) := by
  rw [scan_append hnul, scan_of_notMem hnul hl]
  rfl

/-- What is left holds no newline, and it is not all of the buffer if that held one. -/
theorem scan_left (hnul : '\x00' ∉ s) (hl : '\n' ∉ l) :
    '\n' ∉ (scan l s).2 ∧ (scan l s).2 <:+ l ++ s ∧
      ('\n' ∈ s → (scan l s).2.length < (l ++ s).length) := by
  induction s generalizing l with
  | nil => exact ⟨hl, by simp [scan], nofun⟩
  | cons c s ih =>
    rw [mem_cons, not_or] at hnul
    rw [scan, if_neg (Ne.symm hnul.1)]
    split
    · obtain ⟨hleft, hsuffix, -⟩ := @ih [] hnul.2 nofun
      refine ⟨hleft, hsuffix.trans ⟨l ++ [c], by simp⟩, fun _ => hsuffix.length_le.trans_lt ?_⟩
      simp only [nil_append, length_append, length_cons]
      omega
    · next hc =>
      obtain ⟨hleft, hsuffix, hlt⟩ := @ih (l ++ [c]) hnul.2 (by simp [hl, Ne.symm hc])
      rw [append_assoc] at hsuffix hlt
      refine ⟨hleft, hsuffix, fun hmem => hlt ?_⟩
      exact (mem_cons.mp hmem).resolve_left (Ne.symm hc)

/-- One search over all of the stream finds the lines that end. -/
theorem scan_eq_splitOn (hnul : '\x00' ∉ s) (hl : '\n' ∉ l) :
    (scan l s).1 = ((l ++ s).splitOn '\n').dropLast := by
  have hline : ∀ {l : List Char}, '\n' ∉ l → ∀ x ∈ l, (x == '\n') = false := by
    intro l hl x hx
    exact beq_eq_false_iff_ne.mpr fun heq => hl (heq ▸ hx)
  induction s generalizing l with
  | nil =>
    rw [append_nil, splitOn, splitOnP_eq_singleton (hline hl)]
    rfl
  | cons c s ih =>
    rw [mem_cons, not_or] at hnul
    rw [scan, if_neg (Ne.symm hnul.1)]
    split
    · next hc =>
      have hfirst : (l ++ c :: s).splitOn '\n' = l :: s.splitOn '\n' :=
        splitOnP_append_cons_of_forall_mem (hline hl) c (beq_iff_eq.mpr hc) s
      rw [hfirst, dropLast_cons_of_ne_nil (splitOn_ne_nil _ s), @ih [] hnul.2 nofun]
      rfl
    · next hc =>
      rw [ih hnul.2 (by simp [hl, Ne.symm hc]), append_assoc]
      rfl

theorem flatMap_emit (pattern : List Char) (ls : List (List Char)) :
    ls.flatMap (emit pattern) = (ls.filter (match_ pattern)).flatMap (· ++ ['\n']) := by
  induction ls with
  | nil => rfl
  | cons l ls ih =>
    rw [flatMap_cons, filter_cons, ih, emit]
    split <;> rfl

/-- What one search over all of the stream has to say. -/
theorem flatMap_scan (pattern : List Char) (hnul : '\x00' ∉ s) :
    (scan [] s).1.flatMap (emit pattern) = matching pattern s := by
  rw [flatMap_emit, scan_eq_splitOn hnul not_mem_nil]
  rfl

/-- A buffer without a newline is forgotten; otherwise what has not been searched is kept. -/
theorem keep_eq (hnul : '\x00' ∉ s) : keep s = if '\n' ∈ s then (scan [] s).2 else [] := by
  unfold keep
  by_cases hmem : '\n' ∈ s
  · have hlt : (scan [] s).2.length < s.length := (scan_left hnul not_mem_nil).2.2 hmem
    rw [if_neg hlt.ne, if_pos hmem]
  · rw [if_neg hmem, scan_of_notMem hnul hmem]
    exact if_pos rfl

/-- A read that returns the end of a line: the search goes on as if there had been no stop. -/
theorem scan_keep (hnul : '\x00' ∉ s ++ t) (hs : '\n' ∈ s) :
    '\n' ∉ keep s ∧ '\x00' ∉ keep s ++ t ∧
      (scan [] (s ++ t)).1 = (scan [] s).1 ++ (scan [] (keep s ++ t)).1 := by
  obtain ⟨hs', ht⟩ := not_or.mp (mem_append.not.mp hnul)
  obtain ⟨hleft, hsuffix, -⟩ := @scan_left [] s hs' nofun
  have hkept : '\x00' ∉ (scan [] s).2 := fun hm => hs' (hsuffix.mem hm)
  rw [keep_eq hs', if_pos hs, scan_append hs', scan_line hkept hleft]
  exact ⟨hleft, mem_append.not.mpr (not_or.mpr ⟨hkept, ht⟩), rfl⟩

/-- Nothing that matters is forgotten when the reads are whole. -/
theorem grep_of_whole (pattern : List Char) (hl : '\n' ∉ l) (hnul : '\x00' ∉ l ++ results.flatten)
    (h : Whole results) :
    grep pattern l results = (scan [] (l ++ results.flatten)).1.flatMap (emit pattern) := by
  induction results generalizing l with
  | nil =>
    rw [flatten_nil, append_nil] at hnul ⊢
    rw [scan_of_notMem hnul hl]
    rfl
  | cons result results ih =>
    rw [flatten_cons, ← append_assoc] at hnul ⊢
    rw [grep]
    by_cases hmem : '\n' ∈ result
    · obtain ⟨hkeep, hnul', hscan⟩ := scan_keep hnul (mem_append_right l hmem)
      rw [ih hkeep hnul' h.2, hscan, flatMap_append]
    · -- there is no newline any more
      obtain ⟨hbuf, hrest⟩ := not_or.mp (mem_append.not.mp hnul)
      have hnone : '\n' ∉ l ++ result := by simp [hl, hmem]
      have hlater := h.1.resolve_left hmem
      rw [keep_eq hbuf, if_neg hnone, ih not_mem_nil hrest h.2, scan_append hbuf,
        scan_of_notMem hbuf hnone, scan_of_notMem hrest hlater, nil_append results.flatten,
        scan_of_notMem hrest hlater]
      rfl

/-- The empty pattern matches every line. -/
theorem match_nil (text : List Char) : match_ [] text = true :=
  (match_iff [] text).mpr ⟨[], text, rfl, [], text, rfl, rfl, nofun⟩

/-- With the empty pattern, the beginning of a line is written if its end comes. -/
theorem flatMap_scan_nil (hnul : '\x00' ∉ s) : (scan l s).1.flatMap (emit []) =
    if '\n' ∈ s then l ++ (scan [] s).1.flatMap (emit []) else [] := by
  induction s generalizing l with
  | nil => rfl
  | cons c s ih =>
    rw [mem_cons, not_or] at hnul
    simp only [scan, if_neg (Ne.symm hnul.1)]
    by_cases hc : c = '\n'
    · simp [hc, emit, match_nil]
    · rw [if_neg hc, if_neg hc, ih hnul.2, @ih ([] ++ [c]) hnul.2]
      by_cases hs : '\n' ∈ s <;> simp [hs, Ne.symm hc]

/-- With the empty pattern, `grep` writes no more than it should, and less if it forgets something
of a line that ends. -/
theorem length_grep_nil (hread : ∀ result ∈ results, result ≠ []) (hl : '\n' ∉ l)
    (hnul : '\x00' ∉ l ++ results.flatten) :
    (grep [] l results).length ≤
        ((scan [] (l ++ results.flatten)).1.flatMap (emit [])).length ∧
      (¬ Whole results → (grep [] l results).length <
        ((scan [] (l ++ results.flatten)).1.flatMap (emit [])).length) := by
  induction results generalizing l with
  | nil => exact ⟨Nat.zero_le _, fun h => absurd trivial h⟩
  | cons result results ih =>
    rw [flatten_cons, ← append_assoc] at hnul ⊢
    obtain ⟨hne, hread⟩ := forall_mem_cons.mp hread
    rw [grep, length_append]
    by_cases hmem : '\n' ∈ result
    · obtain ⟨hkeep, hnul', hscan⟩ := scan_keep hnul (mem_append_right l hmem)
      obtain ⟨hle, hlt⟩ := ih hread hkeep hnul'
      rw [hscan, flatMap_append, length_append]
      refine ⟨Nat.add_le_add_left hle _, fun hwhole => Nat.add_lt_add_left (hlt ?_) _⟩
      exact fun h => hwhole ⟨.inl hmem, h⟩
    · obtain ⟨hbuf, hrest⟩ := not_or.mp (mem_append.not.mp hnul)
      have hnone : '\n' ∉ l ++ result := by simp [hl, hmem]
      obtain ⟨hle, hlt⟩ := @ih [] hread nofun hrest
      rw [nil_append] at hle hlt
      rw [keep_eq hbuf, if_neg hnone, ← scan_line hbuf hnone, flatMap_scan_nil hrest,
        scan_of_notMem hbuf hnone, flatMap_nil, length_nil, Nat.zero_add]
      by_cases hlater : '\n' ∈ results.flatten
      · -- what was in the buffer is missing in front of the rest of the line
        have hpos : 0 < (l ++ result).length := by
          rw [length_append]
          exact Nat.add_pos_right _ (length_pos_iff.mpr hne)
        rw [if_pos hlater, length_append]
        exact ⟨hle.trans (Nat.le_add_left _ _), fun _ => hle.trans_lt (Nat.lt_add_of_pos_left hpos)⟩
      · rw [if_neg hlater]
        rw [scan_of_notMem hrest hlater] at hle hlt
        exact ⟨hle, fun hwhole => hlt fun h => hwhole ⟨.inr hlater, h⟩⟩

theorem Served.ne_nil (h : Served l results) : ∀ result ∈ results, result ≠ [] := by
  induction results generalizing l with
  | nil => exact nofun
  | cons result results ih => exact forall_mem_cons.mpr ⟨h.1, ih h.2.2⟩

/-- **When the output does not depend on how the input arrives.** `grep` writes the lines that
match, whatever the pattern, just if each call of `read` returns the end of a line as long as there
is one to come. -/
theorem grep_delivery_iff (results : List (List Char)) (stream : List Char)
    (h : Delivers results stream) :
    (∀ pattern, grep pattern [] results = matching pattern stream) ↔ Whole results := by
  obtain ⟨rfl, hnul, hserved⟩ := h
  constructor
  · intro hgrep
    by_contra hwhole
    have hlt := (@length_grep_nil [] results hserved.ne_nil nofun hnul).2 hwhole
    rw [hgrep [], nil_append, flatMap_scan [] hnul] at hlt
    exact lt_irrefl _ hlt
  · intro hwhole pattern
    rw [grep_of_whole pattern not_mem_nil hnul hwhole, nil_append,
      flatMap_scan pattern hnul]

theorem grep_delivery_lines :
    Delivers ["ab\nc".toList, "d\ne".toList] "ab\ncd\ne".toList ∧
      ∀ pattern, grep pattern [] ["ab\nc".toList, "d\ne".toList] =
        matching pattern "ab\ncd\ne".toList := by
  have h : Delivers ["ab\nc".toList, "d\ne".toList] "ab\ncd\ne".toList :=
    ⟨by decide, by decide, by decide, by decide, by decide, by decide, trivial⟩
  exact ⟨h, (grep_delivery_iff _ _ h).mpr ⟨by decide, by decide, trivial⟩⟩

/-- The first half of a line is forgotten if it comes alone. -/
theorem grep_forgets :
    Delivers ["ab".toList, "c\n".toList] "abc\n".toList ∧
      Delivers ["abc\n".toList] "abc\n".toList ∧
      grep ['a'] [] ["ab".toList, "c\n".toList] = [] ∧
      grep ['a'] [] ["abc\n".toList] = "abc\n".toList :=
  ⟨⟨by decide, by decide, by decide, by decide, by decide, by decide, trivial⟩,
    ⟨by decide, by decide, by decide, by decide, trivial⟩, by decide, by decide⟩

end Loop

end Xv6.Grep
