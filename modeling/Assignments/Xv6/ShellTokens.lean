import Assignments.Framework.Basic

/-!
# The tokenizer of the shell

`takeinput` and `readLine` of `shell.c`. `readLine` goes over the letters of the line once. It
collects a word in `tok[50]`, and at a blank or at the end of the line it copies the word to the
next row of `temp[20][50]` and enters the row in `cmd->tokens[100]`. No index is tested: in the
model a write outside of an array ends the call with an error. The arrays are functions, and what
they hold before is arbitrary; that of `cmd->tokens` is what `malloc` returned.

* `Filled` is the loop invariant: `tok` holds the letters of the word so far, the rows hold the
  words before it, and the tokens from there on are still those of `malloc`;
* `tokenize_spec` — the loop comes to its end just if all words fit;
* `readLine_safe_iff` — when the tokenizer does what it is for.
-/

namespace Xv6.ShellTokens

open Function List

/-- The sizes of the arrays. -/
abbrev READSIZE : ℕ := 300
abbrev TOKSIZE : ℕ := 50
abbrev TEMPSIZE : ℕ := 20
abbrev CMDSIZE : ℕ := 100
abbrev INPUTSIZE : ℕ := 500

/-- The zero byte that ends a string. -/
def nul : Char := Char.ofNat 0

/-! ### Input -/

/-- The loop of `gets`, with room for `n` more bytes: what is put into the buffer before the zero
byte. The input is at its end when it is empty. -/
def getsLoop : ℕ → List Char → List Char
  | 0, _ => []
  | _ + 1, [] => []
  | n + 1, c :: input =>
    if c = '\n' ∨ c = '\r' then [c] else c :: getsLoop n input

/-- `gets(buf, max)`: the loop runs while `i + 1 < max`. -/
def gets (max : ℕ) (input : List Char) : List Char := getsLoop (max - 1) input

def takeinput (input : List Char) : List Char := gets READSIZE input

theorem getsLoop_length (n : ℕ) (input : List Char) : (getsLoop n input).length ≤ n := by
  induction n generalizing input with
  | zero => exact Nat.le_refl 0
  | succ n ih =>
    cases input with
    | nil => exact Nat.zero_le _
    | cons c input =>
      rw [getsLoop]
      split_ifs
      · exact Nat.succ_le_succ (Nat.zero_le n)
      · exact Nat.succ_le_succ (ih input)

theorem takeinput_length (input : List Char) : (takeinput input).length ≤ 299 :=
  getsLoop_length 299 input

/-! ### `readLine` -/

/-- A pointer in `cmd->tokens`: null, to a row of `temp`, or to anything else. -/
inductive Ptr where
  | null
  | row (k : ℕ)
  | wild (address : ℕ)
  deriving DecidableEq, Repr

/-- The array that a write has left. -/
inductive Overflow where
  | inputchars
  | tok
  | temp
  | tokens
  deriving DecidableEq, Repr

/-- The variables of `readLine`. -/
structure State where
  tok : ℕ → Char
  index : ℕ
  temp : ℕ → ℕ → Char
  tokens : ℕ → Ptr
  totalwords : ℕ

/-- The position of the first zero byte of a string in an array of `n` bytes. -/
def strlen (n : ℕ) (s : ℕ → Char) : Option ℕ := (range n).find? fun i => s i = nul

/-- `strcpy`: the bytes up to the zero byte at `len`. -/
def strcpy (dst src : ℕ → Char) (len : ℕ) : ℕ → Char := fun i => if i ≤ len then src i else dst i

/-- The string in a row of `temp`. -/
def State.text (s : State) (k : ℕ) : List Char :=
  ((range TOKSIZE).map (s.temp k)).takeWhile (· ≠ nul)

/-- `tok[index++] = *let;` -/
def State.push (s : State) (c : Char) : Except Overflow State :=
  if s.index < TOKSIZE then
    .ok { s with tok := update s.tok s.index c, index := s.index + 1 }
  else .error .tok

/-- `tok[index] = '\0'; strcpy(temp[totalwords], tok); cmd->tokens[totalwords] = temp[totalwords];`
and the two assignments behind it. -/
def State.endWord (s : State) : Except Overflow State :=
  if s.index < TOKSIZE then
    match strlen TOKSIZE (update s.tok s.index nul) with
    | none => .error .tok
    | some len =>
      if s.totalwords < TEMPSIZE then
        if s.totalwords < CMDSIZE then
          .ok { tok := update s.tok s.index nul
                index := 0
                temp := update s.temp s.totalwords
                  (strcpy (s.temp s.totalwords) (update s.tok s.index nul) len)
                tokens := update s.tokens s.totalwords (.row s.totalwords)
                totalwords := s.totalwords + 1 }
        else .error .tokens
      else .error .temp
  else .error .tok

/-- The loop, from the letters that are left; the zero byte of `gets` is behind the last one. -/
def tokenize : State → List Char → Except Overflow State
  | s, [] => s.endWord
  | s, c :: letters =>
    if c = ' ' then do
      let s ← s.endWord
      tokenize s letters
    else if c = '\n' ∨ c = nul then s.endWord
    else do
      let s ← s.push c
      tokenize s letters

/-- `readLine`, with what the arrays hold before. `cmd->size` is `totalwords` at the end. -/
def readLine (tok : ℕ → Char) (temp : ℕ → ℕ → Char) (malloced : ℕ → Ptr) (letters : List Char) :
    Except Overflow State :=
  if (letters.takeWhile (· ≠ nul)).length < INPUTSIZE then
    tokenize ⟨tok, 0, temp, malloced, 0⟩ letters
  else .error .inputchars

/-! ### What the line should give -/

/-- The line up to its first newline or zero byte. -/
def content (letters : List Char) : List Char := letters.takeWhile fun c => c ≠ '\n' ∧ c ≠ nul

/-- The words of the line: what stands between single blanks. -/
def wordsOf (letters : List Char) : List (List Char) := (content letters).splitOn ' '

theorem content_stop {c : Char} (hc : c = '\n' ∨ c = nul) (letters : List Char) :
    content (c :: letters) = [] := by
  unfold content
  rw [takeWhile_cons_of_neg]
  rcases hc with rfl | rfl <;> decide

theorem content_cons {c : Char} (hc : ¬(c = '\n' ∨ c = nul)) (letters : List Char) :
    content (c :: letters) = c :: content letters := by
  unfold content
  rw [takeWhile_cons_of_pos]
  simpa [not_or] using hc

theorem wordsOf_stop {c : Char} (hc : c = '\n' ∨ c = nul) (letters : List Char) :
    wordsOf (c :: letters) = [[]] := by
  unfold wordsOf
  rw [content_stop hc]
  rfl

theorem wordsOf_blank (letters : List Char) : wordsOf (' ' :: letters) = [] :: wordsOf letters := by
  unfold wordsOf
  rw [content_cons (by decide)]
  show (' ' :: content letters).splitOnP (· == ' ') = _
  rw [splitOnP_cons_eq_if_modifyHead, if_pos (by simp)]
  rfl

theorem wordsOf_letter {c : Char} (hblank : c ≠ ' ') (hc : ¬(c = '\n' ∨ c = nul))
    (letters : List Char) : wordsOf (c :: letters) = (wordsOf letters).modifyHead (c :: ·) := by
  unfold wordsOf
  rw [content_cons hc]
  show (c :: content letters).splitOnP (· == ' ') = _
  rw [splitOnP_cons_eq_if_modifyHead, if_neg (by simpa using hblank)]
  rfl

theorem exists_wordsOf (letters : List Char) : ∃ w ws, wordsOf letters = w :: ws :=
  exists_cons_of_ne_nil (splitOnP_ne_nil _ _)

/-! ### The loop invariant -/

/-- The words `done` are in the rows, and `cur` is in `tok`. -/
structure Filled (malloced : ℕ → Ptr) (done : List (List Char)) (cur : List Char) (s : State) :
    Prop where
  index : s.index = cur.length
  tok : ∀ i (h : i < cur.length), s.tok i = cur[i]
  letters : nul ∉ cur
  totalwords : s.totalwords = done.length
  text : ∀ k (h : k < done.length), s.text k = done[k]
  row : ∀ k, k < done.length → s.tokens k = .row k
  rest : ∀ k, done.length ≤ k → s.tokens k = malloced k

variable {malloced : ℕ → Ptr} {done : List (List Char)} {cur : List Char} {s : State}

theorem Filled.start (tok : ℕ → Char) (temp : ℕ → ℕ → Char) (malloced : ℕ → Ptr) :
    Filled malloced [] [] ⟨tok, 0, temp, malloced, 0⟩ where
  index := rfl
  tok i h := absurd h (Nat.not_lt_zero i)
  letters := not_mem_nil
  totalwords := rfl
  text k h := absurd h (Nat.not_lt_zero k)
  row k h := absurd h (Nat.not_lt_zero k)
  rest _ _ := rfl

/-- One more letter of the word. -/
theorem Filled.push (h : Filled malloced done cur s) {c : Char} (hc : c ≠ nul) :
    if cur.length < 50 then ∃ s', s.push c = .ok s' ∧ Filled malloced done (cur ++ [c]) s'
    else ∃ e, s.push c = .error e := by
  unfold State.push
  rw [h.index]
  split_ifs with hlt
  · refine ⟨_, rfl, ⟨?_, fun i hi => ?_, ?_, h.totalwords, h.text, h.row, h.rest⟩⟩
    · show cur.length + 1 = _
      rw [length_append, length_singleton]
    · show update s.tok cur.length c i = _
      rw [length_append, length_singleton] at hi
      by_cases hic : i = cur.length
      · subst hic
        rw [update_self, getElem_concat_length rfl]
      · rw [update_of_ne hic, getElem_append_left (by omega)]
        exact h.tok i (by omega)
    · rw [mem_append, mem_singleton, not_or]
      exact ⟨h.letters, hc.symm⟩
  · exact ⟨_, rfl⟩

/-- The string in an array that holds `cur` and a zero byte behind it. -/
theorem string_eq {f : ℕ → Char} {n : ℕ} (hn : cur.length < n) (hnul : nul ∉ cur)
    (hcur : ∀ i (h : i < cur.length), f i = cur[i]) (hend : f cur.length = nul) :
    ((range n).map f).takeWhile (· ≠ nul) = cur := by
  obtain ⟨m, rfl⟩ : ∃ m, n = cur.length + (m + 1) := ⟨n - cur.length - 1, by omega⟩
  have hfront : (range cur.length).map f = cur := by
    refine ext_getElem (by simp) fun i hi hi' => ?_
    rw [getElem_map, getElem_range]
    exact hcur i hi'
  rw [range_add, map_append, hfront, range_succ_eq_map, map_cons, map_cons,
    Nat.add_zero, hend, takeWhile_append_of_pos, takeWhile_cons_of_neg (by simp),
    append_nil]
  intro c hc
  simpa using fun e : c = nul => hnul (e ▸ hc)

theorem strlen_eq {f : ℕ → Char} {n : ℕ} (hn : cur.length < n) (hnul : nul ∉ cur)
    (hcur : ∀ i (h : i < cur.length), f i = cur[i]) (hend : f cur.length = nul) :
    strlen n f = some cur.length := by
  unfold strlen
  rw [find?_range_eq_some]
  refine ⟨decide_eq_true hend, mem_range.mpr hn, fun i hi => ?_⟩
  rw [Bool.not_eq_true', decide_eq_false_iff_not, hcur i hi]
  exact fun e => hnul (e ▸ List.getElem_mem hi)

/-- The end of a word: it fits if it has fewer than 50 letters and there is a row for it. -/
theorem Filled.endWord (h : Filled malloced done cur s) :
    if cur.length < 50 ∧ done.length < 20 then
      ∃ s', s.endWord = .ok s' ∧ Filled malloced (done ++ [cur]) [] s'
    else ∃ e, s.endWord = .error e := by
  have hcur : ∀ i (hi : i < cur.length), update s.tok cur.length nul i = cur[i] :=
    fun i hi => (update_of_ne (Nat.ne_of_lt hi) _ _).trans (h.tok i hi)
  have hend : update s.tok cur.length nul cur.length = nul := update_self _ _ _
  unfold State.endWord
  rw [h.index, h.totalwords]
  by_cases hlen : cur.length < 50
  · rw [if_pos (show cur.length < TOKSIZE from hlen), strlen_eq hlen h.letters hcur hend]
    by_cases hrow : done.length < 20
    · rw [if_pos ⟨hlen, hrow⟩]
      dsimp only
      rw [if_pos (show done.length < TEMPSIZE from hrow),
        if_pos (show done.length < CMDSIZE by show done.length < 100; omega)]
      refine ⟨_, rfl, ⟨rfl, fun i hi => absurd hi (Nat.not_lt_zero i), not_mem_nil, ?_,
        fun k hk => ?_, fun k hk => ?_, fun k hk => ?_⟩⟩
      · show done.length + 1 = _
        rw [length_append, length_singleton]
      · rw [length_append, length_singleton] at hk
        by_cases hkd : k = done.length
        · -- the row that was just written
          subst hkd
          rw [getElem_concat_length rfl]
          unfold State.text
          dsimp only
          rw [update_self]
          refine string_eq hlen h.letters (fun i hi => ?_) ?_
          · rw [strcpy, if_pos (Nat.le_of_lt hi)]
            exact hcur i hi
          · rw [strcpy, if_pos (Nat.le_refl _)]
            exact hend
        · rw [getElem_append_left (by omega), ← h.text k (by omega)]
          unfold State.text
          dsimp only
          rw [update_of_ne hkd]
      · rw [length_append, length_singleton] at hk
        show update s.tokens done.length _ k = _
        by_cases hkd : k = done.length
        · rw [hkd, update_self]
        · rw [update_of_ne hkd]
          exact h.row k (by omega)
      · rw [length_append, length_singleton] at hk
        show update s.tokens done.length _ k = _
        rw [update_of_ne (by omega)]
        exact h.rest k (by omega)
    · rw [if_neg (show ¬(cur.length < 50 ∧ done.length < 20) from fun hc => hrow hc.2)]
      dsimp only
      rw [if_neg (show ¬ done.length < TEMPSIZE from hrow)]
      exact ⟨_, rfl⟩
  · rw [if_neg (show ¬ cur.length < TOKSIZE from hlen),
      if_neg (show ¬(cur.length < 50 ∧ done.length < 20) from fun hc => hlen hc.1)]
    exact ⟨_, rfl⟩

/-- All words fit into the arrays. -/
def Fits (words : List (List Char)) : Prop := words.length ≤ 20 ∧ ∀ w ∈ words, w.length < 50

instance (words : List (List Char)) : Decidable (Fits words) := by unfold Fits; infer_instance

theorem fits_concat (hdone : ∀ v ∈ done, v.length < 50) :
    Fits (done ++ [cur]) ↔ cur.length < 50 ∧ done.length < 20 := by
  unfold Fits
  rw [length_append, length_singleton]
  constructor
  · rintro ⟨hlen, hall⟩
    exact ⟨hall cur (by simp), by omega⟩
  · rintro ⟨hcur, hlen⟩
    refine ⟨by omega, fun v hv => ?_⟩
    rcases mem_append.mp hv with hv | hv
    · exact hdone v hv
    · rw [mem_singleton.mp hv]
      exact hcur

/-- The last word. -/
theorem Filled.lastWord (h : Filled malloced done cur s) (hdone : ∀ v ∈ done, v.length < 50) :
    if Fits (done ++ [cur]) then
      ∃ s', s.endWord = .ok s' ∧ Filled malloced (done ++ [cur]) [] s'
    else ∃ e, s.endWord = .error e := by
  simp only [fits_concat hdone]
  exact h.endWord

/-- **The loop.** With `done` in the rows and `cur` in `tok`, it comes to its end just if the words
still fit, and then all words are in the rows. -/
theorem tokenize_spec {letters w : List Char} {ws : List (List Char)}
    (h : Filled malloced done cur s) (hdone : ∀ v ∈ done, v.length < 50)
    (hwords : wordsOf letters = w :: ws) :
    if Fits (done ++ (cur ++ w) :: ws) then
      ∃ s', tokenize s letters = .ok s' ∧ Filled malloced (done ++ (cur ++ w) :: ws) [] s'
    else ∃ e, tokenize s letters = .error e := by
  induction letters generalizing s done cur w ws with
  | nil =>
    obtain ⟨rfl, rfl⟩ := cons.inj (hwords.symm.trans (show wordsOf [] = [[]] from rfl))
    rw [append_nil]
    exact h.lastWord hdone
  | cons c letters ih =>
    unfold tokenize
    obtain ⟨w', ws', hwords'⟩ := exists_wordsOf letters
    by_cases hblank : c = ' '
    · -- a word ends, and the next one is empty so far
      subst hblank
      rw [wordsOf_blank, hwords'] at hwords
      obtain ⟨rfl, rfl⟩ := cons.inj hwords
      rw [if_pos rfl, append_nil]
      have hend := h.endWord
      by_cases hfit : cur.length < 50 ∧ done.length < 20
      · rw [if_pos hfit] at hend
        obtain ⟨s', hs', hfilled⟩ := hend
        have hdone' : ∀ v ∈ done ++ [cur], v.length < 50 :=
          ((fits_concat hdone).mpr hfit).2
        have hrest := ih hfilled hdone' hwords'
        rw [nil_append, append_assoc, singleton_append] at hrest
        simp only [hs', bind, Except.bind]
        exact hrest
      · rw [if_neg hfit] at hend
        obtain ⟨e, he⟩ := hend
        have hnot : ¬ Fits (done ++ cur :: w' :: ws') := by
          rintro ⟨hlen, hall⟩
          refine hfit ⟨hall cur (by simp), ?_⟩
          rw [length_append, length_cons] at hlen
          omega
        rw [if_neg hnot, he]
        exact ⟨e, rfl⟩
    · rw [if_neg hblank]
      by_cases hstop : c = '\n' ∨ c = nul
      · rw [wordsOf_stop hstop] at hwords
        obtain ⟨rfl, rfl⟩ := cons.inj hwords
        rw [if_pos hstop, append_nil]
        exact h.lastWord hdone
      · -- one more letter
        rw [wordsOf_letter hblank hstop, hwords', modifyHead_cons] at hwords
        obtain ⟨rfl, rfl⟩ := cons.inj hwords
        rw [if_neg hstop]
        have hpush := h.push (fun e => hstop (.inr e))
        by_cases hlen : cur.length < 50
        · rw [if_pos hlen] at hpush
          obtain ⟨s', hs', hfilled⟩ := hpush
          have hrest := ih hfilled hdone hwords'
          rw [append_assoc, singleton_append] at hrest
          simp only [hs', bind, Except.bind]
          exact hrest
        · rw [if_neg hlen] at hpush
          obtain ⟨e, he⟩ := hpush
          have hnot : ¬ Fits (done ++ (cur ++ c :: w') :: ws') := by
            rintro ⟨-, hall⟩
            have hword := hall (cur ++ c :: w') (by simp)
            rw [length_append] at hword
            omega
          rw [if_neg hnot, he]
          exact ⟨e, rfl⟩

/-! ### The tokenizer -/

/-- The tokens joined with single blanks are the line up to its first newline or zero byte. -/
theorem intercalate_wordsOf (letters : List Char) :
    [' '].intercalate (wordsOf letters) = content letters :=
  intercalate_splitOn ' '

/-- What a call of `readLine` should do: no write leaves its array, the tokens point to rows whose
strings, joined with single blanks, are the line up to its first newline or zero byte, and a null
pointer ends them. -/
def Tokenizes (letters : List Char) (r : Except Overflow State) : Prop :=
  ∃ s, r = .ok s ∧ (∀ k, k < s.totalwords → s.tokens k = .row k) ∧
    [' '].intercalate ((range s.totalwords).map s.text) = content letters ∧
    s.tokens s.totalwords = .null

/-- **When the tokenizer is safe.** On what `takeinput` delivers, `readLine` does what it should if
and only if the line has at most 20 words, each of fewer than 50 letters, and `malloc` happened to
return a null pointer behind the last token. -/
theorem readLine_safe_iff (tok : ℕ → Char) (temp : ℕ → ℕ → Char) (malloced : ℕ → Ptr)
    (input : List Char) :
    Tokenizes (takeinput input) (readLine tok temp malloced (takeinput input)) ↔
      (wordsOf (takeinput input)).length ≤ 20 ∧ (∀ w ∈ wordsOf (takeinput input), w.length < 50) ∧
        malloced (wordsOf (takeinput input)).length = .null := by
  have hinput : ((takeinput input).takeWhile (· ≠ nul)).length < INPUTSIZE := by
    have hlen := takeinput_length input
    have hle := (List.takeWhile_prefix (· ≠ nul) (l := takeinput input)).length_le
    show _ < 500
    omega
  generalize takeinput input = letters at hinput ⊢
  obtain ⟨w, ws, hwords⟩ := exists_wordsOf letters
  have hspec := tokenize_spec (Filled.start tok temp malloced) (fun _ hv => absurd hv not_mem_nil)
    hwords
  rw [nil_append, nil_append, ← hwords] at hspec
  unfold readLine
  rw [if_pos hinput]
  by_cases hfits : Fits (wordsOf letters)
  · rw [if_pos hfits] at hspec
    obtain ⟨s, hs, hfilled⟩ := hspec
    have htext : (range s.totalwords).map s.text = wordsOf letters := by
      rw [hfilled.totalwords]
      refine ext_getElem (by simp) fun k hk hk' => ?_
      rw [getElem_map, getElem_range]
      exact hfilled.text k hk'
    have hend : s.tokens s.totalwords = malloced (wordsOf letters).length := by
      rw [hfilled.totalwords]
      exact hfilled.rest _ (Nat.le_refl _)
    constructor
    · rintro ⟨s', hs', -, -, hnull⟩
      obtain rfl := Except.ok.inj (hs.symm.trans hs')
      exact ⟨hfits.1, hfits.2, hend ▸ hnull⟩
    · rintro ⟨-, -, hnull⟩
      refine ⟨s, hs, fun k hk => hfilled.row k (hfilled.totalwords ▸ hk), ?_, hend.trans hnull⟩
      rw [htext]
      exact intercalate_wordsOf letters
  · rw [if_neg hfits] at hspec
    obtain ⟨e, he⟩ := hspec
    constructor
    · rintro ⟨s, hs, -⟩
      rw [he] at hs
      cases hs
    · rintro ⟨hlen, hall, -⟩
      exact absurd ⟨hlen, hall⟩ hfits

/-- The array that the call has written beyond, if any. -/
def overflow : Except Overflow State → Option Overflow
  | .ok _ => none
  | .error e => some e

/-- A word of 50 letters is written beyond the end of `tok`, a line of 21 words beyond the last row
of `temp`, and with memory that was in use before, the tokens of the line `a` do not end in a null
pointer. -/
theorem readLine_unsafe :
    overflow (readLine (fun _ => 'x') (fun _ _ => 'x') (fun _ => .null)
        (takeinput (replicate 50 'a'))) = some .tok ∧
      overflow (readLine (fun _ => 'x') (fun _ _ => 'x') (fun _ => .null)
        (takeinput (replicate 20 ' '))) = some .temp ∧
      ∃ s, readLine (fun _ => 'x') (fun _ _ => 'x') (fun _ => .wild 7)
        (takeinput ['a', '\n']) = .ok s ∧ s.totalwords = 1 ∧ s.tokens 1 = .wild 7 :=
  ⟨by decide +kernel, by decide +kernel, _, rfl, rfl, rfl⟩

end Xv6.ShellTokens
