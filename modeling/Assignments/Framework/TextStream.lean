import Assignments.Framework.Basic

/-!
# Formatted text streams

The part of C++ formatted input and output that plain text files use, over byte lists. A stream
being read is the list of its remaining bytes; an extraction either fails, or gives a value and
what remains. Formatted extraction skips white space first, and an extraction at the end of the
stream fails, so the error flags of a stream need not be kept apart from its bytes.

* `decimal` is what `out << n` writes for an integer;
* `readWord` is `in >> s` for a string: it stops at the next white space, so a string with white
  space does not come back (`readWord_noSpace`), and one without does (`readWord_append`);
* `words` are the words of a text, and `readWord` takes the first of them (`words_of_readWord`);
* `readInt` is `in >> n` for an integer of 32 bits, and reads back what `decimal` wrote
  (`readInt_decimal`).
-/

namespace Framework

open List

namespace Text

abbrev Byte : Type := Fin 256

/-! ### Character classes -/

/-- White space of the C locale: blank, and tab to carriage return. -/
def isSpace (b : Byte) : Bool := b = 32 || (9 ≤ b.val && b.val ≤ 13)

def isDigit (b : Byte) : Bool := 48 ≤ b.val && b.val ≤ 57

def minus : Byte := 45

def plus : Byte := 43

def newline : Byte := 10

/-- The byte of a decimal digit. -/
def digit (n : ℕ) : Byte := Fin.ofNat 256 (48 + n % 10)

/-! ### Output -/

/-- The decimal digits of `n`; `fuel` bounds their number. -/
def digitsFuel : ℕ → ℕ → List Byte
  | 0, n => [digit n]
  | fuel + 1, n => if n < 10 then [digit n] else digitsFuel fuel (n / 10) ++ [digit n]

/-- `out << n` for an `n` without sign. -/
def decimalNat (n : ℕ) : List Byte := digitsFuel n n

/-- `out << n` for an integer. -/
def decimal (n : ℤ) : List Byte :=
  if n < 0 then minus :: decimalNat n.natAbs else decimalNat n.natAbs

/-! ### Input -/

/-- `in >> s` for a string. -/
def readWord (text : List Byte) : Option (List Byte × List Byte) :=
  let rest := text.dropWhile isSpace
  let word := rest.takeWhile fun b => !isSpace b
  if word = [] then none else some (word, rest.dropWhile fun b => !isSpace b)

/-- The value of a string of digits. -/
def value (digits : List Byte) : ℕ := digits.foldl (fun acc b => 10 * acc + (b.val - 48)) 0

/-- The sign in front of a number, and what follows it. -/
def readSign : List Byte → ℤ × List Byte
  | [] => (1, [])
  | b :: rest => if b = minus then (-1, rest) else if b = plus then (1, rest) else (1, b :: rest)

/-- `in >> n` for a 32-bit integer: it fails without a digit, and on a number out of range. -/
def readInt (text : List Byte) : Option (ℤ × List Byte) :=
  let r := readSign (text.dropWhile isSpace)
  let digits := r.2.takeWhile isDigit
  let n := r.1 * value digits
  if digits ≠ [] ∧ -2 ^ 31 ≤ n ∧ n < 2 ^ 31 then some (n, r.2.dropWhile isDigit) else none

/-! ### What the extractions give -/

variable {text rest word : List Byte}

/-- A word that was read has no white space. -/
theorem readWord_noSpace (h : readWord text = some (word, rest)) :
    word ≠ [] ∧ ∀ b ∈ word, isSpace b = false := by
  unfold readWord at h
  simp only at h
  split_ifs at h with hne
  obtain ⟨rfl, -⟩ := Prod.mk.inj (Option.some.inj h)
  exact ⟨hne, fun b hb => by simpa using mem_takeWhile_imp hb⟩

/-- A number that was read fits into 32 bits. -/
theorem readInt_range {n : ℤ} (h : readInt text = some (n, rest)) : -2 ^ 31 ≤ n ∧ n < 2 ^ 31 := by
  unfold readInt at h
  simp only at h
  split_ifs at h with hrange
  obtain ⟨rfl, -⟩ := Prod.mk.inj (Option.some.inj h)
  exact hrange.2

private theorem dropWhile_length_le (p : Byte → Bool) (l : List Byte) :
    (l.dropWhile p).length ≤ l.length :=
  (dropWhile_suffix p).length_le

/-- Reading a word consumes it. -/
theorem readWord_length (h : readWord text = some (word, rest)) :
    rest.length + 1 ≤ text.length := by
  unfold readWord at h
  simp only at h
  split_ifs at h with hne
  obtain ⟨hword, rfl⟩ := Prod.mk.inj (Option.some.inj h)
  have hsplit := congrArg length (takeWhile_append_dropWhile
    (p := fun b => !isSpace b) (l := text.dropWhile isSpace))
  rw [length_append] at hsplit
  have hpos := length_pos_iff.mpr hne
  have hle := dropWhile_length_le isSpace text
  omega

theorem readSign_cons (b : Byte) (l : List Byte) : readSign (b :: l) =
    if b = minus then (-1, l) else if b = plus then (1, l) else (1, b :: l) := rfl

theorem readSign_length (l : List Byte) : (readSign l).2.length ≤ l.length := by
  cases l with
  | nil => exact le_refl _
  | cons b l =>
    rw [readSign_cons]
    split_ifs
    · exact Nat.le_succ _
    · exact Nat.le_succ _
    · exact le_refl _

theorem readInt_length {n : ℤ} (h : readInt text = some (n, rest)) :
    rest.length + 1 ≤ text.length := by
  unfold readInt at h
  simp only at h
  split_ifs at h with hne
  obtain ⟨-, rfl⟩ := Prod.mk.inj (Option.some.inj h)
  have hsplit := congrArg length (takeWhile_append_dropWhile (p := isDigit)
    (l := (readSign (text.dropWhile isSpace)).2))
  rw [length_append] at hsplit
  have hpos := length_pos_iff.mpr hne.1
  have h₁ := readSign_length (text.dropWhile isSpace)
  have h₂ := dropWhile_length_le isSpace text
  omega

/-- White space in front of a word is skipped. -/
theorem readWord_skip {b : Byte} (hb : isSpace b = true) :
    readWord (b :: text) = readWord text := by
  unfold readWord
  rw [dropWhile_cons_of_pos hb]

/-- White space in front of a number is skipped. -/
theorem readInt_skip {b : Byte} (hb : isSpace b = true) : readInt (b :: text) = readInt text := by
  unfold readInt
  rw [dropWhile_cons_of_pos hb]

/-! ### Round trips -/

/-- A word in front of a white space reads back. -/
theorem readWord_append (hne : word ≠ []) (hword : ∀ b ∈ word, isSpace b = false) {b : Byte}
    (hb : isSpace b = true) : readWord (word ++ b :: rest) = some (word, b :: rest) := by
  -- there is nothing to skip in front of the word
  have hskip : (word ++ b :: rest).dropWhile isSpace = word ++ b :: rest := by
    obtain ⟨a, w, rfl⟩ := exists_cons_of_ne_nil hne
    rw [cons_append, dropWhile_cons_of_neg]
    rw [hword a mem_cons_self]
    simp
  have hkeep : ∀ a ∈ word, (!isSpace a) = true := fun a ha => by rw [hword a ha]; rfl
  unfold readWord
  simp only [hskip]
  rw [takeWhile_append_of_pos hkeep, dropWhile_append_of_pos hkeep]
  simp [hb, hne]

/-! ### The words of a text -/

/-- The words of a text: its longest pieces without white space. -/
def words (text : List Byte) : List (List Byte) := (text.splitOnP isSpace).filter (· ≠ [])

theorem words_skip {b : Byte} (hb : isSpace b = true) (text : List Byte) :
    words (b :: text) = words text := by
  unfold words
  rw [splitOnP_cons_eq_if_modifyHead, if_pos hb, filter_cons_of_neg (by simp)]

theorem words_dropWhile (text : List Byte) : words (text.dropWhile isSpace) = words text := by
  induction text with
  | nil => rfl
  | cons b text ih =>
    rw [dropWhile_cons]
    split_ifs with hb
    · rw [ih, words_skip hb]
    · rfl

/-- A word in front of a white space or of the end. -/
theorem words_append (hne : word ≠ []) (hword : ∀ b ∈ word, isSpace b = false)
    (hrest : ∀ b ∈ rest.head?, isSpace b = true) : words (word ++ rest) = word :: words rest := by
  cases rest with
  | nil =>
    unfold words
    rw [append_nil, splitOnP_eq_singleton hword, filter_cons_of_pos (by simpa using hne)]
    rfl
  | cons b rest =>
    have hb : isSpace b = true := hrest b rfl
    rw [words_skip hb]
    unfold words
    rw [splitOnP_append_cons _ _ hb, splitOnP_eq_singleton hword, singleton_append,
      filter_cons_of_pos (by simpa using hne)]

/-- **Reading a word** takes the first word of the text. -/
theorem words_of_readWord (h : readWord text = some (word, rest)) :
    words text = word :: words rest := by
  obtain ⟨hne, hword⟩ := readWord_noSpace h
  unfold readWord at h
  simp only at h
  split_ifs at h
  obtain ⟨rfl, rfl⟩ := Prod.mk.inj (Option.some.inj h)
  rw [← words_dropWhile text]
  nth_rewrite 1 [← takeWhile_append_dropWhile (p := fun b => !isSpace b)
    (l := text.dropWhile isSpace)]
  refine words_append hne hword fun b hb => ?_
  have := head?_dropWhile_not (fun b => !isSpace b) (text.dropWhile isSpace)
  rw [Option.mem_def.mp hb] at this
  simpa using this

/-- No word is read from a text without words. -/
theorem words_of_readWord_none (h : readWord text = none) : words text = [] := by
  unfold readWord at h
  simp only at h
  split_ifs at h with hnil
  rw [← words_dropWhile text]
  cases hd : text.dropWhile isSpace with
  | nil => rfl
  | cons b rest =>
    -- the first byte left is no white space
    have hb := head?_dropWhile_not isSpace text
    rw [hd] at hb hnil
    rw [takeWhile_cons_of_pos (by simpa using hb)] at hnil
    exact absurd hnil (cons_ne_nil _ _)

theorem digit_val (n : ℕ) : (digit n).val = 48 + n % 10 := by
  unfold digit
  rw [Fin.val_ofNat]
  omega

theorem digitsFuel_isDigit (fuel n : ℕ) : ∀ b ∈ digitsFuel fuel n, isDigit b = true := by
  have hdigit : ∀ n, isDigit (digit n) = true := by
    intro n
    unfold isDigit
    rw [digit_val]
    simp only [Bool.and_eq_true, decide_eq_true_eq]
    omega
  induction fuel generalizing n with
  | zero => simp [digitsFuel, hdigit]
  | succ fuel ih =>
    intro b hb
    unfold digitsFuel at hb
    split_ifs at hb
    · rw [mem_singleton] at hb
      rw [hb, hdigit]
    · rcases mem_append.mp hb with hb | hb
      · exact ih _ b hb
      · rw [mem_singleton] at hb
        rw [hb, hdigit]

theorem digitsFuel_ne_nil (fuel n : ℕ) : digitsFuel fuel n ≠ [] := by
  cases fuel with
  | zero => simp [digitsFuel]
  | succ fuel =>
    unfold digitsFuel
    split_ifs <;> simp

/-- With enough fuel the digits have the value they are printed for. -/
theorem value_digitsFuel {fuel n : ℕ} (h : n < 10 * (fuel + 1)) :
    value (digitsFuel fuel n) = n := by
  have hone : ∀ n, n < 10 → value [digit n] = n := by
    intro n hn
    show 10 * 0 + ((digit n).val - 48) = n
    rw [digit_val]
    omega
  induction fuel generalizing n with
  | zero => exact hone n (by omega)
  | succ fuel ih =>
    unfold digitsFuel
    split_ifs with hn
    · exact hone n hn
    · -- the last digit is added to ten times the value of the others
      have hrest : value (digitsFuel fuel (n / 10)) = n / 10 := ih (by omega)
      unfold value at hrest ⊢
      rw [foldl_append, hrest]
      show 10 * (n / 10) + ((digit n).val - 48) = n
      rw [digit_val]
      omega

theorem isSpace_of_isDigit {b : Byte} (h : isDigit b = true) : isSpace b = false := by
  unfold isDigit at h
  unfold isSpace
  simp only [Bool.and_eq_true, decide_eq_true_eq] at h
  simp only [Bool.or_eq_false_iff, decide_eq_false_iff_not, Bool.and_eq_false_iff]
  refine ⟨fun hb => ?_, by omega⟩
  rw [hb] at h
  exact absurd h (by decide)

/-- What `decimal` writes starts with a byte that is no white space. -/
theorem dropWhile_decimal (n : ℤ) (rest : List Byte) :
    (decimal n ++ rest).dropWhile isSpace = decimal n ++ rest := by
  have hhead : ∀ b l, decimal n = b :: l → isSpace b = false := by
    intro b l hbl
    unfold decimal decimalNat at hbl
    split_ifs at hbl
    · rw [← (cons.inj hbl).1]; rfl
    · exact isSpace_of_isDigit (digitsFuel_isDigit _ _ b (by rw [hbl]; exact mem_cons_self))
  cases hd : decimal n with
  | nil =>
    unfold decimal decimalNat at hd
    split_ifs at hd
    exact absurd hd (digitsFuel_ne_nil _ _)
  | cons b l =>
    rw [cons_append, dropWhile_cons_of_neg]
    rw [hhead b l hd]
    simp

/-- The sign of a printed number reads back, and its digits remain. -/
theorem readSign_decimal (n : ℤ) (rest : List Byte) :
    readSign (decimal n ++ rest) = (if n < 0 then -1 else 1, decimalNat n.natAbs ++ rest) := by
  unfold decimal
  split_ifs with hn
  · rfl
  · -- the first byte is a digit, so it is no sign
    obtain ⟨b, l, hbl⟩ := exists_cons_of_ne_nil (digitsFuel_ne_nil n.natAbs n.natAbs)
    have hdig := digitsFuel_isDigit n.natAbs n.natAbs b (by rw [hbl]; exact mem_cons_self)
    have hminus : b ≠ minus := by rintro rfl; exact absurd hdig (by decide)
    have hplus : b ≠ plus := by rintro rfl; exact absurd hdig (by decide)
    unfold decimalNat
    rw [hbl, cons_append, readSign_cons, if_neg hminus, if_neg hplus]

/-- **A printed number reads back**, up to a byte that is no digit. -/
theorem readInt_decimal {n : ℤ} (h₁ : -2 ^ 31 ≤ n) (h₂ : n < 2 ^ 31) {b : Byte}
    (hb : isDigit b = false) : readInt (decimal n ++ b :: rest) = some (n, b :: rest) := by
  have hdig := digitsFuel_isDigit n.natAbs n.natAbs
  have hval : value (digitsFuel n.natAbs n.natAbs) = n.natAbs := value_digitsFuel (by omega)
  have htake : (decimalNat n.natAbs ++ b :: rest).takeWhile isDigit = decimalNat n.natAbs := by
    unfold decimalNat
    rw [takeWhile_append_of_pos hdig]
    simp [hb]
  have hdrop : (decimalNat n.natAbs ++ b :: rest).dropWhile isDigit = b :: rest := by
    unfold decimalNat
    rw [dropWhile_append_of_pos hdig]
    simp [hb]
  have hsigned : (if n < 0 then -1 else 1) * ((value (decimalNat n.natAbs) : ℕ) : ℤ) = n := by
    unfold decimalNat
    rw [hval]
    split_ifs <;> omega
  unfold readInt
  simp only [dropWhile_decimal, readSign_decimal, htake, hdrop, hsigned]
  exact if_pos ⟨digitsFuel_ne_nil _ _, h₁, h₂⟩

end Text

end Framework
