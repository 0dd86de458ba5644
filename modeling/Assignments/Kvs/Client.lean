import Assignments.Framework.TextStream
import Assignments.Kvs.Bytes

/-!
# The batch mode of the client

The loop of `main` in `greeter_async_client.cc` that reads a batch file: it takes a word, and if
this is the name of a command it takes the arguments and sends the request. Only the extraction of
the command is tested. An extraction at the end of the file leaves its variable as it is, and the
variables `key` and `value` are those of the commands before, or empty.

* `commands` — what a batch file asks for: its complete commands, in order;
* `batch_eq_sent` — what the client sends, from the words of the file;
* `batch_eq_commands_iff` — the two agree exactly when no command is cut off by the end of the file.
-/

namespace Kvs

open Framework

namespace Client

/-- A request to the server. -/
inductive Request where
  | get (key : Bytes)
  | put (key value : Bytes)
  | del (key : Bytes)
  deriving DecidableEq, Repr

/-- The names of the commands. -/
def GET : Bytes := ascii ['G', 'E', 'T']

def PUT : Bytes := ascii ['P', 'U', 'T']

def DEL : Bytes := ascii ['D', 'E', 'L']

/-! ### The loop -/

/-- `infile >> s` where `s` holds `old`: the new value of `s` and what remains of the file. -/
def extract (infile old : Bytes) : Bytes × Bytes :=
  match Text.readWord infile with
  | some (word, rest) => (word, rest)
  | none => (old, [])

/-- The loop `while (infile >> function)`: the requests it sends. The fuel bounds the number of
rounds. -/
def batchLoop : ℕ → Bytes → Bytes → Bytes → List Request
  | 0, _, _, _ => []
  | fuel + 1, infile, key, value =>
    match Text.readWord infile with
    | none => []
    | some (function, infile) =>
      if function = GET then
        let (key, infile) := extract infile key
        .get key :: batchLoop fuel infile key value
      else if function = PUT then
        let (key, infile) := extract infile key
        let (value, infile) := extract infile value
        .put key value :: batchLoop fuel infile key value
      else if function = DEL then
        let (key, infile) := extract infile key
        .del key :: batchLoop fuel infile key value
      else batchLoop fuel infile key value

/-- The requests that the client sends for a batch file: `key` and `value` are empty strings at
first, and each round takes a byte of the file at least. -/
def batch (infile : Bytes) : List Request := batchLoop infile.length infile [] []

/-! ### The commands of a file -/

/-- The complete commands in a list of words. -/
def commands : List Bytes → List Request
  | [] => []
  | function :: words =>
    if function = GET then
      match words with
      | key :: words => .get key :: commands words
      | [] => []
    else if function = PUT then
      match words with
      | key :: value :: words => .put key value :: commands words
      | _ => []
    else if function = DEL then
      match words with
      | key :: words => .del key :: commands words
      | [] => []
    else commands words

/-- The last command of the list lacks an argument. -/
def truncated : List Bytes → Bool
  | [] => false
  | function :: words =>
    if function = GET then
      match words with
      | _ :: words => truncated words
      | [] => true
    else if function = PUT then
      match words with
      | _ :: _ :: words => truncated words
      | _ => true
    else if function = DEL then
      match words with
      | _ :: words => truncated words
      | [] => true
    else truncated words

/-! ### What the loop sends -/

/-- The requests that the loop sends, from the words of the file: a command without its arguments
is sent with the values that the variables have. -/
def sent : List Bytes → Bytes → Bytes → List Request
  | [], _, _ => []
  | function :: words, key, value =>
    if function = GET then
      match words with
      | key :: words => .get key :: sent words key value
      | [] => [.get key]
    else if function = PUT then
      match words with
      | key :: value :: words => .put key value :: sent words key value
      | [key] => [.put key value]
      | [] => [.put key value]
    else if function = DEL then
      match words with
      | key :: words => .del key :: sent words key value
      | [] => [.del key]
    else sent words key value

variable {infile rest word key value : Bytes}

/-- Nothing is sent at the end of the file. -/
theorem batchLoop_nil (fuel : ℕ) (key value : Bytes) : batchLoop fuel [] key value = [] := by
  cases fuel with
  | zero => rfl
  | succ fuel => rfl

theorem extract_some (old : Bytes) (h : Text.readWord infile = some (word, rest)) :
    extract infile old = (word, rest) := by
  unfold extract
  rw [h]

theorem extract_none (old : Bytes) (h : Text.readWord infile = none) :
    extract infile old = (old, []) := by
  unfold extract
  rw [h]

/-- **The loop over words.** With fuel for each byte of the file, the loop sends what `sent`
says. -/
theorem batchLoop_eq_sent {fuel : ℕ} (hfuel : infile.length ≤ fuel) (key value : Bytes) :
    batchLoop fuel infile key value = sent (Text.words infile) key value := by
  induction fuel generalizing infile key value with
  | zero =>
    obtain rfl := List.length_eq_zero_iff.mp (Nat.le_zero.mp hfuel)
    rfl
  | succ fuel ih =>
    unfold batchLoop
    cases hf : Text.readWord infile with
    | none =>
      rw [Text.words_of_readWord_none hf]
      rfl
    | some r =>
    obtain ⟨function, infile₁⟩ := r
    have hlen := Text.readWord_length hf
    rw [Text.words_of_readWord hf, sent.eq_def]
    dsimp only
    -- a command with one argument, whatever is done with it
    have hone : ∀ (make : Bytes → Request),
        (make (extract infile₁ key).1 ::
            batchLoop fuel (extract infile₁ key).2 (extract infile₁ key).1 value) =
          match Text.words infile₁ with
          | key :: words => make key :: sent words key value
          | [] => [make key] := by
      intro make
      cases hk : Text.readWord infile₁ with
      | none =>
        rw [extract_none key hk, Text.words_of_readWord_none hk, batchLoop_nil]
      | some r =>
        obtain ⟨word, infile₂⟩ := r
        have hlen' := Text.readWord_length hk
        have hrest : infile₂.length ≤ fuel := by omega
        rw [extract_some key hk, Text.words_of_readWord hk]
        exact congrArg (make word :: ·) (ih hrest word value)
    split_ifs with hget hput hdel
    · exact hone Request.get
    · cases hk : Text.readWord infile₁ with
      | none =>
        rw [extract_none key hk, Text.words_of_readWord_none hk, extract_none value rfl,
          batchLoop_nil]
      | some r =>
        obtain ⟨word, infile₂⟩ := r
        have hlen₁ := Text.readWord_length hk
        rw [extract_some key hk, Text.words_of_readWord hk]
        dsimp only
        cases hv : Text.readWord infile₂ with
        | none =>
          rw [extract_none value hv, Text.words_of_readWord_none hv, batchLoop_nil]
        | some r =>
          obtain ⟨word', infile₃⟩ := r
          have hlen₂ := Text.readWord_length hv
          have hrest : infile₃.length ≤ fuel := by omega
          rw [extract_some value hv, Text.words_of_readWord hv]
          exact congrArg (.put word word' :: ·) (ih hrest word word')
    · exact hone Request.del
    · exact ih (by omega) key value

theorem batch_eq_sent (infile : Bytes) : batch infile = sent (Text.words infile) [] [] :=
  batchLoop_eq_sent le_rfl [] []

/-! ### The client against the file -/

section Skip

variable {function : Bytes} {words : List Bytes}

theorem commands_skip (hget : function ≠ GET) (hput : function ≠ PUT) (hdel : function ≠ DEL) :
    commands (function :: words) = commands words := by
  rw [commands.eq_def]
  simp only [if_neg hget, if_neg hput, if_neg hdel]

theorem truncated_skip (hget : function ≠ GET) (hput : function ≠ PUT) (hdel : function ≠ DEL) :
    truncated (function :: words) = truncated words := by
  rw [truncated.eq_def]
  simp only [if_neg hget, if_neg hput, if_neg hdel]

end Skip

/-- What is sent besides the complete commands: the truncated command, if there is one. -/
theorem sent_spec (ws : List Bytes) (key value : Bytes) :
    ∃ extra, sent ws key value = commands ws ++ extra ∧
      extra.length = if truncated ws then 1 else 0 := by
  -- the induction follows the words: after a complete command the rest is by hypothesis, and a
  -- truncated command is the last
  fun_induction sent ws key value with
  | case1 => exact ⟨[], rfl, rfl⟩
  | case2 _ value key words ih =>
    obtain ⟨extra, hsent, hlen⟩ := ih
    refine ⟨extra, ?_, ?_⟩
    · rw [commands.eq_def]
      exact congrArg (.get key :: ·) hsent
    · rw [truncated.eq_def]
      exact hlen
  | case3 key => exact ⟨[.get key], rfl, rfl⟩
  | case4 _ _ key value words _ ih =>
    obtain ⟨extra, hsent, hlen⟩ := ih
    refine ⟨extra, ?_, ?_⟩
    · rw [commands.eq_def]
      exact congrArg (.put key value :: ·) hsent
    · rw [truncated.eq_def]
      exact hlen
  | case5 _ value key => exact ⟨[.put key value], rfl, rfl⟩
  | case6 key value => exact ⟨[.put key value], rfl, rfl⟩
  | case7 _ value key words _ _ ih =>
    obtain ⟨extra, hsent, hlen⟩ := ih
    refine ⟨extra, ?_, ?_⟩
    · rw [commands.eq_def]
      exact congrArg (.del key :: ·) hsent
    · rw [truncated.eq_def]
      exact hlen
  | case8 key => exact ⟨[.del key], rfl, rfl⟩
  | case9 function words key value hget hput hdel ih =>
    rw [commands_skip hget hput hdel, truncated_skip hget hput hdel]
    exact ih

/-- **The batch mode sends the commands of the file**, in order and with their own arguments, if and
only if the file does not end inside a command. -/
theorem batch_eq_commands_iff (infile : Bytes) :
    batch infile = commands (Text.words infile) ↔ truncated (Text.words infile) = false := by
  obtain ⟨extra, hsent, hlen⟩ := sent_spec (Text.words infile) [] []
  rw [batch_eq_sent, hsent, List.append_right_eq_self, ← List.length_eq_zero_iff, hlen]
  cases truncated (Text.words infile) <;> simp

/-- A file that ends in `GET` asks for the key of the put before. -/
theorem batch_sends_stale_key :
    batch (ascii ['P', 'U', 'T', ' ', 'a', ' ', '1', '\n', 'G', 'E', 'T']) =
        [.put (ascii ['a']) (ascii ['1']), .get (ascii ['a'])] ∧
      commands (Text.words (ascii ['P', 'U', 'T', ' ', 'a', ' ', '1', '\n', 'G', 'E', 'T'])) =
        [.put (ascii ['a']) (ascii ['1'])] := by
  decide

end Client

end Kvs
