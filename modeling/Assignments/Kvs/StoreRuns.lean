import Assignments.Kvs.Store

/-!
# Whole runs of the file store

The file store against what it is for: a map from keys to values. The reference is read off the
calls alone (`live`): a key is live when it was put and not deleted since, its value is the one put
last, and its record has the number of puts into the same bucket before that put.

`Tracks` ties the store to the calls made so far. It holds after any calls, with `fileoffsets` and
the numbers in `filelocationmap` reduced to an `int`. From it:

* `store_refines` — while the fields are shorter than 256 bytes and no bucket has 2^22 records, the
  store is the reference map, up to the first blank or zero byte of a value;
* `valueindex_exact_iff` — the position that `getkey` seeks to is the position of the value exactly
  for the first 2^22 records of a bucket.
-/

namespace Kvs

open Framework Function List

namespace Store

/-! ### Calls -/

/-- A call of one of the three functions, with the memory that it reads besides its arguments. -/
inductive Op where
  | put (key value : Bytes) (memory : ℕ → Byte)
  | get (key stack : Bytes)
  | del (key : Bytes)

/-- The store after a call. -/
def step (s : Store) : Op → Store
  | .put key value memory => s.putkey key value memory
  | .get key stack => (s.getkey key stack).1
  | .del key => (s.deletekey key).1

/-- The store that the calls lead to from an empty one. -/
def after (ops : List Op) : Store := ops.foldl step empty

theorem after_concat (ops : List Op) (op : Op) : after (ops ++ [op]) = (after ops).step op := by
  unfold after
  rw [foldl_append]
  rfl

/-! ### The reference map -/

/-- The call writes a record into bucket `b`. -/
def Op.PutsIn (b : Fin totalfiles) : Op → Prop
  | .put key _ _ => bucket key = b
  | _ => False

instance (b : Fin totalfiles) : DecidablePred (Op.PutsIn b)
  | .put key _ _ => inferInstanceAs (Decidable (bucket key = b))
  | .get _ _ => .isFalse id
  | .del _ => .isFalse id

/-- The number of records that the calls write into bucket `b`. -/
def putsIn (b : Fin totalfiles) (ops : List Op) : ℕ := ops.countP (Op.PutsIn b)

/-- The value of a live key and the number of its record. -/
structure Entry where
  index : ℕ
  value : Bytes
  deriving DecidableEq, Repr

/-- `live` over the calls in reverse: the first call that puts or deletes the key decides. -/
def liveRev (key : Bytes) : List Op → Option Entry
  | [] => none
  | .put k value _ :: earlier =>
    if k = key then some ⟨putsIn (bucket key) earlier, value⟩ else liveRev key earlier
  | .del k :: earlier => if k = key then none else liveRev key earlier
  | .get _ _ :: earlier => liveRev key earlier

/-- The value put last for a key that was not deleted since, and the number of records its bucket
had before. -/
def live (ops : List Op) (key : Bytes) : Option Entry := liveRev key ops.reverse

variable {ops : List Op} {key : Bytes} {e : Entry}

theorem putsIn_concat (b : Fin totalfiles) (ops : List Op) (op : Op) :
    putsIn b (ops ++ [op]) = putsIn b ops + if op.PutsIn b then 1 else 0 := by
  unfold putsIn
  rw [countP_append, countP_singleton]
  simp only [decide_eq_true_eq]

theorem putsIn_put (b : Fin totalfiles) (ops : List Op) (k v : Bytes) (memory : ℕ → Byte) :
    putsIn b (ops ++ [.put k v memory]) = putsIn b ops + if bucket k = b then 1 else 0 := by
  rw [putsIn_concat]
  rfl

theorem putsIn_get (b : Fin totalfiles) (ops : List Op) (k stack : Bytes) :
    putsIn b (ops ++ [.get k stack]) = putsIn b ops := by
  rw [putsIn_concat]
  rfl

theorem putsIn_del (b : Fin totalfiles) (ops : List Op) (k : Bytes) :
    putsIn b (ops ++ [.del k]) = putsIn b ops := by
  rw [putsIn_concat]
  rfl

theorem putsIn_reverse (b : Fin totalfiles) (ops : List Op) : putsIn b ops.reverse = putsIn b ops :=
  countP_reverse

theorem live_put (ops : List Op) (k value : Bytes) (memory : ℕ → Byte) (key : Bytes) :
    live (ops ++ [.put k value memory]) key =
      if k = key then some ⟨putsIn (bucket key) ops, value⟩ else live ops key := by
  unfold live
  rw [reverse_append, reverse_singleton, singleton_append, liveRev, putsIn_reverse]

theorem live_get (ops : List Op) (k stack key : Bytes) :
    live (ops ++ [.get k stack]) key = live ops key := by
  unfold live
  rw [reverse_append, reverse_singleton, singleton_append, liveRev]

theorem live_del (ops : List Op) (k key : Bytes) :
    live (ops ++ [.del k]) key = if k = key then none else live ops key := by
  unfold live
  rw [reverse_append, reverse_singleton, singleton_append, liveRev]

/-- A live key has its value from a put. -/
theorem exists_put (he : live ops key = some e) : ∃ memory, .put key e.value memory ∈ ops := by
  induction ops using reverseRecOn with
  | nil => cases he
  | append_singleton ops op ih =>
    have hearlier : live ops key = some e → ∃ memory, .put key e.value memory ∈ ops ++ [op] :=
      fun h => (ih h).imp fun _ hmem => mem_append_left _ hmem
    cases op with
    | put k value memory =>
      rw [live_put] at he
      split_ifs at he with hk
      · subst hk
        obtain rfl := Option.some.inj he
        exact ⟨memory, mem_append_right _ (mem_singleton.mpr rfl)⟩
      · exact hearlier he
    | get k stack =>
      rw [live_get] at he
      exact hearlier he
    | del k =>
      rw [live_del] at he
      split_ifs at he
      exact hearlier he

/-! ### The invariant -/

/-- Record `n` of the bucket of `key` is in the file and is that of a put of `key` and `value`. -/
def HasRecord (s : Store) (key value : Bytes) (n : ℕ) : Prop :=
  512 * n + 512 ≤ (s.files (bucket key)).content.length ∧
    ∃ memory, (s.files (bucket key)).slice (512 * n) 512 = record key value memory

/-- The store after the calls `ops`. -/
structure Tracks (ops : List Op) (s : Store) : Prop where
  length : ∀ b, (s.files b).content.length = 512 * putsIn b ops
  offsets : ∀ b, s.fileoffsets b = int32 (putsIn b ops)
  index : ∀ key, s.filelocationmap.find? key = (live ops key).map fun e => int32 e.index
  records : ∀ key e, live ops key = some e → s.HasRecord key e.value e.index
  distinct : ∀ key key' e e', live ops key = some e → live ops key' = some e' →
    bucket key = bucket key' → e.index = e'.index → key = key'

variable {s s' : Store}

theorem Tracks.initial : Tracks [] empty where
  length _ := rfl
  offsets _ := (int32_of_range (show (-2 ^ 31 : ℤ) ≤ 0 by decide) (by decide)).symm
  index _ := rfl
  records _ _ h := nomatch h
  distinct _ _ _ _ h := nomatch h

/-- The record of a live key is one of those in the file. -/
theorem Tracks.index_lt (ht : Tracks ops s) (he : live ops key = some e) :
    e.index < putsIn (bucket key) ops := by
  obtain ⟨hle, -⟩ := ht.records key e he
  rw [ht.length] at hle
  omega

theorem HasRecord.sameData (hd : SameData s s') {value : Bytes} {n : ℕ}
    (h : s.HasRecord key value n) : s'.HasRecord key value n := by
  unfold HasRecord File.slice at h ⊢
  rw [hd.content]
  exact h

/-- An append keeps the records that were there. -/
theorem HasRecord.putkey {value : Bytes} {n : ℕ} (h : s.HasRecord key value n) (k v : Bytes)
    (memory : ℕ → Byte) : (s.putkey k v memory).HasRecord key value n := by
  obtain ⟨hle, memory', hslice⟩ := h
  unfold HasRecord Store.putkey
  dsimp only
  by_cases hb : bucket key = bucket k
  · rw [hb] at hle hslice ⊢
    rw [update_self, File.append_content, length_append]
    exact ⟨by omega, memory', by rw [File.slice_append_old hle]; exact hslice⟩
  · rw [update_of_ne hb]
    exact ⟨hle, memory', hslice⟩

/-- The record that a put writes. -/
theorem hasRecord_putkey (s : Store) (k v : Bytes) (memory : ℕ → Byte) {n : ℕ}
    (hn : (s.files (bucket k)).content.length = 512 * n) :
    (s.putkey k v memory).HasRecord k v n := by
  unfold HasRecord Store.putkey
  dsimp only
  rw [update_self]
  refine ⟨?_, memory, ?_⟩
  · rw [File.append_content, length_append, record_length, hn]
  · have hnew : ((s.files (bucket k)).append (record k v memory)).slice
        ((s.files (bucket k)).content.length + 0) 512 = ((record k v memory).drop 0).take 512 :=
      File.slice_append_new 0 512
    rw [Nat.add_zero, hn, drop_zero, take_of_length_le (record_length _ _ _).le] at hnew
    exact hnew

/-! ### One call -/

theorem Tracks.put (ht : Tracks ops s) (k v : Bytes) (memory : ℕ → Byte) :
    Tracks (ops ++ [.put k v memory]) (s.putkey k v memory) where
  length b := by
    rw [putsIn_put]
    by_cases hb : b = bucket k
    · subst hb
      rw [if_pos rfl]
      show (update s.files (bucket k) _ (bucket k)).content.length = _
      rw [update_self, File.append_content, length_append, record_length, ht.length]
      omega
    · rw [if_neg fun h => hb h.symm]
      show (update s.files (bucket k) _ b).content.length = _
      rw [update_of_ne hb, ht.length, Nat.add_zero]
  offsets b := by
    rw [putsIn_put]
    by_cases hb : b = bucket k
    · subst hb
      rw [if_pos rfl]
      show update s.fileoffsets (bucket k) _ (bucket k) = _
      rw [update_self, ht.offsets, int32_int32_add]
      push_cast
      rfl
    · rw [if_neg fun h => hb h.symm]
      show update s.fileoffsets (bucket k) _ b = _
      rw [update_of_ne hb, ht.offsets, Nat.add_zero]
  index j := by
    show (s.filelocationmap.insert k (s.fileoffsets (bucket k))).find? j = _
    rw [SortedMap.find?_insert, live_put]
    by_cases hj : j = k
    · subst hj
      rw [if_pos rfl, if_pos rfl, ht.offsets]
      rfl
    · rw [if_neg hj, if_neg fun h => hj h.symm]
      exact ht.index j
  records j e he := by
    rw [live_put] at he
    split_ifs at he with hj
    · subst hj
      obtain rfl := Option.some.inj he
      exact hasRecord_putkey s k v memory (ht.length _)
    · exact (ht.records j e he).putkey k v memory
  distinct j j' e e' he he' hb hi := by
    rw [live_put] at he he'
    -- the new record comes after those of the other live keys
    split_ifs at he he' with hj hj' hj'
    · exact hj.symm.trans hj'
    · subst hj
      obtain rfl := Option.some.inj he
      have hlt := ht.index_lt he'
      rw [← hb] at hlt
      exact absurd hi (by show putsIn (bucket k) ops ≠ e'.index; omega)
    · subst hj'
      obtain rfl := Option.some.inj he'
      have hlt := ht.index_lt he
      rw [hb] at hlt
      exact absurd hi (by show e.index ≠ putsIn (bucket k) ops; omega)
    · exact ht.distinct j j' e e' he he' hb hi

theorem Tracks.get (ht : Tracks ops s) (k stack : Bytes) :
    Tracks (ops ++ [.get k stack]) (s.getkey k stack).1 := by
  have hd := getkey_sameData s k stack
  refine ⟨fun b => ?_, fun b => ?_, fun j => ?_, fun j e he => ?_, fun j j' e e' he he' => ?_⟩
  · rw [hd.content, putsIn_get, ht.length]
  · rw [hd.fileoffsets, putsIn_get, ht.offsets]
  · rw [hd.filelocationmap, live_get, ht.index]
  · rw [live_get] at he
    exact (ht.records j e he).sameData hd
  · rw [live_get] at he he'
    exact ht.distinct j j' e e' he he'

/-- What `deletekey` does, whether the key was live or not. -/
theorem deletekey_spec (s : Store) (k : Bytes) :
    (s.deletekey k).1 = { s with filelocationmap := s.filelocationmap.erase k } ∧
      (s.deletekey k).2 = if s.filelocationmap.find? k = none then 0 else 1 := by
  unfold deletekey
  cases hk : s.filelocationmap.find? k with
  | some o => exact ⟨rfl, rfl⟩
  | none => exact ⟨by rw [SortedMap.erase_of_find?_none _ hk], rfl⟩

theorem Tracks.del (ht : Tracks ops s) (k : Bytes) :
    Tracks (ops ++ [.del k]) (s.deletekey k).1 := by
  rw [(deletekey_spec s k).1]
  have hlive : ∀ j e, live (ops ++ [.del k]) j = some e → live ops j = some e := by
    intro j e he
    rw [live_del] at he
    split_ifs at he
    exact he
  refine ⟨fun b => ?_, fun b => ?_, fun j => ?_, fun j e he => ht.records j e (hlive j e he),
    fun j j' e e' he he' => ht.distinct j j' e e' (hlive j e he) (hlive j' e' he')⟩
  · rw [putsIn_del]
    exact ht.length b
  · rw [putsIn_del]
    exact ht.offsets b
  · show (s.filelocationmap.erase k).find? j = _
    rw [SortedMap.find?_erase, live_del]
    by_cases hj : j = k
    · subst hj
      rw [if_pos rfl, if_pos rfl]
      rfl
    · rw [if_neg hj, if_neg fun h => hj h.symm]
      exact ht.index j

/-- **The store after any calls.** -/
theorem tracks_after (ops : List Op) : Tracks ops (after ops) := by
  induction ops using reverseRecOn with
  | nil => exact Tracks.initial
  | append_singleton ops op ih =>
    rw [after_concat]
    cases op with
    | put k v memory => exact ih.put k v memory
    | get k stack => exact ih.get k stack
    | del k => exact ih.del k

/-! ### The store as a map -/

/-- The part of a value that a `getkey` returns. -/
def visible (value : Bytes) : Bytes := value.takeWhile fun b => b ≠ blank ∧ b ≠ 0

/-- A padded value reads back up to its first blank or zero byte. -/
theorem decode_pad_visible {value : Bytes} (hv : value.length ≤ 255) (stack : Bytes) :
    decode (pad value) stack = visible value := by
  obtain ⟨n, hn⟩ : ∃ n, 256 - value.length = n + 1 := ⟨255 - value.length, by omega⟩
  have hpad : pad value = value ++ blank :: replicate n blank := by
    unfold pad
    rw [hn, replicate_succ]
  unfold decode trim cstring visible
  rw [hpad, append_assoc, cons_append, takeWhile_takeWhile]
  -- the padding stops the scan at the latest
  generalize replicate n blank ++ _ = rest
  clear hpad hn hv
  induction value with
  | nil => simp
  | cons b value ih =>
    rw [cons_append, takeWhile_cons, takeWhile_cons, ih]
    simp only [decide_eq_true_eq, ne_eq]

/-- **The file store is a map.** Any calls with fields shorter than 256 bytes and fewer than 2^22
puts into each bucket lead to a store in which `fileoffsets` counts the records of each file,
`filelocationmap` maps just the live keys, each to the last record written for it, no two keys of a
bucket share a record, `deletekey` tells the live keys and `getkey` returns their values. -/
theorem store_refines (ops : List Op)
    (hfields : ∀ key value memory, .put key value memory ∈ ops →
      key.length ≤ 255 ∧ value.length ≤ 255)
    (hputs : ∀ b, putsIn b ops < 2 ^ 22) :
    (∀ b, (after ops).fileoffsets b = putsIn b ops ∧
      ((after ops).files b).content.length = 512 * putsIn b ops) ∧
    (∀ key, (after ops).filelocationmap.find? key = (live ops key).map fun e => (e.index : ℤ)) ∧
    (∀ key e, live ops key = some e → e.index < putsIn (bucket key) ops ∧
      ((after ops).files (bucket key)).slice (512 * e.index) 512 = pad key ++ pad e.value) ∧
    (∀ key key' e e', live ops key = some e → live ops key' = some e' →
      bucket key = bucket key' → e.index = e'.index → key = key') ∧
    (∀ key, ((after ops).deletekey key).2 = if live ops key = none then 0 else 1) ∧
    ∀ key stack, ((after ops).getkey key stack).2 =
      match live ops key with
      | none => notFound
      | some e => visible e.value := by
  have ht := tracks_after ops
  -- the live entries come from puts of the run
  have hlive : ∀ key e, live ops key = some e → key.length ≤ 255 ∧ e.value.length ≤ 255 := by
    intro key e he
    obtain ⟨memory, hmem⟩ := exists_put he
    exact hfields key e.value memory hmem
  have hint : ∀ key e, live ops key = some e → int32 e.index = e.index := by
    intro key e he
    have h₁ := ht.index_lt he
    have h₂ := hputs (bucket key)
    exact int32_of_range (by omega) (by omega)
  have hindex : ∀ key, (after ops).filelocationmap.find? key =
      (live ops key).map fun e => (e.index : ℤ) := by
    intro key
    rw [ht.index key]
    cases he : live ops key with
    | none => rw [Option.map_none, Option.map_none]
    | some e => exact congrArg some (hint key e he)
  have hrecord : ∀ key e, live ops key = some e →
      ((after ops).files (bucket key)).slice (512 * e.index) 512 = pad key ++ pad e.value := by
    intro key e he
    obtain ⟨-, memory, hslice⟩ := ht.records key e he
    rw [hslice, record_eq (hlive key e he).1 (hlive key e he).2]
  refine ⟨fun b => ⟨?_, ht.length b⟩, hindex, fun key e he => ⟨ht.index_lt he, hrecord key e he⟩,
    ht.distinct, fun key => ?_, fun key stack => ?_⟩
  · rw [ht.offsets]
    have := hputs b
    exact int32_of_range (by omega) (by omega)
  · rw [(deletekey_spec _ key).2, hindex]
    simp only [Option.map_eq_none_iff]
  · cases he : live ops key with
    | none =>
      rw [getkey_absent]
      rw [hindex, he]
      rfl
    | some e =>
      have hlt := ht.index_lt he
      have hb := hputs (bucket key)
      have hfield : ((after ops).files (bucket key)).slice (512 * e.index + 256) 256 =
          pad e.value := by
        have hslice := congrArg (fun l => (l.drop 256).take 256) (hrecord key e he)
        unfold File.slice at hslice ⊢
        rw [drop_take, drop_drop, take_take] at hslice
        rw [show min 256 (512 - 256) = 256 from rfl] at hslice
        rw [hslice, drop_append_of_le_length (pad_length (by have := (hlive key e he).1; omega)).ge,
          drop_of_length_le (pad_length (by have := (hlive key e he).1; omega)).le, nil_append,
          take_of_length_le (pad_length (by have := (hlive key e he).2; omega)).le]
      rw [getkey_live (by rw [hindex, he]; rfl) (by omega), hfield,
        decode_pad_visible (hlive key e he).2]

/-- Puts, an overwrite and a delete in one bucket. -/
theorem store_refines_overwrite :
    ((after [.put [97] [49] fun _ => 0, .put [97] [50, 32, 51] fun _ => 0,
      .put [98] [52] fun _ => 0,
        .del [98]]).getkey [97] []).2 = [50] ∧
      ((after [.put [97] [49] fun _ => 0, .put [97] [50, 32, 51] fun _ => 0,
        .put [98] [52] fun _ => 0, .del [98]]).getkey [98] []).2 = notFound := by
  obtain ⟨-, -, -, -, -, hget⟩ := store_refines [.put [97] [49] fun _ => 0,
    .put [97] [50, 32, 51] fun _ => 0, .put [98] [52] fun _ => 0, .del [98]]
    (by
      intro key value memory hmem
      simp only [mem_cons, Op.put.injEq, not_mem_nil, or_false, reduceCtorEq] at hmem
      rcases hmem with ⟨rfl, rfl, -⟩ | ⟨rfl, rfl, -⟩ | ⟨rfl, rfl, -⟩ <;> decide)
    (by
      intro b
      exact countP_le_length.trans_lt (by decide))
  exact ⟨hget [97] [], hget [98] []⟩

/-! ### The seek position -/

/-- The seek position of a record, from the number of records before it. -/
theorem valueindex_int32 (n : ℕ) : valueindex (int32 n) = int32 (512 * n + 256) := by
  have hmul : int32 (int32 n * 512) = int32 (512 * n) := by
    rw [int32_int32_mul, Int.mul_comm]
  unfold valueindex
  rw [hmul, int32_int32_add]

/-- **Where the seek is exact.** After any calls, the position that `getkey` computes for each live
key is the exact position of its value if and only if each live key has fewer than 2^22 records
before its own. -/
theorem valueindex_exact_iff (ops : List Op) :
    (∀ key e offset, live ops key = some e →
      (after ops).filelocationmap.find? key = some offset →
        valueindex offset = 512 * e.index + 256) ↔
      ∀ key e, live ops key = some e → e.index < 2 ^ 22 := by
  have ht := tracks_after ops
  have hexact : ∀ n : ℕ, int32 (512 * n + 256) = 512 * n + 256 ↔ n < 2 ^ 22 := by
    intro n
    constructor
    · intro h
      have := (int32_range (512 * n + 256)).2
      omega
    · intro h
      exact int32_of_range (by omega) (by omega)
  constructor
  · intro h key e he
    have hfind : (after ops).filelocationmap.find? key = some (int32 e.index) := by
      rw [ht.index, he]
      rfl
    have hpos := h key e _ he hfind
    rw [valueindex_int32] at hpos
    exact (hexact e.index).mp hpos
  · intro h key e offset he hfind
    rw [ht.index, he] at hfind
    obtain rfl := Option.some.inj hfind
    rw [valueindex_int32]
    exact (hexact e.index).mpr (h key e he)

theorem putsIn_replicate (n : ℕ) (key value : Bytes) (memory : ℕ → Byte) :
    putsIn (bucket key) (replicate n (.put key value memory)) = n := by
  unfold putsIn
  have hputs : (Op.put key value memory).PutsIn (bucket key) := rfl
  rw [countP_replicate, if_pos (decide_eq_true hputs)]

/-- After 2^22 + 1 puts of one key its record is at byte 2^31, and the position of its value comes
out negative. -/
theorem valueindex_overflows :
    ∃ offset, (after (replicate (2 ^ 22 + 1) (.put [97] [49] fun _ => 0))).filelocationmap.find?
        [97] = some offset ∧
      live (replicate (2 ^ 22 + 1) (.put [97] [49] fun _ => 0)) [97] =
        some ⟨2 ^ 22, [49]⟩ ∧
      valueindex offset = 256 - 2 ^ 31 ∧ valueindex offset ≠ 512 * (2 ^ 22 : ℕ) + 256 := by
  have hlive : live (replicate (2 ^ 22 + 1) (.put [97] [49] fun _ => 0)) [97] =
      some ⟨2 ^ 22, [49]⟩ := by
    rw [replicate_succ', live_put, if_pos rfl, putsIn_replicate]
  refine ⟨int32 (2 ^ 22 : ℕ), ?_, hlive, ?_⟩
  · rw [(tracks_after _).index, hlive]
    rfl
  · rw [valueindex_int32]
    decide

end Store

end Kvs
