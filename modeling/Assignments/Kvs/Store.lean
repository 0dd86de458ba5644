import Assignments.Framework.File
import Assignments.Framework.SortedMap
import Assignments.Kvs.Bytes

/-!
# The file store

A key lives in the bucket file of its first letter, as a record of 512 bytes: the key and the
value, each padded with blanks to 256 bytes. `filelocationmap` maps a live key to the number of
its record, and `fileoffsets` counts the records of each file. `putkey`, `getkey` and `deletekey`
are the functions of the server of these names.

Two reads leave the objects of the program: the 512 bytes `putkey` writes go on behind the string
when a field was too long to be padded, and `getkey` makes a string from a buffer that need not
hold a zero byte. What lies there is a parameter (`memory`, `stack`) and every result about the
store is for all values of it.

* `record_eq` — when both fields are shorter than 256 bytes the record is the two padded fields;
* `decode_pad` — and a value without blank and zero byte reads back;
* `getkey_absent`, `getkey_live` — what `getkey` returns; it changes no data (`getkey_sameData`).
-/

namespace Kvs

open Framework Function

/-- The number of bucket files. -/
abbrev totalfiles : ℕ := 53

/-- The globals of the file store. -/
structure Store where
  /-- The descriptors `fds` and what is behind them. -/
  files : Fin totalfiles → File Byte
  filelocationmap : SortedMap Bytes ℤ
  fileoffsets : Fin totalfiles → ℤ

/-- The bucket of a key: `A`–`Z`, `a`–`z`, or the last file. `key[0]` of an empty string is the
zero byte. -/
def bucket (key : Bytes) : Fin totalfiles :=
  let firstletter := (key.headD 0).val
  if 65 ≤ firstletter ∧ firstletter ≤ 90 then Fin.ofNat totalfiles (firstletter - 65)
  else if 97 ≤ firstletter ∧ firstletter ≤ 122 then Fin.ofNat totalfiles (firstletter - 97 + 26)
  else 52

/-- `enckey` and `encvalue`: the padded field, or the empty string for a field of 256 bytes or
more. -/
def enc (field : Bytes) : Bytes :=
  if field.length < 256 then field ++ List.replicate (256 - field.length) blank else []

/-- The 512 bytes from `(enckey+encvalue).c_str()` on; `memory` is what follows the string. -/
def record (key value : Bytes) (memory : ℕ → Byte) : Bytes :=
  (enc key ++ enc value ++ 0 :: (List.range 511).map memory).take 512

/-- The string `getkey` makes of the bytes it read; `stack` is what the buffer and the memory
behind it held before, up to the zero byte that ends the string at the latest. -/
def decode (bytes stack : Bytes) : Bytes := trim (cstring (bytes ++ stack.drop bytes.length))

namespace Store

/-- The store of a first start: no file has a record. -/
def empty : Store where
  files _ := File.empty
  filelocationmap := SortedMap.empty
  fileoffsets _ := 0

def putkey (s : Store) (key value : Bytes) (memory : ℕ → Byte) : Store where
  files := update s.files (bucket key)
    ((s.files (bucket key)).append (record key value memory))
  filelocationmap := s.filelocationmap.insert key (s.fileoffsets (bucket key))
  fileoffsets := update s.fileoffsets (bucket key)
    (int32 (s.fileoffsets (bucket key) + 1))

/-- `int valueindex = offset*512 + 256;` -/
def valueindex (offset : ℤ) : ℤ := int32 (int32 (offset * 512) + 256)

def getkey (s : Store) (key : Bytes) (stack : Bytes) : Store × Bytes :=
  match s.filelocationmap.find? key with
  | none => (s, notFound)
  | some offset =>
    let r := ((s.files (bucket key)).seek (valueindex offset)).read 256
    ({ s with files := update s.files (bucket key) r.1 }, decode r.2 stack)

/-- The new store, and 1 when the key was live. -/
def deletekey (s : Store) (key : Bytes) : Store × ℤ :=
  match s.filelocationmap.find? key with
  | some _ => ({ s with filelocationmap := s.filelocationmap.erase key }, 1)
  | none => (s, 0)

end Store

/-! ### Records -/

/-- The field padded with blanks to 256 bytes. -/
def pad (field : Bytes) : Bytes := field ++ List.replicate (256 - field.length) blank

variable {key value : Bytes}

theorem enc_eq_pad {field : Bytes} (h : field.length ≤ 255) : enc field = pad field :=
  if_pos (by omega)

theorem pad_length {field : Bytes} (h : field.length ≤ 256) : (pad field).length = 256 := by
  unfold pad
  rw [List.length_append, List.length_replicate]
  omega

theorem enc_length (field : Bytes) :
    (enc field).length = if field.length < 256 then 256 else 0 := by
  unfold enc
  split_ifs with h
  · exact pad_length h.le
  · rfl

@[simp] theorem record_length (key value : Bytes) (memory : ℕ → Byte) :
    (record key value memory).length = 512 := by
  unfold record
  rw [List.length_take]
  simp only [List.length_append, List.length_cons, List.length_map, List.length_range]
  omega

theorem record_eq (hk : key.length ≤ 255) (hv : value.length ≤ 255) (memory : ℕ → Byte) :
    record key value memory = pad key ++ pad value := by
  unfold record
  rw [enc_eq_pad hk, enc_eq_pad hv, List.take_append_of_le_length, List.take_of_length_le]
  · rw [List.length_append, pad_length (by omega), pad_length (by omega)]
  · rw [List.length_append, pad_length (by omega), pad_length (by omega)]

/-- The value field of a record with a padded value. -/
theorem record_drop (hk : key.length ≤ 255) (hv : value.length ≤ 255) (memory : ℕ → Byte) :
    ((record key value memory).drop 256).take 256 = pad value := by
  rw [record_eq hk hv, List.drop_append_of_le_length (by rw [pad_length (by omega)]),
    List.drop_of_length_le (by rw [pad_length (by omega)]), List.nil_append,
    List.take_of_length_le (by rw [pad_length (by omega)])]

theorem decode_bytes {bytes stack : Bytes} : ∀ b ∈ decode bytes stack, b ≠ blank ∧ b ≠ 0 := by
  intro b hb
  unfold decode trim at hb
  have hblank := List.mem_takeWhile_imp hb
  have hzero := List.mem_takeWhile_imp ((List.takeWhile_prefix _).subset hb)
  exact ⟨by simpa using hblank, by simpa using hzero⟩

/-- **A value reads back** from its padded field, whatever the buffer held before. -/
theorem decode_pad (hv : value.length ≤ 255) (hbytes : ∀ b ∈ value, b ≠ blank ∧ b ≠ 0)
    (stack : Bytes) : decode (pad value) stack = value := by
  -- the padding has at least one blank, and the string ends there
  obtain ⟨n, hn⟩ : ∃ n, 256 - value.length = n + 1 := ⟨255 - value.length, by omega⟩
  have hpad : pad value = (value ++ [blank]) ++ List.replicate n blank := by
    unfold pad
    rw [hn, List.replicate_succ, List.append_assoc, List.singleton_append]
  unfold decode cstring trim
  rw [hpad, List.append_assoc, List.takeWhile_append_of_pos]
  · rw [List.append_assoc, List.singleton_append]
    exact takeWhile_append_of_stop (fun b hb => by simpa using (hbytes b hb).1) (by simp)
  · intro b hb
    rcases List.mem_append.mp hb with hb | hb
    · simpa using (hbytes b hb).2
    · rw [List.mem_singleton] at hb
      subst hb
      decide

/-! ### Seeking -/

/-- The value index of a record number: exact below `2 ^ 22`, negative above, and periodic with
period `2 ^ 23`. -/
theorem valueindex_eq (offset : ℤ) : Store.valueindex offset =
    if offset % 2 ^ 23 < 2 ^ 22 then 512 * (offset % 2 ^ 23) + 256
    else 512 * (offset % 2 ^ 23) + 256 - 2 ^ 32 := by
  unfold Store.valueindex
  rw [int32_int32_add]
  unfold int32
  rw [Int.bmod_def]
  show (if (offset * 512 + 256) % 4294967296 < (4294967296 + 1) / 2 then
    (offset * 512 + 256) % 4294967296 else (offset * 512 + 256) % 4294967296 - 4294967296) = _
  split_ifs <;> omega

/-- Reading the value field of record `offset`, wherever `lseek` takes the descriptor. -/
theorem read_seek_valueindex {f : File Byte} (hpos : f.pos = f.content.length) (offset : ℤ) :
    ((f.seek (Store.valueindex offset)).read 256).2 =
      if offset % 2 ^ 23 < 2 ^ 22 then
        f.slice (512 * (offset % 2 ^ 23).toNat + 256) 256 else [] := by
  have hmod := Int.emod_nonneg offset (show (2 ^ 23 : ℤ) ≠ 0 by decide)
  rw [File.read_bytes]
  split_ifs with h
  · have hidx : Store.valueindex offset = 512 * (offset % 2 ^ 23) + 256 := by
      rw [valueindex_eq, if_pos h]
    rw [File.seek_pos_of_nonneg (by omega), hidx]
    unfold File.slice
    rw [File.seek_content]
    congr 2
    omega
  · -- the seek fails and the descriptor stays at the end of the file
    have hneg : Store.valueindex offset < 0 := by
      have := Int.emod_lt_of_pos offset (show (0 : ℤ) < 2 ^ 23 by decide)
      rw [valueindex_eq, if_neg h]
      omega
    rw [File.seek_of_neg hneg]
    exact File.slice_of_length_le hpos.ge

/-! ### The three functions -/

namespace Store

/-- `s'` differs from `s` in the positions of its descriptors only. -/
structure SameData (s s' : Store) : Prop where
  content : ∀ b, (s'.files b).content = (s.files b).content
  filelocationmap : s'.filelocationmap = s.filelocationmap
  fileoffsets : s'.fileoffsets = s.fileoffsets

variable {s : Store}

theorem getkey_sameData (s : Store) (key stack : Bytes) : SameData s (s.getkey key stack).1 := by
  unfold getkey
  cases s.filelocationmap.find? key with
  | none => exact ⟨fun _ => rfl, rfl, rfl⟩
  | some offset =>
    refine ⟨fun b => ?_, rfl, rfl⟩
    show (update s.files (bucket key) _ b).content = _
    by_cases hb : b = bucket key
    · subst hb
      rw [update_self, File.read_content, File.seek_content]
    · rw [update_of_ne hb]

theorem getkey_absent {stack : Bytes} (h : s.filelocationmap.find? key = none) :
    s.getkey key stack = (s, notFound) := by
  unfold getkey
  rw [h]

/-- The value of a live key, read with the descriptor wherever it is. -/
theorem getkey_live {stack : Bytes} {offset : ℕ}
    (hkey : s.filelocationmap.find? key = some (offset : ℤ)) (ho : offset < 2 ^ 22) :
    (s.getkey key stack).2 =
      decode ((s.files (bucket key)).slice (512 * offset + 256) 256) stack := by
  have hidx : valueindex offset = (512 * offset + 256 : ℕ) := by
    rw [valueindex_eq]
    omega
  unfold getkey
  simp only [hkey]
  rw [File.read_bytes, hidx, File.seek_pos_of_nonneg (by omega)]
  unfold File.slice
  rw [File.seek_content, Int.toNat_natCast]

end Store

end Kvs
