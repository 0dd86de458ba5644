import Assignments.Framework.Basic

/-!
# A file that is opened for appending

A byte file with the position of its descriptor, as `open` with `O_APPEND` gives it: a write goes
to the end of the file and leaves the position there, a read starts at the position and may come
back short. `seek` is `lseek` with `SEEK_SET`, which fails on a negative offset and then leaves
the position as it is.

The two facts the record stores need are that an append keeps what could be read before
(`slice_append_old`) and how what it wrote reads back (`slice_append_new`).
-/

namespace Framework

/-- The bytes of a file and the position of its descriptor. -/
structure File (β : Type) where
  content : List β
  pos : ℕ
  deriving DecidableEq, Repr

namespace File

variable {β : Type}

def empty : File β := ⟨[], 0⟩

/-- `write` on a descriptor opened with `O_APPEND`. -/
def append (f : File β) (bytes : List β) : File β :=
  ⟨f.content ++ bytes, (f.content ++ bytes).length⟩

/-- `lseek(fd, offset, SEEK_SET)`. -/
def seek (f : File β) (offset : ℤ) : File β :=
  if 0 ≤ offset then { f with pos := offset.toNat } else f

/-- The `n` bytes from position `i` on, fewer at the end of the file. -/
def slice (f : File β) (i n : ℕ) : List β := (f.content.drop i).take n

/-- `read`: the bytes read, and the position moved behind them. -/
def read (f : File β) (n : ℕ) : File β × List β :=
  ({ f with pos := f.pos + (f.slice f.pos n).length }, f.slice f.pos n)

variable {f : File β} {bytes : List β} {i n : ℕ}

@[simp] theorem append_content : (f.append bytes).content = f.content ++ bytes := rfl

@[simp] theorem seek_content (f : File β) (offset : ℤ) : (f.seek offset).content = f.content := by
  unfold seek
  split_ifs <;> rfl

@[simp] theorem read_content (f : File β) (n : ℕ) : (f.read n).1.content = f.content := rfl

@[simp] theorem read_bytes (f : File β) (n : ℕ) : (f.read n).2 = f.slice f.pos n := rfl

theorem seek_pos_of_nonneg {offset : ℤ} (h : 0 ≤ offset) : (f.seek offset).pos = offset.toNat := by
  unfold seek
  rw [if_pos h]

theorem seek_of_neg {offset : ℤ} (h : offset < 0) : f.seek offset = f := by
  unfold seek
  rw [if_neg (not_le.mpr h)]

/-- What was in the file reads as before an append. -/
theorem slice_append_old (h : i + n ≤ f.content.length) :
    (f.append bytes).slice i n = f.slice i n := by
  unfold slice
  rw [append_content, List.drop_append_of_le_length (by omega), List.take_append_of_le_length]
  rw [List.length_drop]
  omega

/-- What an append wrote, read back. -/
theorem slice_append_new (i n : ℕ) :
    (f.append bytes).slice (f.content.length + i) n = (bytes.drop i).take n := by
  unfold slice
  rw [append_content, ← List.drop_drop, List.drop_left]

/-- Nothing is read behind the end of the file. -/
theorem slice_of_length_le (h : f.content.length ≤ i) : f.slice i n = [] := by
  unfold slice
  rw [List.drop_eq_nil_of_le h, List.take_nil]

end File

end Framework
