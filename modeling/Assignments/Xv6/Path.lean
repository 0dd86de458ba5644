import Assignments.Framework.Basic

/-!
# Paths

`skipelem` of `fs.c`, for paths of characters and of bytes: the models of the file system by names
and by bytes both look up a path one element after another.
-/

namespace Xv6

/-- Bytes of a name in a directory. -/
def DIRSIZ : ℕ := 14

variable {α : Type} [DecidableEq α]

/-- The next element of a path and the path after it. -/
def skipelem (slash : α) (path : List α) : Option (List α × List α) :=
  match path.dropWhile (· = slash) with
  | [] => none
  | c :: cs =>
    some (((c :: cs).takeWhile (· ≠ slash)).take DIRSIZ,
      ((c :: cs).dropWhile (· ≠ slash)).dropWhile (· = slash))

/-- The elements that calls of `skipelem` yield one after another, at most `n` of them. -/
def elems (slash : α) : ℕ → List α → List (List α)
  | 0, _ => []
  | n + 1, path =>
    match skipelem slash path with
    | none => []
    | some (name, rest) => name :: elems slash n rest

/-- All elements of a path; it has no more of them than characters. -/
def elements (slash : α) (path : List α) : List (List α) := elems slash path.length path

end Xv6
