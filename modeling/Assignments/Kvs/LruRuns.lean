import Assignments.Framework.Run
import Assignments.Kvs.Lru

/-!
# Whole runs of the LRU cache

What the class `LRUCache` is for, stated without its pointers: the keys that were used most
recently, in this order (`recent`), each with the value that was put for it last (`latest`). Every
sequence of calls on a new cache of capacity 1 or more has a result, and the cache it leads to is
the reference list (`lru_refines`): `Repr`, the invariant of the pointer structure, is carried from
call to call together with what ties the entries to the calls made so far (`Tracks`).
-/

namespace Kvs

open Framework List

namespace LRUCache

/-! ### Calls and the reference list -/

inductive Call where
  | get (k : Bytes)
  | put (k value : Bytes)
  | del (k : Bytes)
deriving DecidableEq

def call (c : LRUCache) : Call → Option LRUCache
  | .get k => (c.get k).map Prod.fst
  | .put k value => c.put k value
  | .del k => c.del k

/-- The keys in the cache, the one used last in front. A new key takes the place of the one at the
end if the list is full. -/
def recent (cap : ℤ) (ks : List Bytes) : Call → List Bytes
  | .get k => if k ∈ ks then k :: ks.erase k else ks
  | .put k _ =>
    if k ∈ ks then k :: ks.erase k
    else if (ks.length : ℤ) = cap then k :: ks.dropLast
    else k :: ks
  | .del k => ks.erase k

/-- The value that was put for `k` last. -/
def latest (calls : List Call) (k : Bytes) : Option Bytes :=
  calls.reverse.findSome? fun
    | .put j value => if j = k then some value else none
    | .get _ | .del _ => none

theorem latest_put (calls : List Call) (j value k : Bytes) :
    latest (calls ++ [.put j value]) k = if j = k then some value else latest calls k := by
  unfold latest
  rw [reverse_append, reverse_singleton, singleton_append, findSome?_cons]
  by_cases hjk : j = k <;> simp [hjk]

theorem latest_get (calls : List Call) (j k : Bytes) :
    latest (calls ++ [.get j]) k = latest calls k := by
  unfold latest
  rw [reverse_append, reverse_singleton, singleton_append, findSome?_cons]

theorem latest_del (calls : List Call) (j k : Bytes) :
    latest (calls ++ [.del j]) k = latest calls k := by
  unfold latest
  rw [reverse_append, reverse_singleton, singleton_append, findSome?_cons]

end LRUCache

/-! ### The keys of a recency list -/

namespace Recency

variable {l : Recency} {k : Bytes}

def keys (l : Recency) : List Bytes := l.map Entry.key

theorem not_mem_keys (hfind : l.find? (fun e => e.key = k) = none) : k ∉ l.keys := by
  intro hk
  obtain ⟨e, he, hek⟩ := mem_map.mp hk
  exact find?_eq_none.mp hfind e he (by simpa using hek)

theorem mem_keys {e : Entry} (hfind : l.find? (fun e => e.key = k) = some e) :
    e ∈ l ∧ e.key = k ∧ k ∈ l.keys := by
  have hek : e.key = k := by simpa using find?_some hfind
  have hmem := mem_of_find?_eq_some hfind
  exact ⟨hmem, hek, mem_map.mpr ⟨e, hmem, hek⟩⟩

theorem keys_drop (hnodup : l.keys.Nodup) (k : Bytes) : (l.drop k).keys = l.keys.erase k := by
  rw [hnodup.erase_eq_filter, keys, keys, filter_map, drop]
  congr 1
  refine filter_congr fun e _ => ?_
  by_cases hek : e.key = k <;> simp [hek]

theorem keys_touch (hnodup : l.keys.Nodup) (k : Bytes) :
    (l.touch k).keys = if k ∈ l.keys then k :: l.keys.erase k else l.keys := by
  unfold touch
  cases hfind : l.find? fun e => e.key = k with
  | none => rw [if_neg (not_mem_keys hfind)]
  | some e =>
    obtain ⟨-, hek, hk⟩ := mem_keys hfind
    rw [if_pos hk, ← keys_drop hnodup]
    exact congrArg (· :: (l.drop k).keys) hek

theorem keys_put {cap : ℤ} (hnodup : l.keys.Nodup) (hlen : (l.length : ℤ) ≤ cap)
    (k value : Bytes) :
    (Recency.put cap l k value).keys =
      if k ∈ l.keys then k :: l.keys.erase k
      else if (l.keys.length : ℤ) = cap then k :: l.keys.dropLast
      else k :: l.keys := by
  have hdrop := keys_drop hnodup k
  have hdroplen : (l.drop k).length = (l.keys.erase k).length := by
    rw [← hdrop, keys, length_map]
  have hlength : l.keys.length = l.length := length_map _
  by_cases hk : k ∈ l.keys
  · -- the old entry makes room for the new one
    have hroom : ((l.drop k).length : ℤ) ≠ cap := by
      have hpos := length_pos_of_mem hk
      rw [hdroplen, length_erase_of_mem hk]
      omega
    rw [if_pos hk, put, if_neg hroom, ← hdrop]
    rfl
  · rw [erase_of_not_mem hk] at hdrop
    rw [if_neg hk, put]
    rw [hdroplen, erase_of_not_mem hk]
    split
    · rw [← hdrop, keys, keys, ← map_dropLast]
      rfl
    · rw [← hdrop]
      rfl

/-- Every entry of the list is there after a call, or was put by it. -/
theorem mem_put {cap : ℤ} {value : Bytes} {e : Entry} (he : e ∈ Recency.put cap l k value) :
    e = ⟨k, value⟩ ∨ e ∈ l ∧ e.key ≠ k := by
  unfold put at he
  rcases mem_cons.mp he with rfl | he
  · exact .inl rfl
  · have hmem : e ∈ l.drop k := by
      split at he
      · exact mem_of_mem_dropLast he
      · exact he
    obtain ⟨hl, hne⟩ := mem_filter.mp hmem
    exact .inr ⟨hl, by simpa using hne⟩

theorem mem_touch {e : Entry} (he : e ∈ l.touch k) : e ∈ l := by
  unfold touch at he
  split at he
  · next e' hfind =>
    rcases mem_cons.mp he with rfl | he
    · exact mem_of_find?_eq_some hfind
    · exact mem_of_mem_filter he
  · exact he

end Recency

/-! ### One call and whole runs -/

namespace LRUCache

/-- The list `l` is the reference list after the calls `done`, with the values put last. -/
structure Tracks (cap : ℤ) (done : List Call) (l : Recency) : Prop where
  keys : l.keys = done.foldl (recent cap) []
  nodup : l.keys.Nodup
  length : (l.length : ℤ) ≤ cap
  value : ∀ e ∈ l, latest done e.key = some e.value

variable {cap : ℤ} {done : List Call} {l : Recency}

theorem recent_nodup {ks : List Bytes} (h : ks.Nodup) (a : Call) : (recent cap ks a).Nodup := by
  have hfront : ∀ k, (k :: ks.erase k).Nodup := fun k =>
    nodup_cons.mpr ⟨h.not_mem_erase, h.erase k⟩
  cases a with
  | get k =>
    simp only [recent]
    split
    · exact hfront k
    · exact h
  | put k value =>
    simp only [recent]
    split
    · exact hfront k
    · next hk =>
      split
      · exact nodup_cons.mpr ⟨fun hmem => hk (mem_of_mem_dropLast hmem),
          h.sublist (dropLast_sublist ks)⟩
      · exact nodup_cons.mpr ⟨hk, h⟩
  | del k => exact h.erase k

theorem recent_length {ks : List Bytes} (hcap : 1 ≤ cap) (h : (ks.length : ℤ) ≤ cap) (a : Call) :
    ((recent cap ks a).length : ℤ) ≤ cap := by
  have hfront : ∀ k ∈ ks, (k :: ks.erase k).length = ks.length := fun k hk => by
    have := length_pos_of_mem hk
    rw [length_cons, length_erase_of_mem hk]
    omega
  cases a with
  | get k =>
    simp only [recent]
    split
    · next hk =>
      rw [hfront k hk]
      exact h
    · exact h
  | put k value =>
    simp only [recent]
    split
    · next hk =>
      rw [hfront k hk]
      exact h
    · split
      · next hfull =>
        rw [length_cons, length_dropLast]
        omega
      · rw [length_cons]
        omega
  | del k =>
    have := length_erase_le (a := k) (l := ks)
    show ((ks.erase k).length : ℤ) ≤ cap
    omega

/-- **One call.** It has a result, and keeps the cache on the reference list. -/
theorem call_tracks {c : LRUCache} (hcap : 1 ≤ cap) (hr : c.Repr l) (hc : c.cap = cap)
    (ht : Tracks cap done l) (a : Call) :
    ∃ c' l', c.call a = some c' ∧ c'.Repr l' ∧ c'.cap = cap ∧ Tracks cap (done ++ [a]) l' := by
  -- the keys settle everything but the values
  have htracks : ∀ l' : Recency, l'.keys = recent cap l.keys a →
      (∀ e ∈ l', latest (done ++ [a]) e.key = some e.value) → Tracks cap (done ++ [a]) l' := by
    intro l' hkeys hvalue
    have hlength : l'.length = (recent cap l.keys a).length := by
      rw [← hkeys, Recency.keys, length_map]
    refine ⟨?_, hkeys ▸ recent_nodup ht.nodup a, ?_, hvalue⟩
    · rw [hkeys, ht.keys, foldl_append]
      rfl
    · rw [hlength]
      refine recent_length hcap ?_ a
      rw [Recency.keys, length_map]
      exact ht.length
  cases a with
  | get k =>
    obtain ⟨c', hget, hr', hc'⟩ := get_repr hr k
    refine ⟨c', l.touch k, ?_, hr', hc'.trans hc, htracks _ (Recency.keys_touch ht.nodup k) ?_⟩
    · rw [call, hget]
      rfl
    · intro e he
      rw [latest_get]
      exact ht.value e (Recency.mem_touch he)
  | put k value =>
    have hroom : ((Recency.drop l k).length : ℤ) = c.cap → Recency.drop l k ≠ [] := by
      intro hfull hnil
      rw [hnil, hc, length_nil] at hfull
      omega
    obtain ⟨c', hput, hr', hc'⟩ := put_repr hr k value hroom
    refine ⟨c', _, hput, hr', hc'.trans hc,
      htracks _ (hc ▸ Recency.keys_put ht.nodup (hc ▸ ht.length) k value) ?_⟩
    intro e he
    rw [latest_put]
    rcases Recency.mem_put he with rfl | ⟨hmem, hne⟩
    · rw [if_pos rfl]
    · rw [if_neg hne.symm]
      exact ht.value e hmem
  | del k =>
    obtain ⟨c', hdel, hr', hc'⟩ := del_repr hr k
    refine ⟨c', _, hdel, hr', hc'.trans hc, htracks _ (Recency.keys_drop ht.nodup k) ?_⟩
    intro e he
    rw [latest_del]
    exact ht.value e (mem_of_mem_filter he)

/-- The cache that the calls lead to, from a new one. -/
def runs (cap : ℤ) (calls : List Call) : Option LRUCache :=
  (LRUCache.new cap).bind fun c => run call c calls

theorem runs_tracks (hcap : 1 ≤ cap) (calls : List Call) :
    ∃ c l, runs cap calls = some c ∧ c.Repr l ∧ Tracks cap calls l := by
  obtain ⟨c₀, hnew, hr₀, hc₀⟩ := new_repr cap
  have hstep : ∀ done (c : LRUCache) a, (∃ l, c.Repr l ∧ c.cap = cap ∧ Tracks cap done l) → True →
      ∃ c', c.call a = some c' ∧ ∃ l, c'.Repr l ∧ c'.cap = cap ∧ Tracks cap (done ++ [a]) l := by
    rintro done c a ⟨l, hr, hc, ht⟩ -
    obtain ⟨c', l', hcall, hr', hc', ht'⟩ := call_tracks hcap hr hc ht a
    exact ⟨c', hcall, l', hr', hc', ht'⟩
  have hinit : Tracks cap [] [] := ⟨rfl, nodup_nil, by rw [length_nil]; omega, nofun⟩
  obtain ⟨c, hrun, l, hr, -, ht⟩ :=
    run_history hstep ⟨[], hr₀, hc₀, hinit⟩ (along_true _ calls)
  refine ⟨c, l, ?_, hr, ht⟩
  rw [runs, hnew]
  exact hrun

theorem Shape.keys_contents {c : LRUCache} {xs : List ℕ} (hs : c.Shape xs) :
    xs.map (fun p => (c.heap.data p).map Entry.key) = (c.contents xs).keys.map some := by
  have hall : ∀ p ∈ xs, ∃ e, c.heap.data p = some e := fun p hp => hs.data_of_mem hp
  clear hs
  unfold contents
  induction xs with
  | nil => rfl
  | cons p xs ih =>
    obtain ⟨e, he⟩ := hall p mem_cons_self
    rw [filterMap_cons_some he, map_cons, ih fun q hq => hall q (mem_cons_of_mem p hq),
      he]
    rfl

/-- What a `get` returns once the cache has tracked the calls. -/
theorem Tracks.lookup (ht : Tracks cap done l) (k : Bytes) :
    (l.lookup k).getD notFound =
      if k ∈ done.foldl (recent cap) [] then (latest done k).getD notFound else notFound := by
  rw [← ht.keys]
  unfold Recency.lookup
  cases hfind : l.find? fun e => e.key = k with
  | none =>
    rw [if_neg (Recency.not_mem_keys hfind)]
    rfl
  | some e =>
    obtain ⟨hmem, hek, hk⟩ := Recency.mem_keys hfind
    rw [if_pos hk, ← hek, ht.value e hmem]
    rfl

/-- **The LRU cache is the recency list.** Any calls on a new cache of capacity 1 or more have a
result. The nodes between `head` and `tail`, linked in both directions, have the keys of the
reference list, front first and each once; the index maps just these keys, each to its node, and
has no more than `cap` of them; and a `get` returns the value put last for a key on the list, and
`"-1"` for any other. -/
theorem lru_refines (cap : ℤ) (hcap : 1 ≤ cap) (calls : List Call) :
    ∃ c xs, runs cap calls = some c ∧ c.heap.Linked c.head c.tail xs ∧
      xs.map (fun p => (c.heap.data p).map Entry.key) =
        (calls.foldl (recent cap) []).map some ∧
      (calls.foldl (recent cap) []).Nodup ∧
      (∀ k p, c.m.find? k = some p ↔ p ∈ xs ∧ (c.heap.data p).map Entry.key = some k) ∧
      (c.m.size : ℤ) ≤ cap ∧
      ∀ k, (c.get k).map Prod.snd = some (if k ∈ calls.foldl (recent cap) [] then
        (latest calls k).getD notFound else notFound) := by
  obtain ⟨c, l, hruns, hr, ht⟩ := runs_tracks hcap calls
  have hget : ∀ k, (c.get k).map Prod.snd = some ((Recency.lookup l k).getD notFound) := by
    intro k
    obtain ⟨c', hget, -, -⟩ := get_repr hr k
    rw [hget]
    rfl
  have hsize := hr.size_eq
  obtain ⟨xs, hs, rfl⟩ := hr
  refine ⟨c, xs, hruns, hs.linked, ?_, ht.keys ▸ ht.nodup, hs.index, hsize ▸ ht.length, fun k => ?_⟩
  · rw [hs.keys_contents, ht.keys]
  · rw [hget k, ht.lookup k]

theorem lru_refines_evict :
    ∃ (c : LRUCache) (xs : List ℕ), runs 1 [.put [1] [7], .put [2] [8], .get [2]] = some c ∧
      xs.map (fun p => (c.heap.data p).map Entry.key) = [some [2]] ∧
      (c.get [1]).map Prod.snd = some notFound ∧ (c.get [2]).map Prod.snd = some [8] := by
  obtain ⟨c, xs, hruns, -, hkeys, -, -, -, hget⟩ :=
    lru_refines 1 (by decide) [.put [1] [7], .put [2] [8], .get [2]]
  exact ⟨c, xs, hruns, hkeys, hget [1], hget [2]⟩

end LRUCache

end Kvs
