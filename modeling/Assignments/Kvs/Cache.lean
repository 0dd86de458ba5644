import Assignments.Kvs.Lfu
import Assignments.Kvs.Lru

/-!
# The cache of the server

The server owns an `LRUCache` or an `LFUCache`, whichever its configuration file asks for, and
goes through the same three methods in both cases. What it relies on is stated here once, over
`Cache.lookup`, the value a hit would return:

* `Cache.get_spec` — a get returns the lookup, or `"-1"`, and changes no lookup;
* `Cache.del_spec` — a del removes the lookup of its key;
* `Cache.put_spec` — a put brings no lookup in but its own. It has a result unless the cache is
  `Stuck` (`Cache.put_stuck`): a full cache that has nothing to evict.
-/

namespace Kvs

inductive Cache where
  | lru (c : LRUCache)
  | lfu (c : LFUCache)

namespace Cache

/-- The cache `readconfigfile` creates; there is none for other values of `cachetype`. -/
def new (cachetype cachecapacity : ℤ) : Option Cache :=
  if cachetype = 1 then (LRUCache.new cachecapacity).map .lru
  else if cachetype = 2 then some (.lfu (.new cachecapacity))
  else none

def get : Cache → Bytes → Option (Cache × Bytes)
  | .lru c, key => (c.get key).map fun (c, value) => (.lru c, value)
  | .lfu c, key => (c.get key).map fun (c, value) => (.lfu c, value)

def put : Cache → Bytes → Bytes → Option Cache
  | .lru c, key, value => (c.put key value).map .lru
  | .lfu c, key, value => (c.put key value).map .lfu

def del : Cache → Bytes → Option Cache
  | .lru c, key => (c.del key).map .lru
  | .lfu c, key => (c.del key).map .lfu

/-- The value a hit on `key` would return. -/
def lookup : Cache → Bytes → Option Bytes
  | .lru c, key => c.lookup key
  | .lfu c, key => c.lookup key

/-- The pointer structure is sound. -/
def Ok : Cache → Prop
  | .lru c => ∃ l, c.Repr l
  | .lfu c => ∃ xs, c.Shape xs

/-- A put of a new key would look for an entry to evict where there is none. -/
def Stuck : Cache → Prop
  | .lru c => c.cap = 0 ∧ c.m.size = 0
  | .lfu c => c.Stuck

instance : (c : Cache) → Decidable c.Stuck
  | .lru c => inferInstanceAs (Decidable (c.cap = 0 ∧ c.m.size = 0))
  | .lfu c => inferInstanceAs (Decidable c.Stuck)

variable {c : Cache} {k : Bytes}

theorem new_spec {cachetype cachecapacity : ℤ} (h : Cache.new cachetype cachecapacity = some c) :
    c.Ok ∧ ∀ k, c.lookup k = none := by
  unfold Cache.new at h
  split_ifs at h
  · obtain ⟨c', hnew, hr, -⟩ := LRUCache.new_repr cachecapacity
    rw [hnew] at h
    obtain rfl := Option.some.inj h
    exact ⟨⟨[], hr⟩, fun k => hr.lookup_eq k⟩
  · obtain rfl := Option.some.inj h
    exact ⟨⟨_, LFUCache.new_shape cachecapacity⟩, fun k => rfl⟩

theorem get_spec (hok : c.Ok) (k : Bytes) :
    ∃ c', c.get k = some (c', (c.lookup k).getD notFound) ∧ c'.Ok ∧
      ∀ j, c'.lookup j = c.lookup j := by
  cases c with
  | lru c =>
    obtain ⟨l, hr⟩ := hok
    obtain ⟨c', hget, hr', -⟩ := LRUCache.get_repr hr k
    refine ⟨.lru c', ?_, ⟨_, hr'⟩, fun j => ?_⟩
    · show (c.get k).map _ = some (_, (c.lookup k).getD notFound)
      rw [hget, hr.lookup_eq]
      rfl
    · show c'.lookup j = c.lookup j
      rw [hr'.lookup_eq, hr.lookup_eq, Recency.lookup_touch]
  | lfu c =>
    obtain ⟨xs, hs⟩ := hok
    obtain ⟨c', xs', hget, hs', hlook⟩ := hs.get_lookup k
    refine ⟨.lfu c', ?_, ⟨xs', hs'⟩, hlook⟩
    show (c.get k).map _ = some (_, (c.lookup k).getD notFound)
    rw [hget]
    rfl

/-- A miss changes nothing. -/
theorem get_miss (hok : c.Ok) (hk : c.lookup k = none) : c.get k = some (c, notFound) := by
  cases c with
  | lru c =>
    obtain ⟨l, xs, hs, rfl⟩ := hok
    have hf : c.m.find? k = none := by
      cases hf : c.m.find? k with
      | none => rfl
      | some p =>
        obtain ⟨hp, -⟩ := (hs.index k p).mp hf
        obtain ⟨e, he⟩ := hs.data_of_mem hp
        have hsome : c.lookup k = some e.value := by
          unfold LRUCache.lookup
          rw [hf, Option.bind_some, he]
          rfl
        exact absurd (hsome.symm.trans hk) (by simp)
    show (c.get k).map _ = _
    unfold LRUCache.get
    rw [hf]
    rfl
  | lfu c =>
    obtain ⟨xs, hs⟩ := hok
    show (c.get k).map _ = _
    rw [LFUCache.get_miss ((LFUCache.lookup_eq_none_iff hs).mp hk)]
    rfl

theorem del_spec (hok : c.Ok) (k : Bytes) :
    ∃ c', c.del k = some c' ∧ c'.Ok ∧ ∀ j, c'.lookup j = if j = k then none else c.lookup j := by
  cases c with
  | lru c =>
    obtain ⟨l, hr⟩ := hok
    obtain ⟨c', hdel, hr', -⟩ := LRUCache.del_repr hr k
    refine ⟨.lru c', by show (c.del k).map _ = _; rw [hdel]; rfl, ⟨_, hr'⟩, fun j => ?_⟩
    show c'.lookup j = if j = k then none else c.lookup j
    rw [hr'.lookup_eq, hr.lookup_eq, Recency.lookup_drop]
  | lfu c =>
    obtain ⟨xs, hs⟩ := hok
    obtain ⟨c', xs', hdel, hs', hlook⟩ := hs.del_lookup k
    exact ⟨.lfu c', by show (c.del k).map _ = _; rw [hdel]; rfl, ⟨xs', hs'⟩, hlook⟩

theorem put_spec (hok : c.Ok) (hk : c.lookup k = none) (hstuck : ¬ c.Stuck) (value : Bytes) :
    ∃ c', c.put k value = some c' ∧ c'.Ok ∧
      ∀ j w, c'.lookup j = some w → j = k ∧ w = value ∨ c.lookup j = some w := by
  cases c with
  | lru c =>
    obtain ⟨l, hr⟩ := hok
    -- the key is not in the list, so nothing is dropped before the size test
    have hdrop : Recency.drop l k = l := by
      refine List.filter_eq_self.mpr fun e he => ?_
      have hnone : Recency.lookup l k = none := (hr.lookup_eq k).symm.trans hk
      have := List.find?_eq_none.mp (Option.map_eq_none_iff.mp hnone) e he
      simpa using this
    obtain ⟨c', hput, hr', -⟩ := LRUCache.put_repr hr k value fun hfull hnil => by
      refine hstuck ⟨?_, ?_⟩
      · rw [← hfull, hnil]; rfl
      · rw [hr.size_eq, ← hdrop, hnil]; rfl
    refine ⟨.lru c', by show (c.put k value).map _ = _; rw [hput]; rfl, ⟨_, hr'⟩, ?_⟩
    intro j w hj
    replace hj : c'.lookup j = some w := hj
    rw [hr'.lookup_eq] at hj
    by_cases hjk : j = k
    · subst hjk
      rw [Recency.lookup_put_self] at hj
      exact Or.inl ⟨rfl, (Option.some.inj hj).symm⟩
    · exact Or.inr ((hr.lookup_eq j).trans (Recency.lookup_put_of_ne hjk hj))
  | lfu c =>
    obtain ⟨xs, hs⟩ := hok
    by_cases hcap : c.mxsize = 0
    · -- a cache of capacity 0 stores nothing
      refine ⟨.lfu c, ?_, ⟨xs, hs⟩, fun _ _ h => Or.inr h⟩
      show (c.put k value).map _ = _
      unfold LFUCache.put
      rw [if_pos hcap]
      rfl
    · obtain ⟨c', xs', hput, hs', hself, hother⟩ := hs.put_lookup hk hcap hstuck value
      refine ⟨.lfu c', by show (c.put k value).map _ = _; rw [hput]; rfl, ⟨xs', hs'⟩, ?_⟩
      intro j w hj
      by_cases hjk : j = k
      · subst hjk
        exact Or.inl ⟨rfl, (Option.some.inj (hself.symm.trans hj)).symm⟩
      · exact Or.inr (hother j w hjk hj)

theorem put_stuck (hok : c.Ok) (hk : c.lookup k = none) (hstuck : c.Stuck) (value : Bytes) :
    c.put k value = none := by
  cases c with
  | lru c =>
    obtain ⟨l, hr⟩ := hok
    obtain ⟨hcap, hsize⟩ := hstuck
    rw [hr.size_eq] at hsize
    obtain rfl := List.length_eq_zero_iff.mp hsize
    show (c.put k value).map _ = _
    rw [LRUCache.put_stuck hr hcap]
    rfl
  | lfu c =>
    obtain ⟨xs, hs⟩ := hok
    show (c.put k value).map _ = _
    rw [hs.put_stuck hk hstuck]
    rfl

end Cache

end Kvs
