import Assignments.Kvs.Server

/-!
# Is the cache transparent?

A server that answers as a plain finite map would is one whose cache cannot be noticed. The cache
of this server can: `put` writes the file and leaves the cache alone, so a key that is cached is
read from the cache with its old value (`stale_get`).

`Repr` relates the server to a plain map, and three conditions on the state before a call keep it
(`Coherent`): a `put` finds its key not cached, or cached with the value it writes; a `get` that
goes to the file finds a cache that can evict; and a record number stays below `2 ^ 22`, where
the 32-bit offset of `getkey` is exact. Under them every call answers as the plain map does
(`answers_of_along`).
-/

namespace Kvs

open Framework Function

/-- A value whose record reads back. -/
structure Storable (value : Bytes) : Prop where
  length_pos : 1 ≤ value.length
  length_le : value.length ≤ 255
  bytes : ∀ b ∈ value, b ≠ blank ∧ b ≠ 0
  ne_notFound : value ≠ notFound

instance (value : Bytes) : Decidable (Storable value) :=
  decidable_of_iff (1 ≤ value.length ∧ value.length ≤ 255 ∧
      (∀ b ∈ value, b ≠ blank ∧ b ≠ 0) ∧ value ≠ notFound)
    ⟨fun h => ⟨h.1, h.2.1, h.2.2.1, h.2.2.2⟩,
      fun h => ⟨h.length_pos, h.length_le, h.bytes, h.ne_notFound⟩⟩

/-- A plain finite map from keys to values. -/
abbrev Plain : Type := SortedMap Bytes Bytes

namespace Server

/-! ### Admissible calls -/

/-- The calls whose keys have 1 to 255 bytes and whose values are storable. -/
def Call.Admissible : Call → Prop
  | .put key value _ => (1 ≤ key.length ∧ key.length ≤ 255) ∧ Storable value
  | .get key _ => 1 ≤ key.length ∧ key.length ≤ 255
  | .del key => 1 ≤ key.length ∧ key.length ≤ 255

end Server

/-! ### The plain map -/

namespace Plain

open Server

def next (m : Plain) : Call → Plain
  | .put key value _ => m.insert key value
  | .get _ _ => m
  | .del key => m.erase key

/-- The empty string stands for an absent key. -/
def answer (m : Plain) : Call → Result
  | .put _ _ _ => .put 0
  | .get key _ => .get ((m.find? key).getD [])
  | .del key => .del (if (m.find? key).isSome then 1 else 0)

/-- The map after a list of calls. -/
def after (done : List Call) : Plain := done.foldl next SortedMap.empty

end Plain

namespace Server

/-! ### The relation -/

/-- Record `n` of the bucket of `key` holds `value`. -/
structure Holds (s : Store) (key value : Bytes) (n : ℕ) : Prop where
  lt : n < 2 ^ 22
  le_length : 512 * n + 512 ≤ (s.files (bucket key)).content.length
  field : (s.files (bucket key)).slice (512 * n + 256) 256 = pad value

/-- The files hold the map, and the cache a part of it. -/
structure Repr (s : Server) (m : Plain) : Prop where
  cache : ∃ c, s.cache = some c ∧ c.Ok ∧ ∀ k v, c.lookup k = some v → m.find? k = some v
  offsets : ∀ b, ∃ n : ℕ, s.store.fileoffsets b = n ∧ n ≤ 2 ^ 22 ∧
    (s.store.files b).content.length = 512 * n
  absent : ∀ k, m.find? k = none → s.store.filelocationmap.find? k = none
  live : ∀ k v, m.find? k = some v →
    ∃ n : ℕ, s.store.filelocationmap.find? k = some (n : ℤ) ∧ Holds s.store k v n
  storable : ∀ k v, m.find? k = some v → Storable v

/-- The state before a call in which it will not be found out. -/
def Coherent (s : Server) : Call → Prop
  | .put key value _ => (∀ w, s.lookup key = some w → w = value) ∧
      s.store.fileoffsets (bucket key) < 2 ^ 22
  | .get key _ => s.lookup key = none → s.store.filelocationmap.find? key ≠ none →
      ∀ c ∈ s.cache, ¬ c.Stuck
  | .del _ => True

instance (s : Server) : ∀ a, Decidable (s.Coherent a)
  | .put key value _ => inferInstanceAs (Decidable ((∀ w ∈ s.lookup key, w = value) ∧
      s.store.fileoffsets (bucket key) < 2 ^ 22))
  | .get key _ => inferInstanceAs (Decidable (s.lookup key = none →
      s.store.filelocationmap.find? key ≠ none → ∀ c ∈ s.cache, ¬ c.Stuck))
  | .del _ => .isTrue trivial

variable {s : Server} {m : Plain}

/-- The empty store represents the empty map. -/
theorem Repr.initial {cachetype cachecapacity : ℤ} (htype : cachetype = 1 ∨ cachetype = 2) :
    (start cachetype cachecapacity).Repr SortedMap.empty := by
  obtain ⟨c, hc⟩ : ∃ c, Cache.new cachetype cachecapacity = some c := by
    rcases htype with rfl | rfl
    · obtain ⟨c, hnew, -⟩ := LRUCache.new_repr cachecapacity
      exact ⟨.lru c, by unfold Cache.new; rw [if_pos rfl, hnew]; rfl⟩
    · exact ⟨_, rfl⟩
  obtain ⟨hok, hnone⟩ := Cache.new_spec hc
  refine ⟨⟨c, hc, hok, fun k v h => ?_⟩, fun b => ⟨0, rfl, by decide, rfl⟩, fun _ _ => rfl,
    fun k v h => absurd h (by simp), fun k v h => absurd h (by simp)⟩
  rw [hnone k] at h
  exact absurd h (by simp)

/-- The record of a key survives what leaves the contents of the files alone. -/
theorem Holds.sameData {st st' : Store} (hd : Store.SameData st st') {k v : Bytes} {n : ℕ}
    (h : Holds st k v n) : Holds st' k v n := by
  refine ⟨h.lt, by rw [hd.content]; exact h.le_length, ?_⟩
  rw [← h.field]
  unfold File.slice
  rw [hd.content]

section

variable (hr : s.Repr m)

include hr

/-- The value of a live key, from its record. -/
theorem Repr.getkey {k v : Bytes} (hk : m.find? k = some v) (stack : Bytes) :
    (s.store.getkey k stack).2 = v := by
  obtain ⟨n, hn, hholds⟩ := hr.live k v hk
  have hv := hr.storable k v hk
  rw [Store.getkey_live hn hholds.lt, hholds.field, decode_pad hv.length_le hv.bytes]

/-- Only the cache and the positions of the descriptors change. -/
theorem Repr.sameData {st : Store} (hd : Store.SameData s.store st) {c : Cache} (hok : c.Ok)
    (hsub : ∀ k v, c.lookup k = some v → m.find? k = some v) :
    (Server.mk st (some c)).Repr m where
  cache := ⟨c, rfl, hok, hsub⟩
  offsets b := by
    obtain ⟨n, hn, hle, hlen⟩ := hr.offsets b
    exact ⟨n, by show st.fileoffsets b = n; rw [hd.fileoffsets, hn], hle,
      by show (st.files b).content.length = _; rw [hd.content, hlen]⟩
  absent k hk := by
    show st.filelocationmap.find? k = none
    rw [hd.filelocationmap]
    exact hr.absent k hk
  live k v hk := by
    obtain ⟨n, hn, hholds⟩ := hr.live k v hk
    refine ⟨n, ?_, hholds.sameData hd⟩
    show st.filelocationmap.find? k = _
    rw [hd.filelocationmap, hn]
  storable := hr.storable

/-! ### The three calls -/

theorem Repr.put {k v : Bytes} (hk : k.length ≤ 255) (hv : Storable v) (memory : ℕ → Byte)
    (hcache : ∀ w, s.lookup k = some w → w = v) (hoff : s.store.fileoffsets (bucket k) < 2 ^ 22) :
    (s.put k v memory).Repr (m.insert k v) := by
  obtain ⟨c, hc, hok, hsub⟩ := hr.cache
  obtain ⟨n, hn, hle, hlen⟩ := hr.offsets (bucket k)
  have hnlt : n < 2 ^ 22 := by rw [hn] at hoff; omega
  have hfile : (s.put k v memory).store.files =
      update s.store.files (bucket k)
        ((s.store.files (bucket k)).append (record k v memory)) := rfl
  refine ⟨⟨c, hc, hok, fun j w hj => ?_⟩, fun b => ?_, fun j hj => ?_, fun j w hj => ?_,
    fun j w hj => ?_⟩
  · -- the cached value of `k`, if any, is the one written
    rw [SortedMap.find?_insert]
    split_ifs with hjk
    · rw [hcache w (by unfold lookup; rw [hc, Option.bind_some, ← hjk]; exact hj)]
    · exact hsub j w hj
  · rw [hfile]
    show ∃ n : ℕ, update s.store.fileoffsets (bucket k)
      (int32 (s.store.fileoffsets (bucket k) + 1)) b = n ∧ _
    by_cases hb : b = bucket k
    · subst hb
      refine ⟨n + 1, ?_, hnlt, ?_⟩
      · rw [update_self, hn, int32_of_range (by omega) (by omega)]
        rfl
      · rw [update_self, File.append_content, List.length_append, hlen, record_length]
        omega
    · rw [update_of_ne hb, update_of_ne hb]
      exact hr.offsets b
  · -- a key that is absent afterwards is another key, and was absent before
    rw [SortedMap.find?_insert] at hj
    split_ifs at hj with hjk
    show (s.store.filelocationmap.insert k _).find? j = none
    rw [SortedMap.find?_insert_of_ne _ _ hjk]
    exact hr.absent j hj
  · rw [SortedMap.find?_insert] at hj
    split_ifs at hj with hjk
    · -- the new record is the last one of its file
      obtain rfl := Option.some.inj hj
      subst hjk
      refine ⟨n, ?_, hnlt, ?_, ?_⟩
      · show (s.store.filelocationmap.insert j _).find? j = _
        rw [SortedMap.find?_insert_self, hn]
      · rw [hfile, update_self, File.append_content, List.length_append, hlen,
          record_length]
      · rw [hfile, update_self, ← hlen, File.slice_append_new,
          record_drop hk hv.length_le]
    · -- older records are where they were
      obtain ⟨i, hi, hholds⟩ := hr.live j w hj
      refine ⟨i, ?_, hholds.lt, ?_, ?_⟩
      · show (s.store.filelocationmap.insert k _).find? j = _
        rw [SortedMap.find?_insert_of_ne _ _ hjk, hi]
      · rw [hfile]
        by_cases hb : bucket j = bucket k
        · have hle' := hholds.le_length
          rw [hb] at hle'
          rw [hb, update_self, File.append_content, List.length_append]
          omega
        · rw [update_of_ne hb]
          exact hholds.le_length
      · rw [hfile]
        by_cases hb : bucket j = bucket k
        · have hle' := hholds.le_length
          have hfield := hholds.field
          rw [hb] at hle' hfield
          rw [hb, update_self, File.slice_append_old (by omega), hfield]
        · rw [update_of_ne hb]
          exact hholds.field
  · rw [SortedMap.find?_insert] at hj
    split_ifs at hj with hjk
    · exact Option.some.inj hj ▸ hv
    · exact hr.storable j w hj

theorem Repr.get (k stack : Bytes)
    (hroom : s.lookup k = none → s.store.filelocationmap.find? k ≠ none →
      ∀ c ∈ s.cache, ¬ c.Stuck) :
    ∃ s', s.get k stack = some (s', (m.find? k).getD []) ∧ s'.Repr m := by
  obtain ⟨c, hc, hok, hsub⟩ := hr.cache
  have hlookup : s.lookup k = c.lookup k := by unfold lookup; rw [hc]; rfl
  cases hk : c.lookup k with
  | some v =>
    have hm := hsub k v hk
    obtain ⟨c', hget, hok', hlook⟩ :=
      get_hit hc hok hk (hr.storable k v hm).ne_notFound stack
    refine ⟨_, by rw [hget, hm]; rfl, hr.sameData ⟨fun _ => rfl, rfl, rfl⟩ hok' fun j w hj => ?_⟩
    rw [hlook] at hj
    exact hsub j w hj
  | none =>
    have hd := Store.getkey_sameData s.store k stack
    cases hm : m.find? k with
    | none =>
      have hfile : (s.store.getkey k stack).2 = notFound := by
        rw [Store.getkey_absent (hr.absent k hm)]
      exact ⟨_, get_absent hc hok hk hfile, hr.sameData hd hok hsub⟩
    | some v =>
      have hfile := hr.getkey hm stack
      obtain ⟨n, hn, -⟩ := hr.live k v hm
      have hstuck : ¬ c.Stuck :=
        hroom (hlookup.trans hk) (by rw [hn]; simp) c hc
      have hne : (s.store.getkey k stack).2 ≠ notFound := by
        rw [hfile]
        exact (hr.storable k v hm).ne_notFound
      obtain ⟨c', hget, hok', hlook⟩ := get_file hc hok hk hne hstuck
      rw [hfile] at hget hlook
      refine ⟨_, hget, hr.sameData hd hok' fun j w hj => ?_⟩
      -- what is cached now was cached before, or is what was read
      rcases hlook j w hj with ⟨rfl, rfl⟩ | hj
      · exact hm
      · exact hsub j w hj

theorem Repr.del (k : Bytes) :
    ∃ s', s.del k = some (s', if (m.find? k).isSome then 1 else 0) ∧ s'.Repr (m.erase k) := by
  obtain ⟨c, hc, hok, hsub⟩ := hr.cache
  obtain ⟨c', hdel, hok', hlook⟩ := del_eq hc hok k
  have hmap : (s.store.deletekey k).1 =
        { s.store with filelocationmap := s.store.filelocationmap.erase k } ∧
      (s.store.deletekey k).2 = if (m.find? k).isSome then 1 else 0 := by
    unfold Store.deletekey
    cases hm : m.find? k with
    | none =>
      rw [hr.absent k hm]
      exact ⟨by rw [SortedMap.erase_of_find?_none _ (hr.absent k hm)], rfl⟩
    | some v =>
      obtain ⟨n, hn, -⟩ := hr.live k v hm
      rw [hn]
      exact ⟨rfl, rfl⟩
  rw [hmap.1, hmap.2] at hdel
  refine ⟨_, hdel, ⟨c', rfl, hok', fun j w hj => ?_⟩, hr.offsets, fun j hj => ?_, fun j w hj => ?_,
    fun j w hj => ?_⟩
  · rw [hlook] at hj
    split_ifs at hj with hjk
    rw [SortedMap.find?_erase_of_ne _ hjk]
    exact hsub j w hj
  · show (s.store.filelocationmap.erase k).find? j = none
    rw [SortedMap.find?_erase] at hj ⊢
    split_ifs at hj ⊢ with hjk
    · rfl
    · exact hr.absent j hj
  · show ∃ n : ℕ, (s.store.filelocationmap.erase k).find? j = _ ∧ _
    rw [SortedMap.find?_erase] at hj ⊢
    split_ifs at hj ⊢ with hjk
    obtain ⟨n, hn, hholds⟩ := hr.live j w hj
    exact ⟨n, hn, hholds.lt, hholds.le_length, hholds.field⟩
  · rw [SortedMap.find?_erase] at hj
    split_ifs at hj with hjk
    exact hr.storable j w hj

/-! ### Runs -/

/-- **One call.** A coherent call answers as the plain map does. -/
theorem Repr.call {a : Call} (ha : a.Admissible) (hc : s.Coherent a) :
    ∃ s', s.call a = some (s', m.answer a) ∧ s'.Repr (m.next a) := by
  cases a with
  | put k v memory => exact ⟨_, rfl, hr.put ha.1.2 ha.2 memory hc.1 hc.2⟩
  | get k stack =>
    obtain ⟨s', hget, hr'⟩ := hr.get k stack hc
    exact ⟨s', by show (s.get k stack).map _ = _; rw [hget]; rfl, hr'⟩
  | del k =>
    obtain ⟨s', hdel, hr'⟩ := hr.del k
    exact ⟨s', by show (s.del k).map _ = _; rw [hdel]; rfl, hr'⟩

end

/-- **The cache is transparent along coherent runs.** With an LRU or an LFU cache of any capacity,
in every run of admissible calls each of which is coherent in the state it is made in, every call
returns, and returns what a plain finite map would. -/
theorem answers_of_along (cachetype cachecapacity : ℤ) (htype : cachetype = 1 ∨ cachetype = 2)
    (calls : List Call) (hadm : ∀ a ∈ calls, a.Admissible)
    (hrun : Along next Coherent (start cachetype cachecapacity) calls) :
    ∀ done a rest, calls = done ++ a :: rest →
      ∃ s s', run next (start cachetype cachecapacity) done = some s ∧
        s.call a = some (s', (Plain.after done).answer a) := by
  intro done a rest hsplit
  have hstep : ∀ s m a, Repr s m → s.Coherent a ∧ a.Admissible →
      ∃ s', next s a = some s' ∧ s'.Repr (m.next a) := by
    intro s m a hr ha
    obtain ⟨s', hcall, hr'⟩ := hr.call ha.2 ha.1
    exact ⟨s', by unfold next; rw [hcall]; rfl, hr'⟩
  have halong := (hsplit ▸ hrun).left.and_of_forall fun b hb =>
    hadm b (by rw [hsplit]; exact List.mem_append_left _ hb)
  obtain ⟨s, hs, hr⟩ := run_simulation hstep (Repr.initial htype) halong
  have hc : s.Coherent a := (along_iff _ _).mp hrun done a rest s hsplit hs
  obtain ⟨s', hcall, -⟩ := hr.call (hadm a (by rw [hsplit]; simp)) hc
  exact ⟨s, s', hs, hcall⟩

/-- With an LRU cache for one key: the key is read and cached, put again with its value, and
read. -/
theorem answers_cached :
    ∃ s s', run next (start 1 1) [.put (ascii ['a']) (ascii ['1']) (fun _ => 0),
        .get (ascii ['a']) [], .put (ascii ['a']) (ascii ['1']) (fun _ => 0)] = some s ∧
      s.call (.get (ascii ['a']) []) = some (s', .get (ascii ['1'])) := by
  refine answers_of_along 1 1 (Or.inl rfl) [.put (ascii ['a']) (ascii ['1']) (fun _ => 0),
    .get (ascii ['a']) [], .put (ascii ['a']) (ascii ['1']) (fun _ => 0), .get (ascii ['a']) []]
    (fun a ha => ?_) (by decide +kernel) _ _ [] rfl
  simp only [List.mem_cons, List.not_mem_nil, or_false] at ha
  rcases ha with rfl | rfl | rfl | rfl
  · exact ⟨by decide, by decide +kernel⟩
  · exact ⟨by decide, by decide⟩
  · exact ⟨by decide, by decide +kernel⟩
  · exact ⟨by decide, by decide⟩

/-- The answer of the last of the calls. -/
def lastAnswer (s : Server) : List Call → Option Result
  | [] => none
  | [a] => (s.call a).map Prod.snd
  | a :: rest => (s.next a).bind fun s => lastAnswer s rest

/-- **A stale read.** `put(a, 1)`, `get(a)`, `put(a, 2)`, `get(a)`: a plain map answers the second
`get` with `2`, and both the LRU and the LFU cache answer it with `1`. -/
theorem stale_get :
    (∀ cachetype ∈ [(1 : ℤ), 2],
      (start cachetype 1).lastAnswer
        [.put (ascii ['a']) (ascii ['1']) (fun _ => 0), .get (ascii ['a']) [],
          .put (ascii ['a']) (ascii ['2']) (fun _ => 0), .get (ascii ['a']) []] =
        some (.get (ascii ['1']))) ∧
    (Plain.after [.put (ascii ['a']) (ascii ['1']) (fun _ => 0), .get (ascii ['a']) [],
      .put (ascii ['a']) (ascii ['2']) (fun _ => 0)]).answer (.get (ascii ['a']) []) =
        .get (ascii ['2']) := by
  decide +kernel

end Server

end Kvs
