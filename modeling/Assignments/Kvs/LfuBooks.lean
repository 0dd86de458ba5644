import Assignments.Framework.Run
import Assignments.Kvs.Lfu

/-!
# The bookkeeping of the LFU cache

`LFUCache` keeps two numbers by hand, and its evictions trust both: `currentSize`, the number of
cached keys, and `minFreq`, the least count of a cached node. `Bookkept` says that they are right
and that the node an eviction would unlink is a cached entry.

* `Books` is the invariant behind it. `get` and `put` keep it while no count wraps (`Books.get`,
  `Books.put`); so does `del` of a key that is not cached.
* `del` of a cached key takes the node out and leaves both numbers as they are, so it breaks the
  bookkeeping of every cache (`Shape.del_hit_size`). Along a run in which no count wraps, the
  bookkeeping is right exactly when no `del` of the run finds its key cached
  (`bookkept_along_iff`).
-/

namespace Kvs

open Framework Function

namespace LFUCache

/-! ### Runs of the cache -/

/-- A call of the three public methods. -/
inductive Call where
  | get (key : Bytes)
  | put (key value : Bytes)
  | del (key : Bytes)
  deriving DecidableEq, Repr

/-- The state after a call. -/
def call (c : LFUCache) : Call → Option LFUCache
  | .get key => (c.get key).map Prod.fst
  | .put key value => c.put key value
  | .del key => c.del key

/-- `currentSize` and `minFreq` are right, and so is the victim of an eviction. -/
structure Bookkept (c : LFUCache) : Prop where
  size : c.currentSize = c.knMap.size
  bound : c.currentSize ≤ c.mxsize
  /-- `flMap[minFreq]` is a list with nodes. -/
  list : c.knMap.size ≠ 0 → ∃ list, c.flMap.find? c.minFreq = some list ∧ list.size ≠ 0
  least : ∀ key node d, c.knMap.find? key = some node → c.heap.data node = some d →
    c.minFreq ≤ d.cnt
  attained : c.knMap.size ≠ 0 → ∃ key node d, c.knMap.find? key = some node ∧
    c.heap.data node = some d ∧ d.cnt = c.minFreq
  /-- `list->tail->prev` is not the head sentinel but a cached node, and the key that leaves the
  index with it is its own. -/
  victim : ∀ list, c.knMap.size ≠ 0 → c.flMap.find? c.minFreq = some list →
    ∃ last d, c.heap.prev list.tail = some last ∧ last ≠ list.head ∧
      c.heap.data last = some d ∧ c.knMap.find? d.key = some last

/-- The bookkeeping, in terms of the lists. -/
structure Books (c : LFUCache) (xs : ℤ → List ℕ) : Prop where
  shape : c.Shape xs
  capacity : 1 ≤ c.mxsize
  size : c.currentSize = c.knMap.size
  bound : c.currentSize ≤ c.mxsize
  least : ∀ f, xs f ≠ [] → 1 ≤ f ∧ c.minFreq ≤ f ∧ xs c.minFreq ≠ []

variable {c c' : LFUCache} {xs : ℤ → List ℕ} {f : ℤ} {p : ℕ} {d : Node} {k : Bytes}

theorem Books.initial {capacity : ℤ} (h : 1 ≤ capacity) :
    (new capacity).Books fun _ => [] where
  shape := new_shape capacity
  capacity := h
  size := rfl
  bound := by show (0 : ℤ) ≤ capacity; omega
  least f hf := absurd rfl hf

/-- A cache with keys has nodes in the list of `minFreq`. -/
theorem Books.minFreq_ne_nil (hb : c.Books xs) (hne : c.knMap.size ≠ 0) : xs c.minFreq ≠ [] := by
  obtain ⟨k, p, hk⟩ : ∃ k p, c.knMap.find? k = some p := by
    by_contra hnone
    push Not at hnone
    exact hne ((SortedMap.size_eq_zero_iff _).mpr fun k =>
      Option.eq_none_iff_forall_ne_some.mpr (hnone k))
  obtain ⟨d, -, -, hp⟩ := hb.shape.of_find? hk
  exact (hb.least d.cnt (List.ne_nil_of_mem hp)).2.2

theorem Books.bookkept (hb : c.Books xs) : c.Bookkept where
  size := hb.size
  bound := hb.bound
  list hne := by
    obtain ⟨p, hp⟩ := List.exists_mem_of_ne_nil _ (hb.minFreq_ne_nil hne)
    obtain ⟨list, hlist⟩ := hb.shape.lists.exists_list hp
    refine ⟨list, hlist, ?_⟩
    have hlen := List.length_pos_of_mem hp
    rw [(hb.shape.lists.linked _ _ hlist).2]
    omega
  least k p d hk hd := by
    obtain ⟨d', hd', -, hp⟩ := hb.shape.of_find? hk
    obtain rfl := Option.some.inj (hd.symm.trans hd')
    exact (hb.least d.cnt (List.ne_nil_of_mem hp)).2.1
  attained hne := by
    obtain ⟨p, hp⟩ := List.exists_mem_of_ne_nil _ (hb.minFreq_ne_nil hne)
    obtain ⟨d, hd, hcnt⟩ := hb.shape.cnt _ p hp
    exact ⟨d.key, p, d, hb.shape.find?_of_mem hp hd, hd, hcnt⟩
  victim list hne hlist := by
    have hlinked := (hb.shape.lists.linked _ _ hlist).1
    obtain ⟨p, hlast⟩ := Option.ne_none_iff_exists'.mp
      (mt List.getLast?_eq_none_iff.mp (hb.minFreq_ne_nil hne))
    have hp : p ∈ xs c.minFreq := List.mem_of_getLast? hlast
    obtain ⟨d, hd, -⟩ := hb.shape.cnt _ p hp
    refine ⟨p, d, by rw [hlinked.prev_tail, hlast]; rfl, ?_, hd, hb.shape.find?_of_mem hp hd⟩
    -- the sentinel is not one of the nodes
    rintro rfl
    exact (List.nodup_cons.mp hlinked.nodup).1 (List.mem_append_left _ hp)

/-! ### `get` and `put` keep the books -/

/-- The next count of a node of a cache with right books, as long as it is an `int`. -/
theorem Books.next_count (hb : c.Books xs) (hp : p ∈ xs d.cnt) (hcnt : d.cnt < 2 ^ 31 - 1) :
    int32 (d.cnt + 1) = d.cnt + 1 := by
  have hpos := (hb.least d.cnt (List.ne_nil_of_mem hp)).1
  exact int32_of_range (by omega) (by omega)

/-- Raising a count that does not wrap keeps the books. -/
theorem Raised.books (hb : c.Books xs) (hp : p ∈ xs d.cnt) (hcnt : d.cnt < 2 ^ 31 - 1)
    (hr : Raised c xs p d c') : c'.Books (move xs d.cnt p) := by
  have hf := hb.least d.cnt (List.ne_nil_of_mem hp)
  have hint := hb.next_count hp hcnt
  have hne : d.cnt + 1 ≠ d.cnt := by omega
  have hmove : move xs d.cnt p =
      update (update xs d.cnt ((xs d.cnt).erase p)) (d.cnt + 1) (p :: xs (d.cnt + 1)) := by
    rw [move, hint]
  have hnext : move xs d.cnt p (d.cnt + 1) = p :: xs (d.cnt + 1) := by
    rw [hmove, update_self]
  have hthis : move xs d.cnt p d.cnt = (xs d.cnt).erase p := by
    rw [hmove, update_of_ne hne.symm, update_self]
  have hother : ∀ g, g ≠ d.cnt → g ≠ d.cnt + 1 → move xs d.cnt p g = xs g := by
    intro g h₁ h₂
    rw [hmove, update_of_ne h₂, update_of_ne h₁]
  -- every count in use was in use before, or is the raised one
  have huse : ∀ g, move xs d.cnt p g ≠ [] → xs g ≠ [] ∨ g = d.cnt + 1 := by
    intro g hg
    by_cases h₂ : g = d.cnt + 1
    · exact Or.inr h₂
    · refine Or.inl fun hnil => hg ?_
      by_cases h₁ : g = d.cnt
      · rw [h₁, hthis, ← h₁, hnil]; rfl
      · rw [hother g h₁ h₂, hnil]
  refine ⟨hr.shape, ?_, ?_, ?_, fun g hg => ?_⟩
  · rw [hr.mxsize]; exact hb.capacity
  · rw [hr.currentSize, hr.knMap]; exact hb.size
  · rw [hr.currentSize, hr.mxsize]; exact hb.bound
  · have hpos : 1 ≤ g := by
      rcases huse g hg with h | h
      · exact (hb.least g h).1
      · omega
    refine ⟨hpos, ?_⟩
    rw [hr.minFreq]
    split_ifs with hbump
    · -- the list of `minFreq` has become empty, and the node is in the next one
      obtain ⟨hmin, hnil⟩ := hbump
      rw [← hmin, hint, hnext]
      refine ⟨?_, List.cons_ne_nil _ _⟩
      rcases huse g hg with h | h
      · have hge := (hb.least g h).2.1
        have : g ≠ d.cnt := by rintro rfl; exact hg (hthis.trans hnil)
        omega
      · omega
    · constructor
      · rcases huse g hg with h | h
        · exact (hb.least g h).2.1
        · omega
      · by_cases h₁ : c.minFreq = d.cnt
        · rw [h₁, hthis]
          exact fun hnil => hbump ⟨h₁.symm, hnil⟩
        · by_cases h₂ : c.minFreq = d.cnt + 1
          · rw [h₂, hnext]; exact List.cons_ne_nil _ _
          · rw [hother _ h₁ h₂]; exact hf.2.2

/-- The key is not cached, or its count can be raised by one. -/
def CanCount (c : LFUCache) (key : Bytes) : Prop :=
  ∀ node ∈ c.knMap.find? key, ∀ d ∈ c.heap.data node, d.cnt < 2 ^ 31 - 1

instance (c : LFUCache) (key : Bytes) : Decidable (c.CanCount key) :=
  inferInstanceAs (Decidable (∀ node ∈ c.knMap.find? key, ∀ d ∈ c.heap.data node, _))

theorem Books.get (hb : c.Books xs) (hcnt : c.CanCount k) :
    ∃ c' v xs', c.get k = some (c', v) ∧ c'.Books xs' := by
  cases hk : c.knMap.find? k with
  | none => exact ⟨c, notFound, xs, get_miss hk, hb⟩
  | some p =>
    obtain ⟨d, hd, -, hp⟩ := hb.shape.of_find? hk
    obtain ⟨c', hget, hr⟩ := hb.shape.get_hit hk hd
    exact ⟨c', d.value, _, hget, hr.books hb hp (hcnt p hk d hd)⟩

/-- The books of a cache with room for one more key; `minFreq` may be out of date. -/
structure Room (c : LFUCache) (xs : ℤ → List ℕ) : Prop where
  shape : c.Shape xs
  capacity : 1 ≤ c.mxsize
  size : c.currentSize = c.knMap.size
  bound : c.currentSize < c.mxsize
  pos : ∀ f, xs f ≠ [] → 1 ≤ f

/-- A full cache has a victim: the last node of the list of `minFreq`. -/
theorem Books.exists_victim (hb : c.Books xs) (hfull : c.currentSize = c.mxsize) :
    ∃ p d, p ∈ (xs c.minFreq).getLast? ∧ c.heap.data p = some d ∧ d.cnt = c.minFreq := by
  have hne : c.knMap.size ≠ 0 := by
    have h₁ := hb.capacity
    have h₂ := hb.size
    omega
  obtain ⟨p, hlast⟩ := Option.ne_none_iff_exists'.mp
    (mt List.getLast?_eq_none_iff.mp (hb.minFreq_ne_nil hne))
  obtain ⟨d, hd, hcnt⟩ := hb.shape.cnt _ p (List.mem_of_getLast? hlast)
  exact ⟨p, d, hlast, hd, hcnt⟩

/-- **An eviction** takes the victim out and leaves room. -/
theorem Books.evict (hb : c.Books xs) (hfull : c.currentSize = c.mxsize)
    (hlast : p ∈ (xs c.minFreq).getLast?) (hd : c.heap.data p = some d) :
    ∃ c', c.makeRoom = some c' ∧ c'.Room (update xs c.minFreq ((xs c.minFreq).erase p)) ∧
      c'.knMap = c.knMap.erase d.key ∧ c'.mxsize = c.mxsize ∧ c.heap.size ≤ c'.heap.size ∧
      ∀ q, q < c.heap.size → c'.heap.data q = c.heap.data q := by
  have hp : p ∈ xs c.minFreq := List.mem_of_getLast? hlast
  obtain ⟨c', hroom, hs', hkn, hsame⟩ := hb.shape.makeRoom_full hfull hlast hd
  have hsize : c'.knMap.size + 1 = c.knMap.size := by
    rw [hkn]
    exact SortedMap.size_erase_of_find?_some _ (hb.shape.find?_of_mem hp hd)
  refine ⟨_, hroom, ⟨⟨hs'.lists, hs'.cnt, hs'.index⟩, ?_, ?_, ?_, fun g hg => ?_⟩,
    hkn, hsame.mxsize,
    hsame.size, hsame.data⟩
  · show 1 ≤ c'.mxsize
    rw [hsame.mxsize]
    exact hb.capacity
  · show c'.currentSize - 1 = c'.knMap.size
    rw [hsame.currentSize, hb.size]
    omega
  · show c'.currentSize - 1 < c'.mxsize
    rw [hsame.currentSize, hsame.mxsize]
    omega
  · by_cases h : g = c.minFreq
    · subst h
      exact (hb.least _ (List.ne_nil_of_mem hp)).1
    · rw [update_of_ne h] at hg
      exact (hb.least g hg).1

theorem Books.room (hb : c.Books xs) (hfull : c.currentSize ≠ c.mxsize) :
    c.makeRoom = some c ∧ c.Room xs :=
  ⟨if_neg hfull, hb.shape, hb.capacity, hb.size, lt_of_le_of_ne hb.bound hfull,
    fun f hf => (hb.least f hf).1⟩

/-- After the eviction test there is room for one more key. -/
theorem Books.makeRoom (hb : c.Books xs) :
    ∃ c' xs', c.makeRoom = some c' ∧ c'.Room xs' ∧
      ∀ j, c.knMap.find? j = none → c'.knMap.find? j = none := by
  by_cases hfull : c.currentSize = c.mxsize
  · obtain ⟨p, d, hlast, hd, -⟩ := hb.exists_victim hfull
    obtain ⟨c', hroom, hr, hkn, -, -, -⟩ := hb.evict hfull hlast hd
    refine ⟨c', _, hroom, hr, fun j hj => ?_⟩
    rw [hkn, SortedMap.find?_erase]
    split_ifs
    · rfl
    · exact hj
  · obtain ⟨hroom, hr⟩ := hb.room hfull
    exact ⟨c, xs, hroom, hr, fun _ hj => hj⟩

/-- **A new key** in a cache with room: count 1 is then the least one in use. -/
theorem Room.insertNew (hr : c.Room xs) (hk : c.knMap.find? k = none) (value : Bytes) :
    ∃ c' n, c.insertNew k value = some c' ∧ c.heap.size ≤ n ∧
      c'.Books (update xs 1 (n :: xs 1)) ∧ c'.knMap = c.knMap.insert k n ∧
      c'.heap.data n = some ⟨k, value, 1⟩ ∧
      (∀ q, q < c.heap.size → c'.heap.data q = c.heap.data q) ∧ c'.mxsize = c.mxsize := by
  obtain ⟨c', n, hins, hn, hs', hkn, hnode, hdata, hmx, hmin, hcur⟩ := hr.shape.insertNew hk value
  have hsize : c'.knMap.size = c.knMap.size + 1 := by
    rw [hkn]
    exact SortedMap.size_insert_of_find?_none _ _ hk
  have hone : update xs 1 (n :: xs 1) 1 = n :: xs 1 := update_self _ _ _
  refine ⟨c', n, hins, hn, ⟨hs', ?_, ?_, ?_, fun g hg => ?_⟩, hkn, hnode, hdata, hmx⟩
  · rw [hmx]; exact hr.capacity
  · rw [hcur, hsize, hr.size]; omega
  · have := hr.bound
    rw [hcur, hmx]; omega
  · rw [hmin, hone]
    have hpos : 1 ≤ g := by
      by_cases h : g = 1
      · omega
      · rw [update_of_ne h] at hg
        exact hr.pos g hg
    exact ⟨hpos, hpos, List.cons_ne_nil _ _⟩

theorem Books.mxsize_ne_zero (hb : c.Books xs) : c.mxsize ≠ 0 := by
  have := hb.capacity
  omega

theorem Books.put (hb : c.Books xs) (hcnt : c.CanCount k) (value : Bytes) :
    ∃ c' xs', c.put k value = some c' ∧ c'.Books xs' := by
  cases hk : c.knMap.find? k with
  | some p =>
    obtain ⟨d, hd, -, hp⟩ := hb.shape.of_find? hk
    obtain ⟨c', hput, hr⟩ := hb.shape.put_hit hb.mxsize_ne_zero hk hd value
    exact ⟨c', _, hput, Raised.books (d := { d with value }) hb hp (hcnt p hk d hd) hr⟩
  | none =>
    obtain ⟨c₁, xs₁, hroom, hr₁, habs₁⟩ := hb.makeRoom
    obtain ⟨c₂, n, hins, -, hb₂, -, -, -, -⟩ := hr₁.insertNew (habs₁ k hk) value
    refine ⟨c₂, _, ?_, hb₂⟩
    rw [put_miss hb.mxsize_ne_zero hk, hroom, Option.bind_some, hins]

/-! ### Where `del` breaks them -/

/-- `del` of a cached key: one key fewer, and the same `currentSize`. -/
theorem Shape.del_hit_size (hs : c.Shape xs) (hk : c.knMap.find? k = some p)
    (hdel : c.del k = some c') :
    c'.knMap.size + 1 = c.knMap.size ∧ c'.currentSize = c.currentSize := by
  obtain ⟨d, hd, -, -⟩ := hs.of_find? hk
  obtain ⟨c'', hdel', -, hkn, hsame⟩ := hs.del_hit hk hd
  obtain rfl := Option.some.inj (hdel.symm.trans hdel')
  rw [hkn]
  exact ⟨SortedMap.size_erase_of_find?_some _ hk, hsame.currentSize⟩

/-- The call is not a `del` of a cached key. -/
def Harmless (c : LFUCache) : Call → Prop
  | .del key => c.knMap.find? key = none
  | _ => True

/-- The call makes no count wrap. -/
def NoWrap (c : LFUCache) : Call → Prop
  | .get key | .put key _ => c.CanCount key
  | .del _ => True

instance (c : LFUCache) : ∀ a : Call, Decidable (c.NoWrap a)
  | .get key | .put key _ => inferInstanceAs (Decidable (c.CanCount key))
  | .del _ => .isTrue trivial

theorem Books.call (hb : c.Books xs) {a : Call} (ha : c.Harmless a ∧ c.NoWrap a) :
    ∃ c', c.call a = some c' ∧ ∃ xs', c'.Books xs' := by
  cases a with
  | get k =>
    obtain ⟨c', v, xs', hget, hb'⟩ := hb.get ha.2
    exact ⟨c', by show (c.get k).map Prod.fst = _; rw [hget]; rfl, xs', hb'⟩
  | put k value =>
    obtain ⟨c', xs', hput, hb'⟩ := hb.put ha.2 value
    exact ⟨c', hput, xs', hb'⟩
  | del k => exact ⟨c, del_miss ha.1, xs, hb⟩

/-- A run whose calls are harmless ends with right books. -/
theorem Books.run {capacity : ℤ} (hcap : 1 ≤ capacity) {calls : List Call}
    (h : Along LFUCache.call (fun c a => c.Harmless a ∧ c.NoWrap a) (new capacity) calls) :
    ∃ c, Framework.run LFUCache.call (new capacity) calls = some c ∧ ∃ xs, c.Books xs :=
  run_invariant (fun _ _ ⟨_, hb⟩ ha => hb.call ha) ⟨_, Books.initial hcap⟩ h

/-- A run that makes no count wrap, and leaves right books after each of its calls, is harmless. -/
theorem along_of_bookkept {capacity : ℤ} (hcap : 1 ≤ capacity) {calls : List Call}
    (hwrap : Along call NoWrap (new capacity) calls)
    (h : ∀ done rest, calls = done ++ rest →
      ∃ c, run call (new capacity) done = some c ∧ c.Bookkept) :
    Along call (fun c a => c.Harmless a ∧ c.NoWrap a) (new capacity) calls := by
  induction calls using List.reverseRecOn with
  | nil => trivial
  | append_singleton calls a ih =>
    obtain ⟨hwrap, hlast⟩ := (along_concat _ _ _).mp hwrap
    have hcalls := ih hwrap fun done rest hsplit =>
      h done (rest ++ [a]) (by rw [hsplit, List.append_assoc])
    refine (along_concat _ _ _).mpr ⟨hcalls, fun c hrun => ⟨?_, hlast c hrun⟩⟩
    cases a with
    | get k => trivial
    | put k value => trivial
    | del k =>
      obtain ⟨c₀, hrun₀, xs, hb⟩ := Books.run hcap hcalls
      obtain rfl := Option.some.inj (hrun.symm.trans hrun₀)
      show c.knMap.find? k = none
      cases hk : c.knMap.find? k with
      | none => rfl
      | some p =>
        -- the sizes before and after the `del` cannot both be right
        obtain ⟨c', hrun', hbooks'⟩ := h (calls ++ [.del k]) [] (List.append_nil _).symm
        rw [run_append, hrun, Option.bind_some, run_cons] at hrun'
        obtain ⟨c'', hdel, hc'⟩ := Option.bind_eq_some_iff.mp hrun'
        obtain rfl := Option.some.inj hc'
        obtain ⟨hsize, hcur⟩ := hb.shape.del_hit_size hk hdel
        have h₁ := hbooks'.size
        have h₂ := hb.size
        omega

/-- **The bookkeeping along a run** that makes no count wrap: every call returns and leaves right
books, exactly when no `del` of the run finds its key cached. -/
theorem bookkept_along_iff (capacity : ℤ) (hcap : 1 ≤ capacity) (calls : List Call)
    (hwrap : Along call NoWrap (new capacity) calls) :
    (∀ done rest, calls = done ++ rest →
        ∃ c, run call (new capacity) done = some c ∧ c.Bookkept) ↔
      ∀ done key rest c, calls = done ++ .del key :: rest →
        run call (new capacity) done = some c → c.knMap.find? key = none := by
  have hiff : (∀ done key rest c, calls = done ++ .del key :: rest →
      run call (new capacity) done = some c → c.knMap.find? key = none) ↔
      Along call (fun c a => c.Harmless a ∧ c.NoWrap a) (new capacity) calls := by
    rw [along_iff]
    constructor
    · intro h done a rest c hsplit hrun
      refine ⟨?_, (along_iff _ _).mp hwrap done a rest c hsplit hrun⟩
      cases a with
      | get k => trivial
      | put k value => trivial
      | del k => exact h done k rest c hsplit hrun
    · intro h done k rest c hsplit hrun
      exact (h done (.del k) rest c hsplit hrun).1
  rw [hiff]
  constructor
  · exact along_of_bookkept hcap hwrap
  · intro h done rest hsplit
    obtain ⟨c, hrun, xs, hb⟩ := Books.run hcap (hsplit ▸ h).left
    exact ⟨c, hrun, hb.bookkept⟩

/-- In a cache for one key, a hit, a `del` of another key and an eviction keep the books. -/
theorem bookkept_along_hit_evict :
    ∃ c, run call (new 1) [.put (ascii ['a']) (ascii ['1']), .get (ascii ['a']),
        .del (ascii ['b']), .put (ascii ['b']) (ascii ['2'])] = some c ∧ c.Bookkept := by
  refine (bookkept_along_iff 1 (by decide) _ (by decide)).mpr
    (fun done key rest c hsplit hrun => ?_)
    _ [] (List.append_nil _).symm
  -- the only `del` is the third call
  obtain ⟨rfl, rfl⟩ : done = [.put (ascii ['a']) (ascii ['1']), .get (ascii ['a'])] ∧
      key = ascii ['b'] := by
    rcases done with _ | ⟨x, _ | ⟨y, _ | ⟨z, _ | ⟨w, done⟩⟩⟩⟩ <;> simp_all
  have hmap : ((run call (new 1) [.put (ascii ['a']) (ascii ['1']), .get (ascii ['a'])]).map
      fun c => c.knMap.find? (ascii ['b'])) = some none := by decide
  rw [hrun] at hmap
  exact Option.some.inj hmap

/-- After `put` and `del` of one key the cache has no key left and `currentSize` is still 1; the
next `put` of a cache for one key then unlinks a sentinel. -/
theorem not_bookkept_after_del :
    (¬ ∃ c, run call (new 1) [.put (ascii ['a']) (ascii ['1']), .del (ascii ['a'])] = some c ∧
      c.Bookkept) ∧
    run call (new 1) [.put (ascii ['a']) (ascii ['1']), .del (ascii ['a']),
      .put (ascii ['b']) (ascii ['2'])] = none := by
  constructor
  · rintro ⟨c, hrun, hbooks⟩
    have hmap : ((run call (new 1) [.put (ascii ['a']) (ascii ['1']), .del (ascii ['a'])]).map
        fun c => (c.currentSize, c.knMap.size)) = some (1, 0) := by decide
    rw [hrun] at hmap
    obtain ⟨hcur, hsize⟩ := Prod.mk.inj (Option.some.inj hmap)
    have := hbooks.size
    omega
  · have hnone : (run call (new 1) [.put (ascii ['a']) (ascii ['1']), .del (ascii ['a']),
        .put (ascii ['b']) (ascii ['2'])]).isNone = true := by decide
    exact Option.isNone_iff_eq_none.mp hnone

end LFUCache

end Kvs
