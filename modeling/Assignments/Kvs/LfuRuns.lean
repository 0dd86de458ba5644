import Assignments.Kvs.LfuBooks

/-!
# Whole runs of the LFU cache

What the class `LFUCache` is for, stated without its pointers: a list of the cached keys, each with
its value, the number of times it was used and the time of its last use (`LeastUsed`). A new key
that finds the list full takes the place of the key used least, and of those the one whose last use
is the earliest.

The class has no clock and never looks for a minimum. It relies on two facts: `minFreq` is the least
count in use, which `Books` carries, and the nodes of one count stand in the order of their last
uses, which `Tracks` carries with a ghost `last` that gives the time of each node. And it counts
with `int`s, so a key that has been used 2^31 times has a count that is not its number of uses.

* `Tracks.raise` — a hit moves one node to the front of the next list, and its time is now;
* `Tracks.evict` — the last node of the list of `minFreq` is the key that the reference drops;
* `lfu_refines_iff` — gets and puts on a new cache lead to the reference list, just if no key is
  used 2^31 times while it is cached.
-/

namespace Kvs

open Framework Function List

/-! ### The reference model -/

/-- A call that the eviction policy is about. -/
inductive Access where
  | get (key : Bytes)
  | put (key value : Bytes)
  deriving DecidableEq, Repr

/-- A cached key. -/
structure Use where
  key : Bytes
  value : Bytes
  count : ℕ
  last : ℕ
  deriving DecidableEq, Repr

/-- The cached keys, and the time. -/
structure LeastUsed where
  now : ℕ
  uses : List Use
  deriving DecidableEq, Repr

namespace LeastUsed

def empty : LeastUsed := ⟨0, []⟩

/-- `u` leaves before `w`: it was used less often, or as often and not as recently. -/
def Before (u w : Use) : Prop :=
  u.count < w.count ∨ u.count = w.count ∧ u.last < w.last

instance (u w : Use) : Decidable (Before u w) := by unfold Before; infer_instance

/-- The key that leaves before every other one is dropped. -/
def evict (uses : List Use) : List Use :=
  uses.filter fun u => ∃ w ∈ uses, Before w u

/-- The key is used once more, with `value` as its value. -/
def touch (now : ℕ) (key value : Bytes) (uses : List Use) : List Use :=
  uses.map fun u => if u.key = key then ⟨key, value, u.count + 1, now⟩ else u

/-- One call. -/
def step (cap : ℤ) (r : LeastUsed) : Access → LeastUsed
  | .get key =>
    ⟨r.now + 1, r.uses.map fun u =>
      if u.key = key then { u with count := u.count + 1, last := r.now } else u⟩
  | .put key value =>
    ⟨r.now + 1,
      if cap = 0 then r.uses
      else if key ∈ r.uses.map Use.key then touch r.now key value r.uses
      else ⟨key, value, 1, r.now⟩ ::
        if (r.uses.length : ℤ) = cap then evict r.uses else r.uses⟩

/-- The reference list after some calls. -/
def after (cap : ℤ) (calls : List Access) : LeastUsed := calls.foldl (step cap) empty

theorem map_key_touch (now : ℕ) (key value : Bytes) (uses : List Use) :
    (touch now key value uses).map Use.key = uses.map Use.key := by
  unfold touch
  rw [map_map]
  refine map_congr_left fun u _ => ?_
  by_cases hu : u.key = key <;> simp [hu]

theorem length_touch (now : ℕ) (key value : Bytes) (uses : List Use) :
    (touch now key value uses).length = uses.length :=
  length_map _

end LeastUsed

open LeastUsed

namespace LFUCache

/-! ### The lists in the order of the last uses -/

variable {c c' : LFUCache} {xs : ℤ → List ℕ} {last : ℕ → ℕ} {f : ℤ} {p : ℕ} {d : Node} {k : Bytes}
  {cap : ℤ} {r : LeastUsed} {u : Use}

/-- The state after a call of `get` or `put`. -/
def access (c : LFUCache) : Access → Option LFUCache
  | .get key => c.call (.get key)
  | .put key value => c.call (.put key value)

/-- A node of the cache is the use `u`, where `last` gives the times of the nodes. -/
def Holds (c : LFUCache) (xs : ℤ → List ℕ) (last : ℕ → ℕ) (u : Use) : Prop :=
  ∃ p, p ∈ xs u.count ∧ c.heap.data p = some ⟨u.key, u.value, u.count⟩ ∧ u.last = last p

/-- The lists `xs`, in the order of the times `last`, hold the uses of `r`. -/
structure Lined (c : LFUCache) (xs : ℤ → List ℕ) (last : ℕ → ℕ) (now : ℕ) (uses : List Use) :
    Prop where
  order : ∀ f, (xs f).Pairwise fun p q => last q < last p
  past : ∀ f p, p ∈ xs f → last p < now
  mem : ∀ u, u ∈ uses ↔ c.Holds xs last u
  keys : (uses.map Use.key).Nodup
  length : uses.length = c.knMap.size

/-- The cache `c` is the reference `r`. -/
structure Tracks (cap : ℤ) (c : LFUCache) (xs : ℤ → List ℕ) (last : ℕ → ℕ) (r : LeastUsed) :
    Prop extends Lined c xs last r.now r.uses where
  books : c.Books xs
  mxsize : c.mxsize = cap

theorem Shape.nodup (hs : c.Shape xs) (f : ℤ) : (xs f).Nodup := by
  cases hf : c.flMap.find? f with
  | none =>
    rw [hs.lists.absent f hf]
    exact nodup_nil
  | some list =>
    have hnodup := (hs.lists.linked f list hf).1.nodup
    exact ((nodup_cons.mp hnodup).2).sublist (sublist_append_left _ _)

/-- Two nodes with one key are one node. -/
theorem Shape.node_unique (hs : c.Shape xs) {q : ℕ} {g : ℤ} {e : Node} (hp : p ∈ xs f)
    (hd : c.heap.data p = some d) (hq : q ∈ xs g) (he : c.heap.data q = some e)
    (hkey : d.key = e.key) : p = q := by
  have hfindp := hs.find?_of_mem hp hd
  have hfindq := hs.find?_of_mem hq he
  rw [hkey] at hfindp
  exact Option.some.inj (hfindp.symm.trans hfindq)

theorem Shape.mem_move (hs : c.Shape xs) (hp : p ∈ xs f) (q : ℕ) (g : ℤ) :
    q ∈ move xs f p g ↔ q ∈ xs g ∧ q ≠ p ∨ q = p ∧ g = int32 (f + 1) := by
  unfold move
  by_cases hg : g = int32 (f + 1)
  · subst hg
    rw [update_self, mem_cons]
    have hnot : p ∉ xs (int32 (f + 1)) := fun h => int32_succ_ne f (hs.freq_unique h hp)
    constructor
    · rintro (rfl | hq)
      · exact .inr ⟨rfl, rfl⟩
      · exact .inl ⟨hq, fun e => hnot (e ▸ hq)⟩
    · rintro (⟨hq, -⟩ | ⟨rfl, -⟩)
      · exact .inr hq
      · exact .inl rfl
  · rw [update_of_ne hg]
    by_cases hf : g = f
    · subst hf
      rw [update_self, (hs.nodup g).mem_erase_iff]
      tauto
    · rw [update_of_ne hf]
      have hpg : p ∉ xs g := fun h => hf (hs.freq_unique h hp)
      constructor
      · exact fun hq => .inl ⟨hq, fun e => hpg (e ▸ hq)⟩
      · rintro (⟨hq, -⟩ | ⟨-, hg'⟩)
        · exact hq
        · exact absurd hg' hg

/-- A node of a cache with right books is one of the uses. -/
theorem Tracks.mem_uses (ht : Tracks cap c xs last r) (hp : p ∈ xs d.cnt)
    (hd : c.heap.data p = some d) :
    ∃ n : ℕ, (n : ℤ) = d.cnt ∧ (⟨d.key, d.value, n, last p⟩ : Use) ∈ r.uses := by
  have hpos := (ht.books.least d.cnt (ne_nil_of_mem hp)).1
  obtain ⟨n, hn⟩ := Int.eq_ofNat_of_zero_le (show (0 : ℤ) ≤ d.cnt by omega)
  refine ⟨n, hn.symm, (ht.mem _).mpr ⟨p, ?_, ?_, rfl⟩⟩
  · show p ∈ xs (n : ℤ)
    rw [← hn]
    exact hp
  · rw [hd, ← hn]

theorem Tracks.mem_keys_iff (ht : Tracks cap c xs last r) (k : Bytes) :
    k ∈ r.uses.map Use.key ↔ c.knMap.find? k ≠ none := by
  constructor
  · rintro hk
    obtain ⟨u, hu, rfl⟩ := mem_map.mp hk
    obtain ⟨p, hp, hd, -⟩ := (ht.mem u).mp hu
    rw [ht.books.shape.find?_of_mem hp hd]
    exact Option.some_ne_none _
  · intro hk
    obtain ⟨p, hfind⟩ := Option.ne_none_iff_exists'.mp hk
    obtain ⟨d, hd, rfl, hp⟩ := ht.books.shape.of_find? hfind
    obtain ⟨n, -, hmem⟩ := ht.mem_uses hp hd
    exact mem_map.mpr ⟨_, hmem, rfl⟩

/-! ### A hit -/

/-- **A hit.** The node goes to the front of the next list, and the key has been used once more. -/
theorem Tracks.raise (ht : Tracks cap c xs last r) (hp : p ∈ xs d.cnt)
    (hd : c.heap.data p = some d) (hcnt : d.cnt < 2 ^ 31 - 1) {value : Bytes}
    (hr : Raised c xs p { d with value } c') :
    Tracks cap c' (move xs d.cnt p) (update last p r.now)
      ⟨r.now + 1, touch r.now d.key value r.uses⟩ := by
  have hs := ht.books.shape
  have hint := ht.books.next_count hp hcnt
  have hpnow : update last p r.now p = r.now := update_self _ _ _
  have hother : ∀ q, q ≠ p → update last p r.now q = last q :=
    fun q hq => update_of_ne hq _ _
  refine ⟨⟨fun g => ?_, fun g q hq => ?_, fun u => ?_, ?_, ?_⟩,
    Raised.books (d := { d with value }) ht.books hp hcnt hr, hr.mxsize.trans ht.mxsize⟩
  · -- away from `p` the order is the old one, and `p` is used last
    have hold : ∀ g, p ∉ xs g → (xs g).Pairwise fun a b =>
        update last p r.now b < update last p r.now a := by
      intro g hpg
      refine (ht.order g).imp_of_mem fun {a b} ha hb hab => ?_
      rw [hother a fun e => hpg (e ▸ ha), hother b fun e => hpg (e ▸ hb)]
      exact hab
    have hnext : p ∉ xs (d.cnt + 1) := fun h => by
      have := hs.freq_unique h hp
      omega
    rw [move, hint]
    by_cases hg : g = d.cnt + 1
    · subst hg
      rw [update_self, pairwise_cons]
      refine ⟨fun q hq => ?_, hold _ hnext⟩
      rw [hpnow, hother q fun e => hnext (e ▸ hq)]
      exact ht.past _ q hq
    · rw [update_of_ne hg]
      by_cases hf : g = d.cnt
      · subst hf
        rw [update_self]
        refine ((ht.order _).sublist erase_sublist).imp_of_mem fun {a b} ha hb hab => ?_
        rw [hother a ((hs.nodup _).mem_erase_iff.mp ha).1,
          hother b ((hs.nodup _).mem_erase_iff.mp hb).1]
        exact hab
      · rw [update_of_ne hf]
        exact hold g fun h => hf (hs.freq_unique h hp)
  · rcases (hs.mem_move hp q g).mp hq with ⟨hq, hne⟩ | ⟨rfl, -⟩
    · rw [hother q hne]
      exact (ht.past g q hq).trans (Nat.lt_succ_self _)
    · rw [hpnow]
      exact Nat.lt_succ_self _
  · unfold touch
    rw [mem_map]
    constructor
    · rintro ⟨v, hv, rfl⟩
      obtain ⟨q, hq, hdq, hlast⟩ := (ht.mem v).mp hv
      by_cases hkey : v.key = d.key
      · -- the node of the key is `p`
        obtain rfl := hs.node_unique hp hd hq hdq hkey.symm
        obtain rfl := Option.some.inj (hd.symm.trans hdq)
        rw [if_pos hkey]
        refine ⟨p, (hs.mem_move hp p _).mpr (.inr ⟨rfl, ?_⟩), ?_, hpnow.symm⟩
        · push_cast
          exact hint.symm
        · rw [hr.node]
          push_cast
          rw [show int32 ((v.count : ℤ) + 1) = v.count + 1 from hint]
      · have hne : q ≠ p := by
          rintro rfl
          exact hkey (congrArg Node.key (Option.some.inj (hdq.symm.trans hd)))
        rw [if_neg hkey]
        refine ⟨q, (hs.mem_move hp q _).mpr (.inl ⟨hq, hne⟩), ?_, by rw [hother q hne, hlast]⟩
        rw [hr.data q (hs.lt_size hq) hne, hdq]
    · rintro ⟨q, hq, hdq, hlast⟩
      rcases (hs.mem_move hp q _).mp hq with ⟨hq, hne⟩ | ⟨rfl, hcount⟩
      · rw [hr.data q (hs.lt_size hq) hne] at hdq
        rw [hother q hne] at hlast
        refine ⟨u, (ht.mem u).mpr ⟨q, hq, hdq, hlast⟩, if_neg fun hkey => hne ?_⟩
        exact hs.node_unique hq hdq hp hd hkey
      · rw [hr.node] at hdq
        rw [hpnow] at hlast
        obtain ⟨hkey, hvalue, -⟩ := Node.mk.inj (Option.some.inj hdq)
        obtain ⟨n, hn, hmem⟩ := ht.mem_uses hp hd
        refine ⟨_, hmem, (if_pos rfl).trans ?_⟩
        obtain ⟨ukey, uvalue, ucount, ulast⟩ := u
        obtain rfl : ucount = n + 1 := by
          have : (ucount : ℤ) = n + 1 := hcount.trans (by rw [hint, hn])
          exact_mod_cast this
        rw [show ukey = d.key from hkey.symm, show uvalue = value from hvalue.symm,
          show ulast = r.now from hlast]
  · rw [map_key_touch]
    exact ht.keys
  · rw [length_touch, hr.knMap]
    exact ht.length

/-! ### A new key -/

/-- The last node of a list in order was used first. -/
theorem Lined.last_lt {now : ℕ} {uses : List Use} (hl : Lined c xs last now uses)
    (hlast : p ∈ (xs f).getLast?) {q : ℕ} (hq : q ∈ xs f) (hne : q ≠ p) : last p < last q := by
  obtain ⟨front, hfront⟩ := getLast?_eq_some_iff.mp hlast
  have horder := hl.order f
  rw [hfront] at hq horder
  have hqf : q ∈ front := by
    rcases mem_append.mp hq with h | h
    · exact h
    · exact absurd (mem_singleton.mp h) hne
  exact (pairwise_append.mp horder).2.2 q hqf p (mem_singleton.mpr rfl)

/-- The victim of the cache is the use that leaves before every other one. -/
theorem Tracks.evict_eq (ht : Tracks cap c xs last r) (hlast : p ∈ (xs c.minFreq).getLast?)
    {n : ℕ} (hn : (n : ℤ) = c.minFreq) (hd : c.heap.data p = some d)
    (hmem : (⟨d.key, d.value, n, last p⟩ : Use) ∈ r.uses) :
    LeastUsed.evict r.uses = r.uses.erase ⟨d.key, d.value, n, last p⟩ := by
  have hp : p ∈ xs c.minFreq := mem_of_getLast? hlast
  rw [(List.Nodup.of_map _ ht.keys).erase_eq_filter, LeastUsed.evict]
  refine filter_congr fun u hu => ?_
  obtain ⟨q, hq, hdq, hulast⟩ := (ht.mem u).mp hu
  have hleast := (ht.books.least _ (ne_nil_of_mem hq)).2.1
  rw [Bool.eq_iff_iff, decide_eq_true_iff, bne_iff_ne]
  constructor
  · rintro ⟨w, hw, hbefore⟩ rfl
    -- a use that leaves before the victim has its count, and is later in its list
    obtain ⟨q', hq', hdq', hwlast⟩ := (ht.mem w).mp hw
    have hwleast := (ht.books.least _ (ne_nil_of_mem hq')).2.1
    have hcount : (w.count : ℤ) = c.minFreq ∧ w.last < last p := by
      rcases hbefore with h | ⟨h, h'⟩
      · have : w.count < n := h
        omega
      · have : w.count = n := h
        exact ⟨by omega, h'⟩
    rw [hcount.1] at hq'
    by_cases hne : q' = p
    · subst hne
      exact absurd hcount.2 (by omega)
    · have := ht.last_lt hlast hq' hne
      omega
  · intro hne
    refine ⟨_, hmem, ?_⟩
    by_cases hcount : u.count = n
    · rw [hcount, hn] at hq
      refine .inr ⟨hcount.symm, ?_⟩
      rw [hulast]
      refine ht.last_lt hlast hq ?_
      rintro rfl
      obtain rfl := Option.some.inj (hd.symm.trans hdq)
      refine hne ?_
      obtain ⟨ukey, uvalue, ucount, ulast⟩ := u
      obtain rfl : ucount = n := hcount
      obtain rfl : ulast = last q := hulast
      rfl
    · refine .inl ?_
      show n < u.count
      omega

/-- **An eviction** drops the key that the reference drops. -/
theorem Tracks.evict (ht : Tracks cap c xs last r) (hfull : c.currentSize = c.mxsize) :
    ∃ c' xs', c.makeRoom = some c' ∧ c'.Room xs' ∧
      Lined c' xs' last r.now (LeastUsed.evict r.uses) ∧ c'.mxsize = c.mxsize ∧
      ∀ j, c.knMap.find? j = none → c'.knMap.find? j = none := by
  have hs := ht.books.shape
  obtain ⟨p, d, hlast, hd, hcnt⟩ := ht.books.exists_victim hfull
  have hp : p ∈ xs c.minFreq := mem_of_getLast? hlast
  obtain ⟨c', hroom, hr, hkn, hmx, -, hdata⟩ := ht.books.evict hfull hlast hd
  obtain ⟨n, hn, hmem⟩ := ht.mem_uses (hcnt ▸ hp) hd
  have hnodup := List.Nodup.of_map _ ht.keys
  have hmem' : ∀ q g, q ∈ update xs c.minFreq ((xs c.minFreq).erase p) g ↔
      q ∈ xs g ∧ q ≠ p := by
    intro q g
    by_cases hg : g = c.minFreq
    · subst hg
      rw [update_self, (hs.nodup _).mem_erase_iff, and_comm]
    · rw [update_of_ne hg]
      exact ⟨fun h => ⟨h, fun e => hg (hs.freq_unique (e ▸ h) hp)⟩, fun h => h.1⟩
  refine ⟨c', _, hroom, hr, ?_, hmx, fun j hj => ?_⟩
  · rw [ht.evict_eq hlast (hn.trans hcnt) hd hmem]
    refine ⟨fun g => ?_, fun g q hq => ht.past g q ((hmem' q g).mp hq).1, fun u => ?_, ?_, ?_⟩
    · by_cases hg : g = c.minFreq
      · subst hg
        rw [update_self]
        exact (ht.order _).sublist erase_sublist
      · rw [update_of_ne hg]
        exact ht.order g
    · rw [hnodup.mem_erase_iff, ht.mem u]
      constructor
      · rintro ⟨hne, q, hq, hdq, hulast⟩
        refine ⟨q, (hmem' q _).mpr ⟨hq, ?_⟩, (hdata q (hs.lt_size hq)).trans hdq, hulast⟩
        -- another use is another node
        rintro rfl
        obtain rfl := Option.some.inj (hd.symm.trans hdq)
        obtain ⟨ukey, uvalue, ucount, ulast⟩ := u
        obtain rfl : n = ucount := Int.ofNat.inj hn
        obtain rfl : ulast = last q := hulast
        exact hne rfl
      · rintro ⟨q, hq, hdq, hulast⟩
        obtain ⟨hq, hqp⟩ := (hmem' q _).mp hq
        rw [hdata q (hs.lt_size hq)] at hdq
        refine ⟨?_, q, hq, hdq, hulast⟩
        rintro rfl
        exact hqp (hs.node_unique hq hdq hp hd rfl)
    · exact ht.keys.sublist (erase_sublist.map _)
    · have hsize := SortedMap.size_erase_of_find?_some _ (hs.find?_of_mem hp hd)
      rw [length_erase_of_mem hmem, hkn, ht.length]
      omega
  · rw [hkn, SortedMap.find?_erase]
    split_ifs
    · rfl
    · exact hj

/-- **A new key** has been used once, now. -/
theorem Lined.insertNew {now : ℕ} {uses : List Use} (hl : Lined c xs last now uses)
    (hroom : c.Room xs) (hmx : c.mxsize = cap) (hk : c.knMap.find? k = none) (value : Bytes) :
    ∃ c' xs' last', c.insertNew k value = some c' ∧
      Tracks cap c' xs' last' ⟨now + 1, ⟨k, value, 1, now⟩ :: uses⟩ := by
  have hs := hroom.shape
  obtain ⟨c', n, hins, hn, hb', hkn, hnode, hdata, hmx'⟩ := hroom.insertNew hk value
  have hnew : ∀ g q, q ∈ xs g → q ≠ n := fun g q hq e => by
    have := hs.lt_size hq
    omega
  have hnow : update last n now n = now := update_self _ _ _
  have hother : ∀ g q, q ∈ xs g → update last n now q = last q :=
    fun g q hq => update_of_ne (hnew g q hq) _ _
  have hmem : ∀ q g, q ∈ update xs 1 (n :: xs 1) g ↔ q ∈ xs g ∨ q = n ∧ g = 1 := by
    intro q g
    by_cases hg : g = 1
    · subst hg
      rw [update_self, mem_cons]
      tauto
    · rw [update_of_ne hg]
      tauto
  have hold : ∀ g, (xs g).Pairwise fun a b =>
      update last n now b < update last n now a := fun g =>
    (hl.order g).imp_of_mem fun {a b} ha hb hab => by
      rw [hother g a ha, hother g b hb]
      exact hab
  refine ⟨c', _, update last n now, hins,
    ⟨⟨fun g => ?_, fun g q hq => ?_, fun u => ?_, ?_, ?_⟩, hb', hmx'.trans hmx⟩⟩
  · by_cases hg : g = 1
    · subst hg
      rw [update_self, pairwise_cons]
      refine ⟨fun q hq => ?_, hold 1⟩
      rw [hnow, hother 1 q hq]
      exact hl.past 1 q hq
    · rw [update_of_ne hg]
      exact hold g
  · show update last n now q < now + 1
    rcases (hmem q g).mp hq with hq | ⟨rfl, -⟩
    · rw [hother g q hq]
      exact (hl.past g q hq).trans (Nat.lt_succ_self _)
    · rw [hnow]
      exact Nat.lt_succ_self _
  · show u ∈ (⟨k, value, 1, now⟩ : Use) :: uses ↔ _
    rw [mem_cons]
    constructor
    · rintro (rfl | hu)
      · exact ⟨n, (hmem n _).mpr (.inr ⟨rfl, rfl⟩), hnode, hnow.symm⟩
      · obtain ⟨q, hq, hdq, hulast⟩ := (hl.mem u).mp hu
        exact ⟨q, (hmem q _).mpr (.inl hq), (hdata q (hs.lt_size hq)).trans hdq,
          by rw [hother _ q hq, hulast]⟩
    · rintro ⟨q, hq, hdq, hulast⟩
      rcases (hmem q _).mp hq with hq | ⟨rfl, hcount⟩
      · rw [hdata q (hs.lt_size hq)] at hdq
        rw [hother _ q hq] at hulast
        exact .inr ((hl.mem u).mpr ⟨q, hq, hdq, hulast⟩)
      · obtain ⟨hkey, hvalue, -⟩ := Node.mk.inj (Option.some.inj (hnode.symm.trans hdq))
        rw [hnow] at hulast
        obtain ⟨ukey, uvalue, ucount, ulast⟩ := u
        obtain rfl : ucount = 1 := by exact_mod_cast hcount
        rw [show ukey = k from hkey.symm, show uvalue = value from hvalue.symm,
          show ulast = now from hulast]
        exact .inl rfl
  · show (k :: uses.map Use.key).Nodup
    refine nodup_cons.mpr ⟨fun hmemk => ?_, hl.keys⟩
    obtain ⟨u, hu, rfl⟩ := mem_map.mp hmemk
    obtain ⟨q, hq, hdq, -⟩ := (hl.mem u).mp hu
    have hfind := hs.find?_of_mem hq hdq
    rw [hk] at hfind
    exact absurd hfind (by simp)
  · show (_ :: uses).length = _
    rw [length_cons, hl.length, hkn, SortedMap.size_insert_of_find?_none _ _ hk]

/-! ### One call and whole runs -/

section

variable (ht : Tracks cap c xs last r)

include ht

/-- The value of a cached key, by its node. -/
theorem Tracks.value_eq (hp : p ∈ xs d.cnt) (hd : c.heap.data p = some d) (hu : u ∈ r.uses)
    (hkey : u.key = d.key) : u.value = d.value := by
  obtain ⟨q, hq, hdq, -⟩ := (ht.mem u).mp hu
  obtain rfl := ht.books.shape.node_unique hq hdq hp hd hkey
  rw [Option.some.inj (hd.symm.trans hdq)]

/-- The count of a cached key, as a use that the next call leaves below 2^31. -/
theorem Tracks.cnt_lt (hp : p ∈ xs d.cnt) (hd : c.heap.data p = some d) {uses : List Use}
    (hcounts : ∀ u ∈ uses, u.count < 2 ^ 31)
    (hstep : ∀ u ∈ r.uses, u.key = d.key → ∃ v ∈ uses, v.count = u.count + 1) :
    d.cnt < 2 ^ 31 - 1 := by
  obtain ⟨n, hn, hmem⟩ := ht.mem_uses hp hd
  obtain ⟨v, hv, hcount⟩ := hstep _ hmem rfl
  have hlt := hcounts v hv
  rw [hcount] at hlt
  have : n + 1 < 2 ^ 31 := hlt
  omega

theorem Tracks.get (k : Bytes) (hcounts : ∀ u ∈ (r.step cap (.get k)).uses, u.count < 2 ^ 31) :
    ∃ c' xs' last', c.access (.get k) = some c' ∧
      Tracks cap c' xs' last' (r.step cap (.get k)) := by
  have hcall : ∀ c' v, c.get k = some (c', v) → c.access (.get k) = some c' := by
    intro c' v hget
    show (c.get k).map Prod.fst = some c'
    rw [hget]
    rfl
  cases hk : c.knMap.find? k with
  | none =>
    -- no use has this key: only the clock moves
    have hnot : k ∉ r.uses.map Use.key := fun h => (ht.mem_keys_iff k).mp h hk
    have hsame : (r.step cap (.get k)).uses = r.uses := by
      refine (map_congr_left fun u hu => if_neg fun hkey => hnot ?_).trans (map_id _)
      exact mem_map.mpr ⟨u, hu, hkey⟩
    refine ⟨c, xs, last, hcall c _ (get_miss hk),
      ⟨⟨ht.order, fun f p hp => ?_, ?_, ?_, ?_⟩, ht.books, ht.mxsize⟩⟩
    · exact (ht.past f p hp).trans (Nat.lt_succ_self _)
    · rw [hsame]; exact ht.mem
    · rw [hsame]; exact ht.keys
    · rw [hsame]; exact ht.length
  | some p =>
    obtain ⟨d, hd, hdk, hp⟩ := ht.books.shape.of_find? hk
    obtain ⟨c', hget, hr⟩ := ht.books.shape.get_hit hk hd
    have hcnt : d.cnt < 2 ^ 31 - 1 := ht.cnt_lt hp hd hcounts fun u hu hkey =>
      ⟨_, mem_map_of_mem hu, by rw [if_pos (hkey.trans hdk)]⟩
    have hraise := ht.raise hp hd hcnt (show Raised c xs p { d with value := d.value } c' from hr)
    have hsame : touch r.now d.key d.value r.uses = (r.step cap (.get k)).uses := by
      refine map_congr_left fun u hu => ?_
      rw [hdk]
      split_ifs with hkey
      · rw [← ht.value_eq hp hd hu (hkey.trans hdk.symm), ← hkey]
      · rfl
    rw [hsame] at hraise
    exact ⟨c', _, _, hcall c' _ hget, hraise⟩

theorem Tracks.put (k value : Bytes)
    (hcounts : ∀ u ∈ (r.step cap (.put k value)).uses, u.count < 2 ^ 31) :
    ∃ c' xs' last', c.access (.put k value) = some c' ∧
      Tracks cap c' xs' last' (r.step cap (.put k value)) := by
  have hcap : c.mxsize ≠ 0 := ht.books.mxsize_ne_zero
  have hcap' : cap ≠ 0 := ht.mxsize ▸ hcap
  cases hk : c.knMap.find? k with
  | some p =>
    obtain ⟨d, hd, rfl, hp⟩ := ht.books.shape.of_find? hk
    obtain ⟨c', hput, hr⟩ := ht.books.shape.put_hit hcap hk hd value
    have hmem : d.key ∈ r.uses.map Use.key :=
      (ht.mem_keys_iff _).mpr (by rw [hk]; exact Option.some_ne_none _)
    have hsame : r.step cap (.put d.key value) = ⟨r.now + 1, touch r.now d.key value r.uses⟩ := by
      simp only [step, if_neg hcap', if_pos hmem]
    rw [hsame] at hcounts
    have hcnt : d.cnt < 2 ^ 31 - 1 := ht.cnt_lt hp hd hcounts fun u hu hkey =>
      ⟨_, mem_map_of_mem hu, by rw [if_pos hkey]⟩
    have hraise := ht.raise hp hd hcnt hr
    rw [← hsame] at hraise
    exact ⟨c', _, _, hput, hraise⟩
  | none =>
    have hnot : k ∉ r.uses.map Use.key := fun h => (ht.mem_keys_iff k).mp h hk
    have hlen : (r.uses.length : ℤ) = c.currentSize := by
      rw [ht.length, ht.books.size]
    simp only [step, if_neg hcap', if_neg hnot, hlen]
    rw [← ht.mxsize]
    by_cases hfull : c.currentSize = c.mxsize
    · obtain ⟨c₁, xs₁, hroom, hr₁, hl₁, hmx₁, habs₁⟩ := ht.evict hfull
      obtain ⟨c₂, xs₂, last₂, hins, ht₂⟩ := hl₁.insertNew hr₁ hmx₁ (habs₁ k hk) value
      refine ⟨c₂, xs₂, last₂, ?_, ?_⟩
      · show c.put k value = some c₂
        rw [put_miss hcap hk, hroom, Option.bind_some, hins]
      · rw [if_pos hfull]
        exact ht₂
    · obtain ⟨hroom, hr₁⟩ := ht.books.room hfull
      obtain ⟨c₂, xs₂, last₂, hins, ht₂⟩ := ht.toLined.insertNew hr₁ rfl hk value
      refine ⟨c₂, xs₂, last₂, ?_, ?_⟩
      · show c.put k value = some c₂
        rw [put_miss hcap hk, hroom, Option.bind_some, hins]
      · rw [if_neg hfull]
        exact ht₂

end

/-- A cache without room for any key stays as it is, and so does the reference. -/
theorem access_zero (r : LeastUsed) (hr : r.uses = []) (a : Access) :
    (new 0).access a = some (new 0) ∧ (r.step 0 a).uses = [] := by
  cases a with
  | get k =>
    refine ⟨?_, ?_⟩
    · show ((new 0).get k).map Prod.fst = _
      rw [get_miss rfl]
      rfl
    · simp only [step, hr]
      rfl
  | put k value => exact ⟨rfl, by simp only [step, hr, if_pos]⟩

theorem LeastUsed.after_concat (cap : ℤ) (calls : List Access) (a : Access) :
    LeastUsed.after cap (calls ++ [a]) = (LeastUsed.after cap calls).step cap a :=
  foldl_append

/-- No key of the reference list has been used 2^31 times, at any time of the run. -/
def CountsFit (cap : ℤ) (calls : List Access) : Prop :=
  ∀ done, done <+: calls → ∀ u ∈ (LeastUsed.after cap done).uses, u.count < 2 ^ 31

theorem CountsFit.left {calls : List Access} {a : Access} (h : CountsFit cap (calls ++ [a])) :
    CountsFit cap calls := fun done hdone => h done (hdone.trans (prefix_append _ _))

theorem runs_tracks (hcap : 1 ≤ cap) {calls : List Access} (hcounts : CountsFit cap calls) :
    ∃ c xs last, run access (new cap) calls = some c ∧
      Tracks cap c xs last (LeastUsed.after cap calls) := by
  induction calls using reverseRecOn with
  | nil =>
    exact ⟨new cap, fun _ => [], fun _ => 0, rfl, ⟨⟨fun _ => List.Pairwise.nil,
      fun _ _ h => absurd h not_mem_nil, fun u => ⟨fun h => absurd h not_mem_nil,
        fun ⟨_, h, _⟩ => absurd h not_mem_nil⟩, nodup_nil, rfl⟩, Books.initial hcap, rfl⟩⟩
  | append_singleton calls a ih =>
    obtain ⟨c, xs, last, hrun, ht⟩ := ih hcounts.left
    have hlast := hcounts _ prefix_rfl
    rw [LeastUsed.after_concat] at hlast ⊢
    obtain ⟨c', xs', last', hcall, ht'⟩ : ∃ c' xs' last', c.access a = some c' ∧
        Tracks cap c' xs' last' ((LeastUsed.after cap calls).step cap a) := by
      cases a with
      | get k => exact ht.get k hlast
      | put k value => exact ht.put k value hlast
    exact ⟨c', xs', last', run_concat.mpr ⟨c, hrun, hcall⟩, ht'⟩

/-! ### What a reader of the cache sees -/

/-- The cache holds exactly the keys and values of `uses`, and the node of each key is once in the
list of its count and in no other. -/
structure Agrees (c : LFUCache) (uses : List Use) : Prop where
  keys : (uses.map Use.key).Nodup
  index : ∀ k, c.knMap.find? k ≠ none ↔ k ∈ uses.map Use.key
  lookup : ∀ u ∈ uses, c.lookup u.key = some u.value
  nodes : ∃ xs : ℤ → List ℕ,
    (∀ f list, c.flMap.find? f = some list → c.heap.Linked list.head list.tail (xs f)) ∧
    (∀ f, c.flMap.find? f = none → xs f = []) ∧
    ∀ u ∈ uses, ∃ p, c.knMap.find? u.key = some p ∧
      c.heap.data p = some ⟨u.key, u.value, u.count⟩ ∧
      ∀ f, (xs f).count p = if f = u.count then 1 else 0

theorem Tracks.agrees (ht : Tracks cap c xs last r) : c.Agrees r.uses := by
  have hs := ht.books.shape
  refine ⟨ht.keys, fun k => (ht.mem_keys_iff k).symm, fun u hu => ?_, xs,
    fun f list hlist => (hs.lists.linked f list hlist).1, hs.lists.absent, fun u hu => ?_⟩
  · obtain ⟨p, hp, hd, -⟩ := (ht.mem u).mp hu
    have hfind := hs.find?_of_mem hp hd
    unfold LFUCache.lookup
    rw [show c.knMap.find? u.key = some p from hfind, Option.bind_some, hd]
    rfl
  · obtain ⟨p, hp, hd, -⟩ := (ht.mem u).mp hu
    refine ⟨p, hs.find?_of_mem hp hd, hd, fun f => ?_⟩
    split_ifs with hf
    · subst hf
      exact count_eq_one_of_mem (hs.nodup _) hp
    · exact count_eq_zero.mpr fun h => hf (hs.freq_unique h hp)

/-! ### Counts that wrap -/

/-- The count of a key that has just been used is an `int`. -/
theorem Raised.count_lt (hk : c.knMap.find? k = some p) (hr : Raised c xs p d c')
    {uses : List Use} (hagrees : c'.Agrees uses) (hu : u ∈ uses) (hkey : u.key = k) :
    u.count < 2 ^ 31 := by
  obtain ⟨_, -, -, hnodes⟩ := hagrees.nodes
  obtain ⟨q, hq, hd, -⟩ := hnodes u hu
  rw [hkey, hr.knMap, hk] at hq
  obtain rfl := Option.some.inj hq
  have hcnt := congrArg Node.cnt (Option.some.inj (hr.node.symm.trans hd))
  have hlt := (int32_range (d.cnt + 1)).2
  replace hcnt : int32 (d.cnt + 1) = u.count := hcnt
  omega

/-- A call after which the cache agrees with the reference leaves the counts below 2^31. -/
theorem Tracks.counts_lt (ht : Tracks cap c xs last r) (hcounts : ∀ u ∈ r.uses, u.count < 2 ^ 31)
    {a : Access} (hcall : c.access a = some c') (hagrees : c'.Agrees (r.step cap a).uses) :
    ∀ u ∈ (r.step cap a).uses, u.count < 2 ^ 31 := by
  intro u hu
  have hs := ht.books.shape
  cases a with
  | get k =>
    obtain ⟨v, hv, hvu⟩ := mem_map.mp hu
    by_cases hkey : v.key = k
    · obtain ⟨p, hk⟩ := Option.ne_none_iff_exists'.mp
        ((ht.mem_keys_iff k).mp (mem_map.mpr ⟨v, hv, hkey⟩))
      obtain ⟨d, hd, -, -⟩ := hs.of_find? hk
      obtain ⟨c'', hget, hr⟩ := hs.get_hit hk hd
      have heq : c.access (.get k) = some c'' := congrArg (Option.map Prod.fst) hget
      obtain rfl := Option.some.inj (hcall.symm.trans heq)
      refine hr.count_lt hk hagrees hu ?_
      rw [← hvu, if_pos hkey]
      exact hkey
    · rw [← hvu, if_neg hkey]
      exact hcounts v hv
  | put k value =>
    have hold := hu
    simp only [step] at hu
    split_ifs at hu with hcap hmem hfull
    · exact hcounts u hu
    · obtain ⟨v, hv, hvu⟩ := mem_map.mp hu
      by_cases hkey : v.key = k
      · obtain ⟨p, hk⟩ := Option.ne_none_iff_exists'.mp ((ht.mem_keys_iff k).mp hmem)
        obtain ⟨d, hd, -, -⟩ := hs.of_find? hk
        obtain ⟨c'', hput, hr⟩ := hs.put_hit ht.books.mxsize_ne_zero hk hd value
        obtain rfl := Option.some.inj (hcall.symm.trans hput)
        refine hr.count_lt hk hagrees hold ?_
        rw [← hvu, if_pos hkey]
      · rw [← hvu, if_neg hkey]
        exact hcounts v hv
    · rcases mem_cons.mp hu with rfl | hu
      · exact (by decide : 1 < 2 ^ 31)
      · exact hcounts u (mem_of_mem_filter hu)
    · rcases mem_cons.mp hu with rfl | hu
      · exact (by decide : 1 < 2 ^ 31)
      · exact hcounts u hu

/-- A run that agrees with the reference after each of its calls has no count of 2^31. -/
theorem countsFit_of_agrees (hcap : 1 ≤ cap) {calls : List Access}
    (h : ∀ done, done <+: calls → ∃ c, run access (new cap) done = some c ∧
      c.Agrees (LeastUsed.after cap done).uses) : CountsFit cap calls := by
  induction calls using reverseRecOn with
  | nil =>
    intro done hdone
    rw [prefix_nil.mp hdone]
    exact fun u hu => absurd hu not_mem_nil
  | append_singleton calls a ih =>
    have hcounts := ih fun done hdone => h done (hdone.trans (prefix_append _ _))
    intro done hdone
    rcases prefix_concat_iff.mp hdone with rfl | hdone
    · obtain ⟨c', hrun', hagrees⟩ := h _ prefix_rfl
      obtain ⟨c, hrun, hcall⟩ := run_concat.mp hrun'
      obtain ⟨c₀, xs, last, hrun₀, ht⟩ := runs_tracks hcap hcounts
      obtain rfl := Option.some.inj (hrun.symm.trans hrun₀)
      rw [LeastUsed.after_concat] at hagrees ⊢
      exact ht.counts_lt (hcounts _ prefix_rfl) hcall hagrees
    · exact hcounts done hdone

/-- What the cache should be after some calls: it has the keys, the values and the counts of the
reference, no more than `capacity` keys, and a `get` returns the value of the reference, and `"-1"`
for any other key. -/
def Refined (capacity : ℤ) (calls : List Access) : Prop :=
  ∃ c, run access (new capacity) calls = some c ∧ c.Agrees (LeastUsed.after capacity calls).uses ∧
    ((LeastUsed.after capacity calls).uses.length : ℤ) ≤ capacity ∧
    ∀ k, (c.get k).map Prod.snd = some
      ((((LeastUsed.after capacity calls).uses.find? fun u => u.key = k).map Use.value).getD
        notFound)

theorem refined_zero (calls : List Access) :
    Refined 0 calls ∧ (LeastUsed.after 0 calls).uses = [] := by
  have hstep : ∀ (c : LFUCache) (r : LeastUsed) a, (c = new 0 ∧ r.uses = []) → True →
      ∃ c', c.access a = some c' ∧ (c' = new 0 ∧ (r.step 0 a).uses = []) := by
    rintro c r a ⟨rfl, hr⟩ -
    exact ⟨new 0, (access_zero r hr a).1, rfl, (access_zero r hr a).2⟩
  obtain ⟨c, hrun, rfl, hnil⟩ :=
    run_simulation (b := empty) hstep ⟨rfl, rfl⟩ (along_true (new 0) calls)
  replace hnil : (LeastUsed.after 0 calls).uses = [] := hnil
  refine ⟨⟨new 0, hrun, ?_, ?_, fun k => ?_⟩, hnil⟩
  · rw [hnil]
    exact ⟨nodup_nil, fun k => by simp [new], fun u hu => absurd hu not_mem_nil, fun _ => [],
      fun f list h => by simp [new] at h, fun _ _ => rfl, fun u hu => absurd hu not_mem_nil⟩
  · rw [hnil, length_nil]
    rfl
  · rw [hnil, get_miss rfl]
    rfl

theorem CountsFit.refined (hpos : 1 ≤ cap) {calls : List Access} (h : CountsFit cap calls) :
    Refined cap calls := by
  obtain ⟨c, xs, last, hrun, ht⟩ := runs_tracks hpos h
  have hs := ht.books.shape
  have hbound := ht.books.bound
  have hsize := ht.books.size
  refine ⟨c, hrun, ht.agrees, ?_, fun k => ?_⟩
  · rw [ht.length, ← hsize, ← ht.mxsize]
    exact hbound
  · obtain ⟨c', -, hget, -, -⟩ := hs.get_lookup k
    rw [hget]
    show some ((c.lookup k).getD notFound) = _
    congr 2
    cases hfind : (LeastUsed.after cap calls).uses.find? fun u => u.key = k with
    | none =>
      refine (lookup_eq_none_iff hs).mpr ?_
      by_contra hne
      obtain ⟨u, hu, hkey⟩ := mem_map.mp ((ht.mem_keys_iff k).mpr hne)
      exact absurd (decide_eq_true hkey) (find?_eq_none.mp hfind u hu)
    | some u =>
      have hkey : u.key = k := by simpa using find?_some hfind
      rw [← hkey]
      exact ht.agrees.lookup u (mem_of_find?_eq_some hfind)

/-- **The LFU cache is the reference list**, which drops the key used least, and among those used as
often the one whose last use is the earliest: after each call of a run of gets and puts on a new
cache, just if no key is used 2^31 times while it is cached. -/
theorem lfu_refines_iff (capacity : ℤ) (hcap : 0 ≤ capacity) (calls : List Access) :
    (∀ done, done <+: calls → Refined capacity done) ↔ CountsFit capacity calls := by
  rcases (by omega : capacity = 0 ∨ 1 ≤ capacity) with rfl | hpos
  · refine iff_of_true (fun done _ => (refined_zero done).1) fun done _ u hu => ?_
    rw [(refined_zero done).2] at hu
    exact absurd hu not_mem_nil
  · constructor
    · intro h
      refine countsFit_of_agrees hpos fun done hdone => ?_
      obtain ⟨c, hrun, hagrees, -⟩ := h done hdone
      exact ⟨c, hrun, hagrees⟩
    · exact fun h done hdone => CountsFit.refined hpos fun part hpart => h part (hpart.trans hdone)

/-- With room for two keys, the key used once leaves, although it was used last. -/
theorem lfu_refines_evict :
    ∃ c, run access (new 2) [.put [1] [7], .get [1], .put [2] [8], .put [3] [9]] = some c ∧
      c.Agrees [⟨[3], [9], 1, 3⟩, ⟨[1], [7], 2, 1⟩] ∧
      (c.get [2]).map Prod.snd = some notFound := by
  have hfit : CountsFit 2 [.put [1] [7], .get [1], .put [2] [8], .put [3] [9]] :=
    fun done hdone => (by decide : ∀ done ∈ inits _, ∀ u ∈ (LeastUsed.after 2 done).uses,
      u.count < 2 ^ 31) done ((mem_inits done _).mpr hdone)
  obtain ⟨c, hrun, hagrees, -, hget⟩ := (lfu_refines_iff 2 (by decide) _).mpr hfit _ prefix_rfl
  exact ⟨c, hrun, hagrees, hget [2]⟩

theorem LeastUsed.after_gets (key value : Bytes) (n : ℕ) :
    LeastUsed.after 1 (.put key value :: replicate n (.get key)) =
      ⟨n + 1, [⟨key, value, n + 1, n⟩]⟩ := by
  induction n with
  | zero => rfl
  | succ n ih =>
    rw [replicate_succ', ← cons_append, LeastUsed.after_concat, ih]
    simp [step]

/-- One key, used 2^31 times: its count has wrapped. -/
theorem not_refined_after_uses :
    ¬ ∀ done, done <+: .put [1] [7] :: replicate (2 ^ 31 - 1) (.get [1]) → Refined 1 done := by
  intro h
  have hfit := countsFit_of_agrees (le_refl 1) fun done hdone => by
    obtain ⟨c, hrun, hagrees, -⟩ := h done hdone
    exact ⟨c, hrun, hagrees⟩
  have hlt := hfit _ prefix_rfl
  rw [LeastUsed.after_gets] at hlt
  have hcount := hlt _ (mem_singleton.mpr rfl)
  dsimp only at hcount
  omega

end LFUCache

end Kvs
