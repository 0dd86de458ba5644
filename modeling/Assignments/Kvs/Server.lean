import Assignments.Framework.Run
import Assignments.Kvs.Cache
import Assignments.Kvs.Store

/-!
# The server

The functions `get`, `put` and `del` of the server, the cache in front of the file store, and the
request handlers around them. A call without a result is one whose cache operation has none.

* `Server.get_hit`, `Server.get_absent`, `Server.get_file` — the three ways a `get` can go: the
  key is cached, it is not live, or its record is read and cached;
* `Server.Sound` — the cache stays sound whatever is called;
* `Server.serve_store` — what a request can do to the store.
-/

namespace Kvs

open Framework Option

/-- The globals of the server. There is no cache when `cachetype` is neither 1 nor 2. -/
structure Server where
  store : Store
  cache : Option Cache

namespace Server

/-- A first start, with the cache of the configuration file. -/
def start (cachetype cachecapacity : ℤ) : Server where
  store := Store.empty
  cache := Cache.new cachetype cachecapacity

/-! ### The three functions -/

/-- The `else` branch of `get`: the value comes from the file and goes into the cache. -/
def getFromFile (s : Server) (c : Cache) (key stack : Bytes) : Option (Server × Bytes) :=
  let r := s.store.getkey key stack
  if r.2 ≠ notFound then
    (c.put key r.2).map fun c => ({ store := r.1, cache := some c }, r.2)
  else some ({ store := r.1, cache := some c }, [])

def get (s : Server) (key stack : Bytes) : Option (Server × Bytes) :=
  match s.cache with
  | none => some (s, [])
  | some c => do
    let (c, value) ← c.get key
    if value ≠ notFound then return ({ s with cache := some c }, value)
    else s.getFromFile c key stack

def put (s : Server) (key value : Bytes) (memory : ℕ → Byte) : Server :=
  { s with store := s.store.putkey key value memory }

def del (s : Server) (key : Bytes) : Option (Server × ℤ) :=
  match s.cache with
  | none => some (s, 0)
  | some c => do
    let c ← c.del key
    let (store, status) := s.store.deletekey key
    return ({ store, cache := some c }, status)

end Server

/-! ### The request handlers -/

def SUCCESS : ℤ := 200

def FAILURE : ℤ := 400

structure PutReply where
  puterror : String
  puterrorcode : ℤ
  deriving DecidableEq, Repr

structure GetReply where
  getvalue : Bytes
  geterrorcode : ℤ
  geterror : String
  deriving DecidableEq, Repr

structure DelReply where
  delerrorcode : ℤ
  delerror : String
  deriving DecidableEq, Repr

namespace Server

/-- The `PROCESS` branch of `PutCallData::Proceed`. -/
def putProceed (s : Server) (key value : Bytes) (memory : ℕ → Byte) : Server × PutReply :=
  if key.length = 0 ∨ value.length = 0 then
    (s, ⟨"Either key or Value is null", FAILURE⟩)
  else if key.length > 256 ∨ value.length > 256 then
    (s, ⟨"Either key or Value is greater than 256 Bytes.", FAILURE⟩)
  else (s.put key value memory, ⟨"", SUCCESS⟩)

/-- The `PROCESS` branch of `GetCallData::Proceed`. -/
def getProceed (s : Server) (key stack : Bytes) : Option (Server × GetReply) :=
  (s.get key stack).map fun (s, value) =>
    if value = [] then (s, ⟨[], FAILURE, "The key-value pair does not exist."⟩)
    else (s, ⟨value, SUCCESS, ""⟩)

/-- The `PROCESS` branch of `DelCallData::Proceed`. -/
def delProceed (s : Server) (key : Bytes) : Option (Server × DelReply) :=
  (s.del key).map fun (s, delstatus) =>
    if delstatus ≠ 0 then (s, ⟨SUCCESS, ""⟩) else (s, ⟨FAILURE, "The key does not exist"⟩)

/-! ### The ways a call can go -/

variable {s : Server} {c : Cache} {key value stack : Bytes}

/-- The value a hit on `key` would return, if there is a cache. -/
def lookup (s : Server) (key : Bytes) : Option Bytes := s.cache.bind fun c => c.lookup key

section

variable (hc : s.cache = some c) (hok : c.Ok)

include hc hok

theorem get_hit (hk : c.lookup key = some value) (hv : value ≠ notFound) (stack : Bytes) :
    ∃ c', s.get key stack = some ({ s with cache := some c' }, value) ∧ c'.Ok ∧
      ∀ j, c'.lookup j = c.lookup j := by
  obtain ⟨c', hget, hok', hlook⟩ := Cache.get_spec hok key
  refine ⟨c', ?_, hok', hlook⟩
  unfold get
  rw [hc]
  show ((c.get key).bind fun x => if x.2 ≠ notFound then _ else _) = _
  rw [hget, bind_some, hk]
  exact if_pos hv

/-- A miss goes to the file. -/
theorem get_miss (hk : c.lookup key = none) (stack : Bytes) :
    s.get key stack = s.getFromFile c key stack := by
  unfold get
  rw [hc]
  show ((c.get key).bind fun x => if x.2 ≠ notFound then _ else _) = _
  rw [Cache.get_miss hok hk, bind_some]
  exact if_neg fun h => h rfl

theorem get_absent (hk : c.lookup key = none) (hfile : (s.store.getkey key stack).2 = notFound) :
    s.get key stack = some (⟨(s.store.getkey key stack).1, some c⟩, []) := by
  rw [get_miss hc hok hk]
  exact if_neg fun h => h hfile

theorem get_file (hk : c.lookup key = none) (hfile : (s.store.getkey key stack).2 ≠ notFound)
    (hstuck : ¬ c.Stuck) :
    ∃ c', s.get key stack =
        some (⟨(s.store.getkey key stack).1, some c'⟩, (s.store.getkey key stack).2) ∧ c'.Ok ∧
      ∀ j w, c'.lookup j = some w →
        j = key ∧ w = (s.store.getkey key stack).2 ∨ c.lookup j = some w := by
  obtain ⟨c', hput, hok', hlook⟩ := Cache.put_spec hok hk hstuck (s.store.getkey key stack).2
  refine ⟨c', ?_, hok', hlook⟩
  rw [get_miss hc hok hk]
  refine (if_pos hfile).trans ?_
  rw [hput]
  rfl

theorem get_stuck (hk : c.lookup key = none) (hfile : (s.store.getkey key stack).2 ≠ notFound)
    (hstuck : c.Stuck) : s.get key stack = none := by
  rw [get_miss hc hok hk]
  refine (if_pos hfile).trans ?_
  rw [Cache.put_stuck hok hk hstuck]
  rfl

theorem del_eq (key : Bytes) :
    ∃ c', s.del key =
        some (⟨(s.store.deletekey key).1, some c'⟩, (s.store.deletekey key).2) ∧ c'.Ok ∧
      ∀ j, c'.lookup j = if j = key then none else c.lookup j := by
  obtain ⟨c', hdel, hok', hlook⟩ := Cache.del_spec hok key
  refine ⟨c', ?_, hok', hlook⟩
  unfold del
  rw [hc]
  show ((c.del key).bind fun c => some _) = _
  rw [hdel]
  rfl

end

/-! ### Soundness of the cache -/

/-- The pointer structure of the cache is sound, and it holds no `"-1"`. -/
def Sound (s : Server) : Prop := ∀ c ∈ s.cache, c.Ok ∧ ∀ k, c.lookup k ≠ some notFound

theorem Sound.new (store : Store) (cachetype cachecapacity : ℤ) :
    Sound ⟨store, Cache.new cachetype cachecapacity⟩ := by
  intro c hc
  obtain ⟨hok, hnone⟩ := Cache.new_spec hc
  exact ⟨hok, fun k => by rw [hnone k]; simp⟩

/-- What a `get` puts into the cache is not `"-1"`. -/
theorem Sound.get (hs : s.Sound) {s' : Server} (h : s.get key stack = some (s', value)) :
    s'.Sound := by
  cases hc : s.cache with
  | none =>
    unfold Server.get at h
    rw [hc] at h
    obtain ⟨rfl, -⟩ := Prod.mk.inj (some.inj h)
    exact hs
  | some c =>
    obtain ⟨hok, hne⟩ := hs c hc
    cases hk : c.lookup key with
    | some v =>
      have hv : v ≠ notFound := fun hv => hne key (by rw [hk, hv])
      obtain ⟨c', hget, hok', hlook⟩ := get_hit hc hok hk hv stack
      obtain ⟨rfl, -⟩ := Prod.mk.inj (some.inj (h.symm.trans hget))
      intro c'' hc''
      obtain rfl := some.inj hc''
      exact ⟨hok', fun k => by rw [hlook]; exact hne k⟩
    | none =>
    by_cases hfile : (s.store.getkey key stack).2 = notFound
    · -- an absent key changes nothing in the cache
      obtain ⟨rfl, -⟩ :=
        Prod.mk.inj (some.inj (h.symm.trans (get_absent hc hok hk hfile)))
      intro c'' hc''
      obtain rfl := some.inj hc''
      exact ⟨hok, hne⟩
    · by_cases hstuck : c.Stuck
      · rw [get_stuck hc hok hk hfile hstuck] at h
        exact absurd h (by simp)
      · obtain ⟨c', hget, hok', hlook⟩ := get_file hc hok hk hfile hstuck
        obtain ⟨rfl, -⟩ := Prod.mk.inj (some.inj (h.symm.trans hget))
        intro c'' hc''
        obtain rfl := some.inj hc''
        refine ⟨hok', fun k hk' => ?_⟩
        rcases hlook k notFound hk' with ⟨-, heq⟩ | hk'
        · exact hfile heq.symm
        · exact hne k hk'

theorem Sound.del (hs : s.Sound) {s' : Server} {status : ℤ} (h : s.del key = some (s', status)) :
    s'.Sound := by
  cases hc : s.cache with
  | none =>
    unfold Server.del at h
    rw [hc] at h
    obtain ⟨rfl, -⟩ := Prod.mk.inj (some.inj h)
    exact hs
  | some c =>
    obtain ⟨hok, hne⟩ := hs c hc
    obtain ⟨c', hdel, hok', hlook⟩ := del_eq hc hok key
    obtain ⟨rfl, -⟩ := Prod.mk.inj (some.inj (h.symm.trans hdel))
    intro c'' hc''
    obtain rfl := some.inj hc''
    refine ⟨hok', fun k => ?_⟩
    rw [hlook]
    split_ifs
    · simp
    · exact hne k

/-! ### Calls -/

inductive Call where
  | put (key value : Bytes) (memory : ℕ → Byte)
  | get (key stack : Bytes)
  | del (key : Bytes)

inductive Result where
  | put (status : ℤ)
  | get (value : Bytes)
  | del (status : ℤ)
  deriving DecidableEq, Repr

/-- The state after a call and what it returns. -/
def call (s : Server) : Call → Option (Server × Result)
  | .put key value memory => some (s.put key value memory, .put 0)
  | .get key stack => (s.get key stack).map fun (s, value) => (s, .get value)
  | .del key => (s.del key).map fun (s, status) => (s, .del status)

/-- The state after a call. -/
def next (s : Server) (a : Call) : Option Server := (s.call a).map Prod.fst

/-! ### Requests -/

inductive Request where
  | put (key value : Bytes) (memory : ℕ → Byte)
  | get (key stack : Bytes)
  | del (key : Bytes)

/-- The state after a request. -/
def serve (s : Server) : Request → Option Server
  | .put key value memory => some (s.putProceed key value memory).1
  | .get key stack => (s.getProceed key stack).map Prod.fst
  | .del key => (s.delProceed key).map Prod.fst

/-- A `get` moves descriptors and leaves the rest of the store alone. -/
theorem get_sameData {s' : Server} (h : s.get key stack = some (s', value)) :
    Store.SameData s.store s'.store := by
  have hfile : ∀ c, s.getFromFile c key stack = some (s', value) →
      Store.SameData s.store s'.store := by
    intro c hget
    unfold getFromFile at hget
    simp only at hget
    split_ifs at hget
    · obtain ⟨c', -, he⟩ := map_eq_some_iff.mp hget
      obtain ⟨rfl, -⟩ := Prod.mk.inj he
      exact Store.getkey_sameData s.store key stack
    · obtain ⟨rfl, -⟩ := Prod.mk.inj (some.inj hget)
      exact Store.getkey_sameData s.store key stack
  unfold get at h
  cases hc : s.cache with
  | none =>
    rw [hc] at h
    obtain ⟨rfl, -⟩ := Prod.mk.inj (some.inj h)
    exact ⟨fun _ => rfl, rfl, rfl⟩
  | some c =>
    rw [hc] at h
    obtain ⟨⟨c', v⟩, -, hrest⟩ := bind_eq_some_iff.mp h
    simp only at hrest
    split_ifs at hrest
    · obtain ⟨rfl, -⟩ := Prod.mk.inj (some.inj hrest)
      exact ⟨fun _ => rfl, rfl, rfl⟩
    · exact hfile c' hrest

/-- A `del` is a `deletekey` on the store, if there is a cache. -/
theorem del_store {s' : Server} {status : ℤ} (h : s.del key = some (s', status)) :
    s'.store = (s.store.deletekey key).1 ∨ s' = s := by
  unfold del at h
  cases hc : s.cache with
  | none =>
    rw [hc] at h
    obtain ⟨rfl, -⟩ := Prod.mk.inj (some.inj h)
    exact Or.inr rfl
  | some c =>
    rw [hc] at h
    obtain ⟨c', -, hrest⟩ := bind_eq_some_iff.mp h
    obtain ⟨rfl, -⟩ := Prod.mk.inj (some.inj hrest)
    exact Or.inl rfl

/-- What a request does to the store. -/
theorem serve_store {s' : Server} {r : Request} (h : s.serve r = some s') :
    (∃ key value memory, 1 ≤ key.length ∧ s'.store = s.store.putkey key value memory) ∨
      (∃ key, s'.store = (s.store.deletekey key).1) ∨ Store.SameData s.store s'.store := by
  cases r with
  | put key value memory =>
    obtain rfl := some.inj h
    unfold putProceed
    split_ifs with hnull hlong
    · exact Or.inr (Or.inr ⟨fun _ => rfl, rfl, rfl⟩)
    · exact Or.inr (Or.inr ⟨fun _ => rfl, rfl, rfl⟩)
    · exact Or.inl ⟨key, value, memory, by omega, rfl⟩
  | get key stack =>
    refine Or.inr (Or.inr ?_)
    obtain ⟨⟨t, reply⟩, hget, rfl⟩ := map_eq_some_iff.mp h
    obtain ⟨⟨t', value⟩, hget', hreply⟩ := map_eq_some_iff.mp hget
    simp only at hreply
    split_ifs at hreply
    · obtain ⟨rfl, -⟩ := Prod.mk.inj hreply
      exact get_sameData hget'
    · obtain ⟨rfl, -⟩ := Prod.mk.inj hreply
      exact get_sameData hget'
  | del key =>
    refine Or.inr ?_
    obtain ⟨⟨t, reply⟩, hdel, rfl⟩ := map_eq_some_iff.mp h
    obtain ⟨⟨t', status⟩, hdel', hreply⟩ := map_eq_some_iff.mp hdel
    have ht : t = t' := by
      simp only at hreply
      split_ifs at hreply
      · exact (Prod.mk.inj hreply).1.symm
      · exact (Prod.mk.inj hreply).1.symm
    subst ht
    rcases del_store hdel' with hstore | rfl
    · exact Or.inl ⟨key, hstore⟩
    · exact Or.inr ⟨fun _ => rfl, rfl, rfl⟩

end Server

end Kvs
