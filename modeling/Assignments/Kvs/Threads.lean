import Assignments.Kvs.Server

/-!
# Threads of the server

Any number of threads run `get`, `put` and `del`. Each critical section under `getmutex` is one
step; so is the `deletekey` that `del` calls after it has released the mutex, which it does when
the cache is an LFU cache, and not when it is an LRU cache.

Is a completed delete final? `Gone` says that a key is neither cached nor live and that no `put`
of it is under way; it is stable as long as no `put` of the key is called (`Gone.next`), and a
`get` in such a state finds nothing.

* With an LRU cache a `del` that returns 1 reaches `Gone` in one step.
* With an LFU cache another thread can `get` the key between the two steps of a `del`, and cache it
  again: `get_after_del_lfu` is such a run. A delete is final in every run in which the second step
  of a `del` finds its key not cached (`get_after_del`).
-/

namespace Kvs

open Framework

namespace Threads

abbrev Tid : Type := ℕ

inductive Op where
  | get (key : Bytes)
  | put (key value : Bytes)
  | del (key : Bytes)
  deriving DecidableEq, Repr

/-- Where a thread is. -/
inductive Phase where
  | idle
  | called (op : Op)
  /-- In a `del` with an LFU cache, after the critical section. -/
  | deleting (key : Bytes)
  | finished (op : Op) (result : Server.Result)
  deriving DecidableEq, Repr

structure State where
  server : Server
  phase : Tid → Phase

inductive Label where
  | call (t : Tid) (op : Op)
  /-- The critical section of the call of `t`. -/
  | lock (t : Tid) (memory : ℕ → Byte) (stack : Bytes)
  /-- `deletekey` outside the mutex. -/
  | deletekey (t : Tid)
  | ret (t : Tid) (op : Op) (result : Server.Result)

namespace State

/-- Thread `t` goes on to `phase`. -/
def goto (s : State) (t : Tid) (phase : Phase) (server : Server) : State :=
  ⟨server, Function.update s.phase t phase⟩

/-- The critical section of `del`: with an LRU cache all of it, with an LFU cache the cache
operation alone. -/
def delSection (s : State) (t : Tid) (key : Bytes) : Option State :=
  match s.server.cache with
  | some (.lfu c) => (c.del key).map fun c =>
      s.goto t (.deleting key) { s.server with cache := some (.lfu c) }
  | _ => (s.server.del key).map fun (server, status) =>
      s.goto t (.finished (.del key) (.del status)) server

def next (s : State) : Label → Option State
  | .call t op => if s.phase t = .idle then some (s.goto t (.called op) s.server) else none
  | .lock t memory stack =>
    match s.phase t with
    | .called (.get key) => (s.server.get key stack).map fun (server, value) =>
        s.goto t (.finished (.get key) (.get value)) server
    | .called (.put key value) =>
        some (s.goto t (.finished (.put key value) (.put 0)) (s.server.put key value memory))
    | .called (.del key) => s.delSection t key
    | _ => none
  | .deletekey t =>
    match s.phase t with
    | .deleting key => some (s.goto t (.finished (.del key) (.del (s.server.store.deletekey key).2))
        { s.server with store := (s.server.store.deletekey key).1 })
    | _ => none
  | .ret t op result =>
    if s.phase t = .finished op result then some (s.goto t .idle s.server) else none

end State

/-- All threads idle, on an empty store. -/
def initial (cachetype cachecapacity : ℤ) : State :=
  ⟨Server.start cachetype cachecapacity, fun _ => .idle⟩

/-! ### What a step can do -/

/-- The steps, one constructor each. -/
inductive Step (s : State) : Label → State → Prop
  | call (t : Tid) (op : Op) (ht : s.phase t = .idle) :
      Step s (.call t op) (s.goto t (.called op) s.server)
  | get (t : Tid) (memory : ℕ → Byte) (stack key value : Bytes) (server : Server)
      (ht : s.phase t = .called (.get key)) (hget : s.server.get key stack = some (server, value)) :
      Step s (.lock t memory stack) (s.goto t (.finished (.get key) (.get value)) server)
  | put (t : Tid) (memory : ℕ → Byte) (stack key value : Bytes)
      (ht : s.phase t = .called (.put key value)) :
      Step s (.lock t memory stack)
        (s.goto t (.finished (.put key value) (.put 0)) (s.server.put key value memory))
  | del (t : Tid) (memory : ℕ → Byte) (stack key : Bytes) (server : Server) (status : ℤ)
      (ht : s.phase t = .called (.del key)) (hdel : s.server.del key = some (server, status)) :
      Step s (.lock t memory stack) (s.goto t (.finished (.del key) (.del status)) server)
  | delCache (t : Tid) (memory : ℕ → Byte) (stack key : Bytes) (c c' : LFUCache)
      (ht : s.phase t = .called (.del key)) (hc : s.server.cache = some (.lfu c))
      (hdel : c.del key = some c') :
      Step s (.lock t memory stack)
        (s.goto t (.deleting key) { s.server with cache := some (.lfu c') })
  | deletekey (t : Tid) (key : Bytes) (ht : s.phase t = .deleting key) :
      Step s (.deletekey t)
        (s.goto t (.finished (.del key) (.del (s.server.store.deletekey key).2))
          { s.server with store := (s.server.store.deletekey key).1 })
  | ret (t : Tid) (op : Op) (result : Server.Result) (ht : s.phase t = .finished op result) :
      Step s (.ret t op result) (s.goto t .idle s.server)

theorem step_of_next {s s' : State} {l : Label} (h : s.next l = some s') : Step s l s' := by
  cases l with
  | call t op =>
    simp only [State.next] at h
    split_ifs at h with ht
    obtain rfl := Option.some.inj h
    exact .call t op ht
  | lock t memory stack =>
    simp only [State.next] at h
    split at h
    · next key ht =>
      obtain ⟨⟨server, value⟩, hget, rfl⟩ := Option.map_eq_some_iff.mp h
      exact .get t memory stack key value server ht hget
    · next key value ht =>
      obtain rfl := Option.some.inj h
      exact .put t memory stack key value ht
    · next key ht =>
      unfold State.delSection at h
      split at h
      · next c hc =>
        obtain ⟨c', hdel, rfl⟩ := Option.map_eq_some_iff.mp h
        exact .delCache t memory stack key c c' ht hc hdel
      · obtain ⟨⟨server, status⟩, hdel, rfl⟩ := Option.map_eq_some_iff.mp h
        exact .del t memory stack key server status ht hdel
    · exact absurd h (by simp)
  | deletekey t =>
    simp only [State.next] at h
    split at h
    · next key ht =>
      obtain rfl := Option.some.inj h
      exact .deletekey t key ht
    · exact absurd h (by simp)
  | ret t op result =>
    simp only [State.next] at h
    split_ifs at h with ht
    obtain rfl := Option.some.inj h
    exact .ret t op result ht

/-! ### Keys that are gone -/

/-- The key is neither cached nor live. -/
def NotStored (s : Server) (key : Bytes) : Prop :=
  s.lookup key = none ∧ s.store.filelocationmap.find? key = none

variable {key : Bytes}

/-- A `get` stores no key that is not live, and finds none. -/
theorem NotStored.get {s s' : Server} (hs : s.Sound) (h : NotStored s key) {j stack v : Bytes}
    (hget : s.get j stack = some (s', v)) : NotStored s' key ∧ (j = key → v = []) := by
  have hd := Server.get_sameData hget
  refine ⟨⟨?_, by rw [hd.filelocationmap]; exact h.2⟩, ?_⟩
  · cases hc : s.cache with
    | none =>
      unfold Server.get at hget
      rw [hc] at hget
      obtain ⟨rfl, -⟩ := Prod.mk.inj (Option.some.inj hget)
      exact h.1
    | some c =>
      obtain ⟨hok, hne⟩ := hs c hc
      have hnone : c.lookup key = none := by
        have := h.1
        unfold Server.lookup at this
        rwa [hc] at this
      cases hk : c.lookup j with
      | some w =>
        have hw : w ≠ notFound := fun hw => hne j (by rw [hk, hw])
        obtain ⟨c', hget', -, hlook⟩ := Server.get_hit hc hok hk hw stack
        obtain ⟨rfl, -⟩ := Prod.mk.inj (Option.some.inj (hget.symm.trans hget'))
        exact (hlook key).trans hnone
      | none =>
        by_cases hfile : (s.store.getkey j stack).2 = notFound
        · obtain ⟨rfl, -⟩ :=
            Prod.mk.inj (Option.some.inj (hget.symm.trans (Server.get_absent hc hok hk hfile)))
          exact hnone
        · by_cases hstuck : c.Stuck
          · rw [Server.get_stuck hc hok hk hfile hstuck] at hget
            exact absurd hget (by simp)
          · -- the key that is cached now had a record, and `key` has none
            obtain ⟨c', hget', -, hlook⟩ := Server.get_file hc hok hk hfile hstuck
            obtain ⟨rfl, -⟩ := Prod.mk.inj (Option.some.inj (hget.symm.trans hget'))
            refine Option.eq_none_iff_forall_ne_some.mpr fun w hw => ?_
            rcases hlook key w hw with ⟨rfl, -⟩ | hw
            · exact hfile (by rw [Store.getkey_absent h.2])
            · rw [hnone] at hw
              exact absurd hw (by simp)
  · rintro rfl
    cases hc : s.cache with
    | none =>
      unfold Server.get at hget
      rw [hc] at hget
      exact (Prod.mk.inj (Option.some.inj hget)).2.symm
    | some c =>
      obtain ⟨hok, -⟩ := hs c hc
      have hnone : c.lookup j = none := by
        have := h.1
        unfold Server.lookup at this
        rwa [hc] at this
      have hfile : (s.store.getkey j stack).2 = notFound := by rw [Store.getkey_absent h.2]
      rw [Server.get_absent hc hok hnone hfile] at hget
      exact (Prod.mk.inj (Option.some.inj hget)).2.symm

theorem NotStored.put {s : Server} (h : NotStored s key) {j : Bytes} (hj : key ≠ j) (value : Bytes)
    (memory : ℕ → Byte) : NotStored (s.put j value memory) key := by
  refine ⟨h.1, ?_⟩
  show (s.store.filelocationmap.insert j _).find? key = none
  rw [SortedMap.find?_insert_of_ne _ _ hj]
  exact h.2

theorem find?_deletekey {s : Store} {j : Bytes} (h : s.filelocationmap.find? key = none ∨ key = j) :
    (s.deletekey j).1.filelocationmap.find? key = none := by
  unfold Store.deletekey
  cases hj : s.filelocationmap.find? j with
  | none =>
    rcases h with h | rfl
    · exact h
    · exact hj
  | some o =>
    show (s.filelocationmap.erase j).find? key = none
    rw [SortedMap.find?_erase]
    split_ifs with hkj
    · rfl
    · exact h.resolve_right hkj

/-- A `del` removes what is there, and its own key in any case when there is a cache. -/
theorem NotStored.del {s s' : Server} (hs : s.Sound) {j : Bytes} {status : ℤ}
    (h : NotStored s key ∨ key = j ∧ status = 1) (hdel : s.del j = some (s', status)) :
    NotStored s' key := by
  cases hc : s.cache with
  | none =>
    -- without a cache the status is 0 and nothing happens
    unfold Server.del at hdel
    rw [hc] at hdel
    obtain ⟨rfl, rfl⟩ := Prod.mk.inj (Option.some.inj hdel)
    exact h.resolve_right fun h => absurd h.2 (by decide)
  | some c =>
    obtain ⟨hok, -⟩ := hs c hc
    obtain ⟨c', hdel', -, hlook⟩ := Server.del_eq hc hok j
    obtain ⟨rfl, -⟩ := Prod.mk.inj (Option.some.inj (hdel.symm.trans hdel'))
    refine ⟨?_, find?_deletekey (h.imp And.right And.left)⟩
    show c'.lookup key = none
    rw [hlook]
    split_ifs with hkj
    · rfl
    · have := (h.resolve_right fun h => hkj h.1).1
      unfold Server.lookup at this
      rwa [hc] at this

/-- No `put` of the key is waiting for its critical section. -/
def NoPut (s : State) (key : Bytes) : Prop := ∀ t value, s.phase t ≠ .called (.put key value)

variable {s s' : State} {l : Label}

theorem goto_phase (s : State) (t u : Tid) (phase : Phase) (server : Server) :
    (s.goto t phase server).phase u = if u = t then phase else s.phase u := by
  unfold State.goto
  by_cases hu : u = t
  · rw [if_pos hu, hu]
    exact Function.update_self _ _ _
  · rw [if_neg hu]
    exact Function.update_of_ne hu _ _

/-- How a call of thread `t` comes to be finished: it was before, or this step is the one that
finishes it. -/
theorem Step.finished (hstep : Step s l s') {t : Tid} {op : Op} {r : Server.Result}
    (hfin : s'.phase t = .finished op r) :
    s.phase t = .finished op r ∨
      (∃ stack j value server, op = .get j ∧ r = .get value ∧
        s.server.get j stack = some (server, value)) ∨
      (∃ j value, op = .put j value) ∨
      (∃ j status, op = .del j ∧ r = .del status ∧ s.server.del j = some (s'.server, status)) ∨
      ∃ j, op = .del j ∧ l = .deletekey t ∧ s.phase t = .deleting j ∧
        s'.server = { s.server with store := (s.server.store.deletekey j).1 } := by
  cases hstep with
  | call u op' hu =>
    rw [goto_phase] at hfin
    split_ifs at hfin
    exact Or.inl hfin
  | get u memory stack j value server hu hget =>
    rw [goto_phase] at hfin
    split_ifs at hfin
    · obtain ⟨rfl, rfl⟩ := Phase.finished.inj hfin
      exact Or.inr (Or.inl ⟨stack, j, value, server, rfl, rfl, hget⟩)
    · exact Or.inl hfin
  | put u memory stack j value hu =>
    rw [goto_phase] at hfin
    split_ifs at hfin
    · obtain ⟨rfl, -⟩ := Phase.finished.inj hfin
      exact Or.inr (Or.inr (Or.inl ⟨j, value, rfl⟩))
    · exact Or.inl hfin
  | del u memory stack j server status hu hdel =>
    rw [goto_phase] at hfin
    split_ifs at hfin
    · obtain ⟨rfl, rfl⟩ := Phase.finished.inj hfin
      exact Or.inr (Or.inr (Or.inr (Or.inl ⟨j, status, rfl, rfl, hdel⟩)))
    · exact Or.inl hfin
  | delCache u memory stack j c c' hu hc hdel =>
    rw [goto_phase] at hfin
    split_ifs at hfin
    exact Or.inl hfin
  | deletekey u j hu =>
    rw [goto_phase] at hfin
    split_ifs at hfin with htu
    · obtain ⟨rfl, -⟩ := Phase.finished.inj hfin
      subst htu
      exact Or.inr (Or.inr (Or.inr (Or.inr ⟨j, rfl, rfl, hu, rfl⟩)))
    · exact Or.inl hfin
  | ret u op' result hu =>
    rw [goto_phase] at hfin
    split_ifs at hfin
    exact Or.inl hfin

theorem NoPut.goto (h : NoPut s key) {t : Tid} {phase : Phase} {server : Server}
    (hphase : ∀ value, phase ≠ .called (.put key value)) : NoPut (s.goto t phase server) key := by
  intro u value
  rw [goto_phase]
  split_ifs
  · exact hphase value
  · exact h u value

theorem NoPut.next (h : NoPut s key) (hl : ∀ t value, l ≠ .call t (.put key value))
    (hstep : Step s l s') : NoPut s' key := by
  cases hstep with
  | call t op ht =>
    refine h.goto fun value hp => ?_
    obtain rfl := Phase.called.inj hp
    exact hl t value rfl
  | get t memory stack key value server ht hget => exact h.goto fun _ => by simp
  | put t memory stack key value ht => exact h.goto fun _ => by simp
  | del t memory stack key server status ht hdel => exact h.goto fun _ => by simp
  | delCache t memory stack key c c' ht hc hdel => exact h.goto fun _ => by simp
  | deletekey t key ht => exact h.goto fun _ => by simp
  | ret t op result ht => exact h.goto fun _ => by simp

theorem sound_next (h : s.server.Sound) (hstep : Step s l s') : s'.server.Sound := by
  cases hstep with
  | call t op ht => exact h
  | get t memory stack key value server ht hget => exact h.get hget
  | put t memory stack key value ht => exact h
  | del t memory stack key server status ht hdel => exact h.del hdel
  | delCache t memory stack key c c' ht hc hdel =>
    obtain ⟨hok, hne⟩ := h _ hc
    obtain ⟨c₁, hdel₁, hok₁, hlook₁⟩ := Cache.del_spec hok key
    have heq : c₁ = .lfu c' := by
      have hmap : (c.del key).map Cache.lfu = some c₁ := hdel₁
      rw [hdel] at hmap
      exact (Option.some.inj hmap).symm
    subst heq
    intro c'' hc''
    obtain rfl := Option.some.inj hc''
    refine ⟨hok₁, fun k => ?_⟩
    rw [hlook₁]
    split_ifs
    · simp
    · exact hne k
  | deletekey t key ht => exact h
  | ret t op result ht => exact h

/-- The key is neither cached nor live, and no `put` of it is under way. -/
structure Gone (key : Bytes) (s : State) : Prop where
  sound : s.server.Sound
  noPut : NoPut s key
  notStored : NotStored s.server key

/-- **A key that is gone stays gone** until a `put` of it is called. -/
theorem Gone.next (h : Gone key s) (hl : ∀ t value, l ≠ .call t (.put key value))
    (hstep : Step s l s') : Gone key s' := by
  refine ⟨sound_next h.sound hstep, h.noPut.next hl hstep, ?_⟩
  have hns := h.notStored
  cases hstep with
  | call t op ht => exact hns
  | get t memory stack j value server ht hget => exact (hns.get h.sound hget).1
  | put t memory stack j value ht =>
    -- a `put` in its critical section was called for another key
    refine hns.put (fun hkj => ?_) value memory
    exact h.noPut t value (hkj ▸ ht)
  | del t memory stack j server status ht hdel =>
    exact NotStored.del h.sound (Or.inl hns) hdel
  | delCache t memory stack j c c' ht hc hdel =>
    obtain ⟨hok, -⟩ := h.sound _ hc
    obtain ⟨c₁, hdel₁, -, hlook₁⟩ := Cache.del_spec hok j
    have heq : c₁ = .lfu c' := by
      have hmap : (c.del j).map Cache.lfu = some c₁ := hdel₁
      rw [hdel] at hmap
      exact (Option.some.inj hmap).symm
    refine ⟨?_, hns.2⟩
    show (Cache.lfu c').lookup key = none
    rw [← heq, hlook₁]
    split_ifs
    · rfl
    · have := hns.1
      unfold Server.lookup at this
      rwa [hc] at this
  | deletekey t j ht => exact ⟨hns.1, find?_deletekey (Or.inl hns.2)⟩
  | ret t op result ht => exact hns

/-! ### A completed delete -/

/-- The second step of a `del` with an LFU cache finds its key not cached. -/
def Guarded (s : State) : Label → Prop
  | .deletekey t => ∀ key, s.phase t = .deleting key → s.server.lookup key = none
  | _ => True

instance (s : State) : ∀ l, Decidable (Guarded s l)
  | .deletekey t =>
    match h : s.phase t with
    | .deleting key => decidable_of_iff (s.server.lookup key = none)
        ⟨fun hnone _ hkey => Phase.deleting.inj (h.symm.trans hkey) ▸ hnone, fun hall => hall key h⟩
    | .idle | .called _ | .finished .. => .isTrue fun _ hkey => by rw [h] at hkey; cases hkey
  | .call .. | .lock .. | .ret .. => .isTrue trivial

/-- While a `del` of thread `t` is under way: once it has finished with 1 its key is gone. -/
structure Deleting (t : Tid) (key : Bytes) (s : State) : Prop where
  sound : s.server.Sound
  noPut : NoPut s key
  finished : s.phase t = .finished (.del key) (.del 1) → NotStored s.server key

theorem Deleting.next {t : Tid} (h : Deleting t key s) (hg : Guarded s l)
    (hl : ∀ t value, l ≠ .call t (.put key value)) (hstep : Step s l s') : Deleting t key s' := by
  refine ⟨sound_next h.sound hstep, h.noPut.next hl hstep, fun hfin => ?_⟩
  rcases hstep.finished hfin with hold | ⟨_, _, _, _, hop, -⟩ | ⟨_, _, hop⟩ |
      ⟨j, status, hop, hr, hdel⟩ | ⟨j, hop, rfl, hphase, hserver⟩
  · -- it had finished before, and a key that is gone stays gone
    exact (Gone.next ⟨h.sound, h.noPut, h.finished hold⟩ hl hstep).notStored
  · exact absurd hop (by simp)
  · exact absurd hop (by simp)
  · -- with an LRU cache, in the critical section
    obtain rfl := Op.del.inj hop
    obtain rfl := Server.Result.del.inj hr
    exact NotStored.del h.sound (Or.inr ⟨rfl, rfl⟩) hdel
  · -- with an LFU cache, outside of it
    obtain rfl := Op.del.inj hop
    rw [hserver]
    exact ⟨hg key hphase, find?_deletekey (Or.inr rfl)⟩

/-- While the key is gone, thread `u` reads nothing under it. -/
structure Reading (u : Tid) (key : Bytes) (s : State) : Prop where
  gone : Gone key s
  finished : ∀ r, s.phase u = .finished (.get key) r → r = .get []

theorem Reading.next {u : Tid} (h : Reading u key s)
    (hl : ∀ t value, l ≠ .call t (.put key value)) (hstep : Step s l s') : Reading u key s' := by
  refine ⟨h.gone.next hl hstep, fun r hfin => ?_⟩
  rcases hstep.finished hfin with hold | ⟨stack, j, value, server, hop, rfl, hget⟩ | ⟨_, _, hop⟩ |
      ⟨_, _, hop, -⟩ | ⟨_, hop, -⟩
  · exact h.finished r hold
  · rw [(h.gone.notStored.get h.gone.sound hget).2 (Op.get.inj hop).symm]
  · exact absurd hop (by simp)
  · exact absurd hop (by simp)
  · exact absurd hop (by simp)

/-- A run that starts with the call of a thread finds it idle. -/
theorem phase_of_call {t : Tid} {op : Op} {ls : List Label}
    (h : run State.next s (.call t op :: ls) = some s') : s.phase t = .idle := by
  rw [run_cons] at h
  obtain ⟨s₁, h₁, -⟩ := Option.bind_eq_some_iff.mp h
  simp only [State.next] at h₁
  split_ifs at h₁ with ht
  exact ht

/-- A run that starts with the return of a call finds it finished. -/
theorem phase_of_ret {t : Tid} {op : Op} {r : Server.Result} {ls : List Label}
    (h : run State.next s (.ret t op r :: ls) = some s') : s.phase t = .finished op r := by
  rw [run_cons] at h
  obtain ⟨s₁, h₁, -⟩ := Option.bind_eq_some_iff.mp h
  simp only [State.next] at h₁
  split_ifs at h₁ with ht
  exact ht

/-- **A completed delete is final**, along runs in which the second step of a `del` with an LFU
cache finds its key not cached. After `pre`, at a time when no `put` of the key is under way,
thread `t` calls `del` and gets 1, thread `u` then calls `get`, and meanwhile no `put` of the key
is called: the `get` is answered with the empty string. -/
theorem get_after_del (cachetype cachecapacity : ℤ) (t u : Tid) (key : Bytes)
    (r : Server.Result) (pre mid post₁ post₂ : List Label) (s₁ s₂ : State)
    (hguard : Along State.next Guarded (initial cachetype cachecapacity)
      (pre ++ (.call t (.del key) :: mid ++ .ret t (.del key) (.del 1) :: post₁ ++
        .call u (.get key) :: post₂ ++ [.ret u (.get key) r])))
    (hpre : run State.next (initial cachetype cachecapacity) pre = some s₁)
    (hrun : run State.next s₁ (.call t (.del key) :: mid ++ .ret t (.del key) (.del 1) :: post₁ ++
        .call u (.get key) :: post₂ ++ [.ret u (.get key) r]) = some s₂)
    (hput : ∀ v value, s₁.phase v ≠ .called (.put key value))
    (hnoput : ∀ v value, Label.call v (.put key value) ∉ mid ++ post₁ ++ post₂) : r = .get [] := by
  have hsound : s₁.server.Sound :=
    run_preserves (fun _ _ _ hs _ hnext => sound_next hs (step_of_next hnext))
      (Server.Sound.new _ _ _) (along_true _ _) hpre
  -- the states at the four marked steps
  obtain ⟨s₆, hrun, hret⟩ := run_split hrun
  obtain ⟨s₅, hrun, hpost₂⟩ := run_split hrun
  obtain ⟨s₃, hmid, hpost₁⟩ := run_split hrun
  have hcond := hguard.right hpre
  have hcond₂ := hcond.left.right (run_append_eq hmid hpost₁)
  have hcond₁ := hcond.left.left.right hmid
  -- the `del`, up to its return
  have hdel : Deleting t key s₃ := by
    have hidle : s₁.phase t = .idle := phase_of_call hmid
    refine run_preserves (fun _ _ _ h hc hnext => h.next hc.1 hc.2 (step_of_next hnext))
      ⟨hsound, hput, fun h => absurd (hidle.symm.trans h) (by simp)⟩
      (hcond.left.left.left.and_of_forall fun l hl v value => ?_) hmid
    rintro rfl
    rcases List.mem_cons.mp hl with h | h
    · exact absurd h (by simp)
    · exact hnoput v value (by simp [h])
  -- from its return to the call of the `get`
  have hgone : Gone key s₅ := by
    have hfin : s₃.phase t = .finished (.del key) (.del 1) := phase_of_ret hpost₁
    refine run_preserves (fun _ _ _ h hc hnext => h.next hc.2 (step_of_next hnext))
      ⟨hdel.sound, hdel.noPut, hdel.finished hfin⟩
      (hcond₁.and_of_forall fun l hl v value => ?_) hpost₁
    rintro rfl
    rcases List.mem_cons.mp hl with h | h
    · exact absurd h (by simp)
    · exact hnoput v value (by simp [h])
  -- the `get`, up to its return
  have hread : Reading u key s₆ := by
    have hidle : s₅.phase u = .idle := phase_of_call hpost₂
    refine run_preserves (fun _ _ _ h hc hnext => h.next hc.2 (step_of_next hnext))
      ⟨hgone, fun r h => absurd (hidle.symm.trans h) (by simp)⟩
      (hcond₂.and_of_forall fun l hl v value => ?_) hpost₂
    rintro rfl
    rcases List.mem_cons.mp hl with h | h
    · exact absurd h (by simp)
    · exact hnoput v value (by simp [h])
  exact hread.finished r (phase_of_ret hret)

/-- A delete with an LFU cache, whose two steps find the key not cached, and then a `get` of another
thread. -/
theorem get_after_del_uncached :
    ∃ s₁ s₂ r, run State.next (initial 2 1) [.call 0 (.put (ascii ['a']) (ascii ['1'])),
        .lock 0 (fun _ => 0) [], .ret 0 (.put (ascii ['a']) (ascii ['1'])) (.put 0)] = some s₁ ∧
      run State.next s₁ [.call 0 (.del (ascii ['a'])), .lock 0 (fun _ => 0) [], .deletekey 0,
        .ret 0 (.del (ascii ['a'])) (.del 1), .call 1 (.get (ascii ['a'])), .lock 1 (fun _ => 0) [],
        .ret 1 (.get (ascii ['a'])) r] = some s₂ ∧ r = .get [] := by
  obtain ⟨s₁, hs₁⟩ : ∃ s₁, s₁ = (((initial 2 1).goto 0 (.called (.put (ascii ['a']) (ascii ['1'])))
      (initial 2 1).server).goto 0 (.finished (.put (ascii ['a']) (ascii ['1'])) (.put 0))
      ((initial 2 1).server.put (ascii ['a']) (ascii ['1']) fun _ => 0)).goto 0 .idle
      ((initial 2 1).server.put (ascii ['a']) (ascii ['1']) fun _ => 0) := ⟨_, rfl⟩
  obtain ⟨s₂, hrun⟩ : ∃ s₂, run State.next s₁ (.call 0 (.del (ascii ['a'])) ::
      [.lock 0 (fun _ => 0) [], .deletekey 0] ++ .ret 0 (.del (ascii ['a'])) (.del 1) :: [] ++
      .call 1 (.get (ascii ['a'])) :: [.lock 1 (fun _ => 0) []] ++
      [.ret 1 (.get (ascii ['a'])) (.get [])]) = some s₂ := by
    refine Option.isSome_iff_exists.mp ?_
    rw [hs₁]
    decide +kernel
  have hpre : run State.next (initial 2 1) [.call 0 (.put (ascii ['a']) (ascii ['1'])),
      .lock 0 (fun _ => 0) [], .ret 0 (.put (ascii ['a']) (ascii ['1'])) (.put 0)] = some s₁ := by
    rw [hs₁]
    rfl
  refine ⟨s₁, s₂, .get [], hpre, hrun, get_after_del 2 1 0 1 _ _ _ _ [] _ s₁ s₂
    (by decide +kernel) hpre hrun (fun v value hv => ?_) (by simp)⟩
  rw [hs₁, goto_phase, goto_phase, goto_phase] at hv
  split_ifs at hv
  exact absurd hv (by simp [initial])

/-- **A deleted key that is read.** With an LFU cache, thread 1 gets the key between the two steps
of the `del` of thread 0. The `del` returns 1, and a `get` called after that returns the value. -/
theorem get_after_del_lfu :
    (run State.next (initial 2 1) ([.call 0 (.put (ascii ['a']) (ascii ['1'])),
        .lock 0 (fun _ => 0) [], .ret 0 (.put (ascii ['a']) (ascii ['1'])) (.put 0)] ++
      [.call 0 (.del (ascii ['a'])), .lock 0 (fun _ => 0) [], .call 1 (.get (ascii ['a'])),
        .lock 1 (fun _ => 0) [], .deletekey 0, .ret 0 (.del (ascii ['a'])) (.del 1),
        .ret 1 (.get (ascii ['a'])) (.get (ascii ['1'])),
        .call 1 (.get (ascii ['a'])), .lock 1 (fun _ => 0) [],
        .ret 1 (.get (ascii ['a'])) (.get (ascii ['1']))])).isSome = true := by
  decide +kernel

end Threads

end Kvs
