import Assignments.Kvs.Context

/-!
# What a put followed by a get returns

The PUT handler lets keys and values of 1 to 256 bytes through. For which of them does a `get`
right after the `put` answer with the value that was put, from every state a server can be in?

* `record_last` — a field of 256 bytes is not padded but dropped, and the record then ends with
  bytes that are not the program's;
* `put_getkey` — what `getkey` reads after a `putkey`, for every record number;
* `roundTrip_iff` — the answer: exactly under the conditions of `RoundTrips`.

The states are those of `Reachable`: any sequence of requests, and restarts from whatever the
context files hold. `Wf` is what holds in all of them.
-/

namespace Kvs

open Framework Function

/-! ### Records -/

/-- When a field was dropped, the last byte of the record is a byte behind the string. -/
theorem record_last {key value : Bytes} (h : 256 ≤ key.length ∨ 256 ≤ value.length) :
    ∃ i, ∀ memory, (record key value memory)[511]? = some (memory i) := by
  -- the string and its zero byte end before byte 511
  have hlen : (enc key ++ enc value).length + 1 ≤ 511 := by
    rw [List.length_append, enc_length, enc_length]
    split_ifs <;> omega
  refine ⟨511 - ((enc key ++ enc value).length + 1), fun memory => ?_⟩
  unfold record
  rw [List.getElem?_take_of_lt (by decide), List.getElem?_append_right (by omega)]
  obtain ⟨j, hj⟩ : ∃ j, 511 - (enc key ++ enc value).length = j + 1 :=
    ⟨511 - ((enc key ++ enc value).length + 1), by omega⟩
  rw [hj, List.getElem?_cons_succ, List.getElem?_map, List.getElem?_range (by omega)]
  show some (memory j) = _
  congr 2
  omega

/-- The record is the two padded fields, whatever follows the string, only if no field was
dropped. -/
theorem length_le_of_record_eq {key value : Bytes}
    (h : ∀ memory, record key value memory = pad key ++ pad value) :
    key.length ≤ 255 ∧ value.length ≤ 255 := by
  by_contra hlong
  have hdropped : 256 ≤ key.length ∨ 256 ≤ value.length := by omega
  obtain ⟨i, hi⟩ := record_last hdropped
  -- two memories that differ give two records that differ
  have h₀ := hi fun _ => 0
  have h₁ := hi fun _ => 1
  rw [h] at h₀ h₁
  exact absurd (h₀.symm.trans h₁) (by decide)

/-- The value field `getkey` reads right after a `putkey`. -/
theorem put_getkey (s : Store) (key value : Bytes) (memory : ℕ → Byte) (stack : Bytes) :
    ((s.putkey key value memory).getkey key stack).2 =
      decode (if s.fileoffsets (bucket key) % 2 ^ 23 < 2 ^ 22 then
        ((s.files (bucket key)).append (record key value memory)).slice
          (512 * (s.fileoffsets (bucket key) % 2 ^ 23).toNat + 256) 256 else []) stack := by
  have hfind : (s.putkey key value memory).filelocationmap.find? key =
      some (s.fileoffsets (bucket key)) := SortedMap.find?_insert_self _ _ _
  have hfile : (s.putkey key value memory).files (bucket key) =
      (s.files (bucket key)).append (record key value memory) := update_self _ _ _
  unfold Store.getkey
  simp only [hfind, hfile]
  rw [read_seek_valueindex rfl]

namespace Server

/-! ### Reachable states -/

/-- A server that has served requests, in any number of sessions. A restart opens the bucket
files again and reads what the context files hold. -/
inductive Reachable : Server → Prop
  | start (cachetype cachecapacity : ℤ) : Reachable (start cachetype cachecapacity)
  | serve {s s' : Server} {r : Request} (hs : Reachable s) (hr : s.serve r = some s') :
      Reachable s'
  | restart {s : Server} {store : Store} (context : Context) (cachetype cachecapacity : ℤ)
      (hs : Reachable s) (hstore : s.store.reopen.initializefileinfo context = some store) :
      Reachable ⟨store, Cache.new cachetype cachecapacity⟩

/-- The cache is sound, and the bucket files hold whole records. -/
structure Wf (s : Server) : Prop where
  cache : s.Sound
  aligned : ∀ b, 512 ∣ (s.store.files b).content.length

variable {s : Server} {key value stack : Bytes}

theorem Wf.serve (hs : s.Wf) {s' : Server} {r : Request} (h : s.serve r = some s') : s'.Wf := by
  refine ⟨?_, ?_⟩
  · cases r with
    | put key value memory =>
      obtain rfl := Option.some.inj h
      unfold putProceed
      split_ifs
      · exact hs.cache
      · exact hs.cache
      · exact hs.cache
    | get key stack =>
      obtain ⟨⟨t, reply⟩, hget, rfl⟩ := Option.map_eq_some_iff.mp h
      obtain ⟨⟨t', value⟩, hget', hreply⟩ := Option.map_eq_some_iff.mp hget
      have ht : t' = t := by
        simp only at hreply
        split_ifs at hreply
        · exact (Prod.mk.inj hreply).1
        · exact (Prod.mk.inj hreply).1
      exact ht ▸ hs.cache.get hget'
    | del key =>
      obtain ⟨⟨t, reply⟩, hdel, rfl⟩ := Option.map_eq_some_iff.mp h
      obtain ⟨⟨t', status⟩, hdel', hreply⟩ := Option.map_eq_some_iff.mp hdel
      have ht : t' = t := by
        simp only at hreply
        split_ifs at hreply
        · exact (Prod.mk.inj hreply).1
        · exact (Prod.mk.inj hreply).1
      exact ht ▸ hs.cache.del hdel'
  · intro b
    rcases serve_store h with ⟨key, value, memory, -, hstore⟩ | ⟨key, hstore⟩ | hd
    · rw [hstore]
      show 512 ∣ (update s.store.files (bucket key) _ b).content.length
      by_cases hb : b = bucket key
      · subst hb
        rw [update_self, File.append_content, List.length_append, record_length]
        exact Nat.dvd_add (hs.aligned _) (Nat.dvd_refl _)
      · rw [update_of_ne hb]
        exact hs.aligned b
    · rw [hstore]
      unfold Store.deletekey
      cases s.store.filelocationmap.find? key <;> exact hs.aligned b
    · rw [hd.content]
      exact hs.aligned b

/-- **Well-formedness of reachable servers.** -/
theorem Reachable.wf (h : Reachable s) : s.Wf := by
  induction h with
  | start cachetype cachecapacity => exact ⟨Sound.new _ _ _, fun b => Nat.dvd_zero 512⟩
  | serve hs hr ih => exact ih.serve hr
  | restart context cachetype cachecapacity hs hstore ih =>
    refine ⟨Sound.new _ _ _, fun b => ?_⟩
    obtain ⟨fo, -, rfl⟩ := Option.map_eq_some_iff.mp hstore
    exact ih.aligned b

/-! ### The round trip -/

/-- When a `put` of the pair followed by a `get` of the key answers with the value. -/
structure RoundTrips (s : Server) (key value : Bytes) : Prop where
  key_length : key.length ≤ 255
  value_length : value.length ≤ 255
  value_bytes : ∀ b ∈ value, b ≠ blank ∧ b ≠ 0
  value_ne : value ≠ notFound
  /-- `cachetype` is 1 or 2, and the cache can take a new key. -/
  cache : ∃ c, s.cache = some c ∧ ¬ c.Stuck
  /-- The record number, as the 32-bit offset has it, is not negative and is that of the new
  record, or that of an old record which happens to hold the value. -/
  lands : s.store.fileoffsets (bucket key) % 2 ^ 23 < 2 ^ 22 ∧
    (512 * (s.store.fileoffsets (bucket key) % 2 ^ 23).toNat =
        (s.store.files (bucket key)).content.length ∨
      512 * (s.store.fileoffsets (bucket key) % 2 ^ 23).toNat <
          (s.store.files (bucket key)).content.length ∧
        ∀ stack, decode ((s.store.files (bucket key)).slice
          (512 * (s.store.fileoffsets (bucket key) % 2 ^ 23).toNat + 256) 256) stack = value)

/-- Under the conditions, the record reads back. -/
theorem RoundTrips.getkey (hs : s.Wf) (h : s.RoundTrips key value) (memory : ℕ → Byte)
    (stack : Bytes) : ((s.store.putkey key value memory).getkey key stack).2 = value := by
  obtain ⟨hlt, hnew | ⟨hold, hdec⟩⟩ := h.lands
  · -- the new record
    rw [put_getkey, if_pos hlt, hnew, File.slice_append_new,
      record_drop h.key_length h.value_length, decode_pad h.value_length h.value_bytes]
  · -- an old one, which the append left alone
    obtain ⟨n, hn⟩ := hs.aligned (bucket key)
    rw [put_getkey, if_pos hlt, File.slice_append_old (by omega), hdec]

/-- The bytes read after a `put` that always reads back come from a record number that lands. -/
theorem lands_of_getkey (hs : s.Wf) (hv : 1 ≤ value.length)
    (h : ∀ stack, ((s.store.putkey key value fun _ => 0).getkey key stack).2 = value) :
    s.store.fileoffsets (bucket key) % 2 ^ 23 < 2 ^ 22 ∧
    (512 * (s.store.fileoffsets (bucket key) % 2 ^ 23).toNat =
        (s.store.files (bucket key)).content.length ∨
      512 * (s.store.fileoffsets (bucket key) % 2 ^ 23).toNat <
          (s.store.files (bucket key)).content.length ∧
        ∀ stack, decode ((s.store.files (bucket key)).slice
          (512 * (s.store.fileoffsets (bucket key) % 2 ^ 23).toNat + 256) 256) stack = value) := by
  -- an empty read into an empty buffer gives an empty string
  have hempty : decode [] [] ≠ value := by
    intro hnil
    have : value.length = 0 := by rw [← hnil]; rfl
    omega
  obtain ⟨n, hn⟩ := hs.aligned (bucket key)
  have hlt : s.store.fileoffsets (bucket key) % 2 ^ 23 < 2 ^ 22 := by
    by_contra hge
    refine hempty ?_
    rw [← h [], put_getkey, if_neg hge]
  refine ⟨hlt, ?_⟩
  rcases lt_trichotomy (512 * (s.store.fileoffsets (bucket key) % 2 ^ 23).toNat)
      (s.store.files (bucket key)).content.length with hlow | heq | hhigh
  · refine Or.inr ⟨hlow, fun stack => ?_⟩
    rw [← h stack, put_getkey, if_pos hlt, File.slice_append_old (by omega)]
  · exact Or.inl heq
  · -- behind the new record nothing is read
    refine absurd ?_ hempty
    rw [← h [], put_getkey, if_pos hlt, File.slice_of_length_le]
    rw [File.append_content, List.length_append, record_length]
    omega

/-- **Put, then get.** In every reachable state in which the key is not cached, and for every key
and value that the PUT handler accepts: the PUT is answered with success, the 512 bytes it appends
are the two padded fields, and the GET that follows is answered with the value, whatever memory
the two reads outside the program's objects find, exactly when `RoundTrips` holds. -/
theorem roundTrip_iff (s : Server) (hs : Reachable s) (key value : Bytes)
    (hkey : 1 ≤ key.length ∧ key.length ≤ 256) (hvalue : 1 ≤ value.length ∧ value.length ≤ 256)
    (hcached : s.lookup key = none) :
    (∀ memory stack, ∃ s₁ s₂, s.putProceed key value memory = (s₁, ⟨"", SUCCESS⟩) ∧
        (s₁.store.files (bucket key)).content =
          (s.store.files (bucket key)).content ++ (pad key ++ pad value) ∧
        s₁.get key stack = some (s₂, value) ∧
        s₁.getProceed key stack = some (s₂, ⟨value, SUCCESS, ""⟩)) ↔
      s.RoundTrips key value := by
  have hwf := hs.wf
  have hput : ∀ memory, s.putProceed key value memory =
    (s.put key value memory, ⟨"", SUCCESS⟩) := by
    intro memory
    unfold putProceed
    rw [if_neg (by omega), if_neg (by omega)]
  have hcontent : ∀ memory, ((s.put key value memory).store.files (bucket key)).content =
      (s.store.files (bucket key)).content ++ record key value memory := by
    intro memory
    show (update s.store.files (bucket key) _ (bucket key)).content = _
    rw [update_self, File.append_content]
  have hne : value ≠ [] := List.length_pos_iff.mp hvalue.1
  constructor
  · intro h
    have hget : ∀ memory stack, ∃ s₂, (s.put key value memory).get key stack =
      some (s₂, value) := by
      intro memory stack
      obtain ⟨s₁, s₂, hs₁, -, hget, -⟩ := h memory stack
      obtain ⟨rfl, -⟩ := Prod.mk.inj ((hput memory).symm.trans hs₁)
      exact ⟨s₂, hget⟩
    -- the lengths, from the bytes written
    have hrecord : ∀ memory, record key value memory = pad key ++ pad value := by
      intro memory
      obtain ⟨s₁, s₂, hs₁, hc, -, -⟩ := h memory []
      obtain ⟨rfl, -⟩ := Prod.mk.inj ((hput memory).symm.trans hs₁)
      rw [hcontent] at hc
      exact List.append_cancel_left hc
    obtain ⟨hklen, hvlen⟩ := length_le_of_record_eq hrecord
    -- the cache, and that the answer came from the file
    obtain ⟨c, hc⟩ : ∃ c, s.cache = some c := by
      cases hc : s.cache with
      | some c => exact ⟨c, rfl⟩
      | none =>
        obtain ⟨s₂, hget⟩ := hget (fun _ => 0) []
        have hnone : (s.put key value fun _ => 0).cache = none := hc
        unfold get at hget
        rw [hnone] at hget
        exact absurd (Prod.mk.inj (Option.some.inj hget)).2.symm hne
    obtain ⟨hok, -⟩ := hwf.cache c hc
    have hmiss : c.lookup key = none := by
      unfold lookup at hcached
      rw [hc] at hcached
      exact hcached
    have hfile : ∀ memory stack,
        ((s.put key value memory).store.getkey key stack).2 = value ∧ value ≠ notFound ∧
          ¬ c.Stuck := by
      intro memory stack
      obtain ⟨s₂, hget⟩ := hget memory stack
      have hc₁ : (s.put key value memory).cache = some c := hc
      by_cases hfile : ((s.put key value memory).store.getkey key stack).2 = notFound
      · rw [get_absent hc₁ hok hmiss hfile] at hget
        exact absurd (Prod.mk.inj (Option.some.inj hget)).2.symm hne
      · by_cases hstuck : c.Stuck
        · rw [get_stuck hc₁ hok hmiss hfile hstuck] at hget
          exact absurd hget (by simp)
        · obtain ⟨c', hget', -, -⟩ := get_file hc₁ hok hmiss hfile hstuck
          have hv := (Prod.mk.inj (Option.some.inj (hget'.symm.trans hget))).2
          exact ⟨hv, hv ▸ hfile, hstuck⟩
    have hval := fun stack => (hfile (fun _ => 0) stack).1
    refine ⟨hklen, hvlen, ?_, (hfile (fun _ => 0) []).2.1, ⟨c, hc, (hfile (fun _ => 0) []).2.2⟩,
      lands_of_getkey hwf hvalue.1 hval⟩
    rw [← hval [], show (s.put key value fun _ => 0).store = s.store.putkey key value fun _ => 0
      from rfl, put_getkey]
    exact decode_bytes
  · intro h memory stack
    obtain ⟨c, hc, hstuck⟩ := h.cache
    obtain ⟨hok, -⟩ := hwf.cache c hc
    have hmiss : c.lookup key = none := by
      unfold lookup at hcached
      rw [hc] at hcached
      exact hcached
    have hval : ((s.put key value memory).store.getkey key stack).2 = value :=
      h.getkey hwf memory stack
    have hc₁ : (s.put key value memory).cache = some c := hc
    have hfile : ((s.put key value memory).store.getkey key stack).2 ≠ notFound := by
      rw [hval]
      exact h.value_ne
    obtain ⟨c', hget, -, -⟩ := get_file hc₁ hok hmiss hfile hstuck
    rw [hval] at hget
    refine ⟨_, _, hput memory, ?_, hget, ?_⟩
    · rw [hcontent, record_eq h.key_length h.value_length]
    · unfold getProceed
      rw [hget, Option.map_some]
      show some (if value = [] then _ else _) = _
      rw [if_neg hne]

/-- `put(a, 1)` and `get(a)` on a first start with an LRU cache for one key. -/
theorem roundTrip_a :
    ∃ s₁ s₂, (start 1 1).putProceed (ascii ['a']) (ascii ['1']) (fun _ => 0) =
        (s₁, ⟨"", SUCCESS⟩) ∧
      (s₁.store.files (bucket (ascii ['a']))).content =
        ((start 1 1).store.files (bucket (ascii ['a']))).content ++
          (pad (ascii ['a']) ++ pad (ascii ['1'])) ∧
      s₁.get (ascii ['a']) [] = some (s₂, ascii ['1']) ∧
      s₁.getProceed (ascii ['a']) [] = some (s₂, ⟨ascii ['1'], SUCCESS, ""⟩) := by
  refine (roundTrip_iff (start 1 1) (.start 1 1) (ascii ['a']) (ascii ['1']) (by decide) (by decide)
    rfl).mpr ⟨by decide, by decide, by decide +kernel, by decide, ⟨_, rfl, by decide⟩, ?_⟩
    (fun _ => 0) []
  exact ⟨by decide, Or.inl rfl⟩

/-- **A value of 256 bytes.** The PUT is answered with success, and the GET that follows says that
the key does not exist. -/
theorem roundTrip_256 :
    (((start 1 1).putProceed (ascii ['a']) (List.replicate 256 65) fun _ => 0).2.puterrorcode =
      SUCCESS) ∧
    ((((start 1 1).putProceed (ascii ['a']) (List.replicate 256 65) fun _ => 0).1.getProceed
      (ascii ['a']) []).map fun r => (r.2.getvalue, r.2.geterrorcode)) = some ([], FAILURE) := by
  decide +kernel

end Server

end Kvs
