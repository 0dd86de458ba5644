import Assignments.Kvs.Context

/-!
# Sessions

A run of the server is a sequence of sessions, each of which ends in `signalHandler`, which saves
the context files, or is killed between two requests. The bucket files are appended to at once and
outlive both ends; `filelocationmap` and `fileoffsets` are what the last saved context says.

`getkey` never looks at the key of the record it reads, so everything rests on one invariant:
record `o` of the bucket of `k` was written for `k` whenever `filelocationmap` maps `k` to `o`.

* `OwnRecords` is this property, with the records counted by the puts of the whole run.
* `killed_then_put` — it fails after a kill: the saved `fileoffsets` is behind the file, and the
  next put is entered under the number of an older record.
* `ownRecords_of_along` — it holds along every run in which each put finds `fileoffsets` equal to
  the number of records in its file, and each orderly shutdown finds keys that survive the context
  file. Kills need no condition.
-/

namespace Kvs

open Framework Function

/-- The running process and the context files on disk. -/
structure Sessions where
  store : Store
  context : Context

namespace Sessions

inductive Event where
  | put (key value : Bytes) (memory : ℕ → Byte)
  | get (key stack : Bytes)
  | del (key : Bytes)
  /-- `signalHandler`, and a new process. -/
  | shutdown
  /-- An abrupt termination, and a new process. -/
  | kill

/-- A new process on the files `s` has left and the context files. -/
def restart (s : Sessions) (context : Context) : Option Sessions :=
  (s.store.reopen.initializefileinfo context).map fun store => { store, context }

def step (s : Sessions) : Event → Option Sessions
  | .put key value memory => some { s with store := s.store.putkey key value memory }
  | .get key stack => some { s with store := (s.store.getkey key stack).1 }
  | .del key => some { s with store := (s.store.deletekey key).1 }
  | .shutdown => s.restart s.store.contexttofile
  | .kill => s.restart s.context

/-- The first session starts with no file at all. -/
def initial : Sessions := ⟨Store.empty, ⟨[], []⟩⟩

/-! ### The records of a run -/

/-- The arguments of a put. -/
structure Put where
  key : Bytes
  value : Bytes
  memory : ℕ → Byte

def Put.record (p : Put) : Bytes := Kvs.record p.key p.value p.memory

/-- The put of an event into bucket `b`. -/
def putOf (b : Fin totalfiles) : Event → Option Put
  | .put key value memory => if bucket key = b then some ⟨key, value, memory⟩ else none
  | _ => none

/-- The puts into bucket `b`, in order: record `n` of the file is that of put number `n`. -/
def putsOf (b : Fin totalfiles) (done : List Event) : List Put := done.filterMap (putOf b)

/-- **Every key has its own records.** `filelocationmap` maps a key to the number of a record
that was put under this key, and `getkey` reads the value field of that record. -/
def OwnRecords (done : List Event) (s : Sessions) : Prop :=
  ∀ key o, s.store.filelocationmap.find? key = some o →
    ∃ (n : ℕ) (p : Put), o = n ∧ (putsOf (bucket key) done)[n]? = some p ∧ p.key = key ∧
      (s.store.files (bucket key)).slice (512 * n) 512 = p.record ∧
      ∀ stack, (s.store.getkey key stack).2 = decode ((p.record.drop 256).take 256) stack

/-- The state before an event from which it keeps the records apart. -/
def Careful (s : Sessions) : Event → Prop
  | .put key _ _ =>
    512 * s.store.fileoffsets (bucket key) = (s.store.files (bucket key)).content.length ∧
      s.store.fileoffsets (bucket key) < 2 ^ 22
  | .shutdown => ∀ key, s.store.filelocationmap.find? key ≠ none → Plaintext key
  | _ => True

/-! ### The invariant -/

/-- The map gives each key the number of a record that was put under it. -/
def Owns (done : List Event) (m : SortedMap Bytes ℤ) : Prop :=
  ∀ key o, m.find? key = some o → ∃ (n : ℕ) (p : Put), o = n ∧ n < 2 ^ 22 ∧
    (putsOf (bucket key) done)[n]? = some p ∧ p.key = key

structure Inv (done : List Event) (s : Sessions) : Prop where
  files : ∀ b, (s.store.files b).content = (putsOf b done).flatMap Put.record
  owns : Owns done s.store.filelocationmap
  offsets : ∀ b, -2 ^ 31 ≤ s.store.fileoffsets b ∧ s.store.fileoffsets b < 2 ^ 31
  /-- What a new process would read from the context files. -/
  saved : ∃ fileoffsets, loadOffsets s.context.fileoffsets.length s.context.fileoffsets 0
      (fun _ => 0) = some fileoffsets ∧ (∀ b, -2 ^ 31 ≤ fileoffsets b ∧ fileoffsets b < 2 ^ 31) ∧
    Owns done (loadLocations s.context.filecontext.length s.context.filecontext SortedMap.empty)

variable {done : List Event} {s : Sessions} {m : SortedMap Bytes ℤ}

theorem zero_range : (-2 ^ 31 : ℤ) ≤ 0 ∧ (0 : ℤ) < 2 ^ 31 := by decide

theorem Inv.initial : Inv [] initial where
  files _ := rfl
  owns k o h := absurd h (by simp [Sessions.initial, Store.empty])
  offsets _ := zero_range
  saved := ⟨fun _ => 0, rfl, fun _ => zero_range, fun k o h =>
    absurd h (by simp [Sessions.initial, loadLocations])⟩

/-- Later events do not renumber the records. -/
theorem Owns.concat (h : Owns done m) (a : Event) : Owns (done ++ [a]) m := by
  intro key o hk
  obtain ⟨n, p, ho, hn, hp, hkey⟩ := h key o hk
  refine ⟨n, p, ho, hn, ?_, hkey⟩
  unfold putsOf at hp ⊢
  rw [List.filterMap_append, List.getElem?_append_left (List.getElem?_eq_some_iff.mp hp).1]
  exact hp

theorem Owns.erase (h : Owns done m) (key : Bytes) : Owns done (m.erase key) := by
  intro k o hk
  rw [SortedMap.find?_erase] at hk
  split_ifs at hk
  exact h k o hk

theorem flatMap_record_length (l : List Put) : (l.flatMap Put.record).length = 512 * l.length := by
  induction l with
  | nil => rfl
  | cons p l ih =>
    rw [List.flatMap_cons, List.length_append, ih, List.length_cons]
    show (record _ _ _).length + _ = _
    rw [record_length]
    omega

/-- Record `n` of a file of records. -/
theorem slice_record {f : File Byte} {l : List Put} (hf : f.content = l.flatMap Put.record) {n : ℕ}
    {p : Put} (hp : l[n]? = some p) : f.slice (512 * n) 512 = p.record := by
  obtain ⟨hn, rfl⟩ := List.getElem?_eq_some_iff.mp hp
  -- split the list of puts around number `n`
  have hsplit : l = l.take n ++ l[n] :: l.drop (n + 1) := by
    rw [← List.drop_eq_getElem_cons hn, List.take_append_drop]
  have hlen : ((l.take n).flatMap Put.record).length = 512 * n := by
    rw [flatMap_record_length, List.length_take_of_le hn.le]
  have hrec : (l[n].record).length = 512 := record_length _ _ _
  unfold File.slice
  rw [hf]
  nth_rewrite 1 [hsplit]
  rw [List.flatMap_append, List.flatMap_cons, List.drop_append_of_le_length hlen.ge,
    List.drop_of_length_le hlen.le, List.nil_append, List.take_append_of_le_length hrec.ge,
    List.take_of_length_le hrec.le]

/-- The invariant gives every key its own records. -/
theorem Inv.ownRecords (h : Inv done s) : OwnRecords done s := by
  intro key o hk
  obtain ⟨n, p, rfl, hn, hp, hkey⟩ := h.owns key o hk
  have hslice := slice_record (h.files (bucket key)) hp
  refine ⟨n, p, rfl, hp, hkey, hslice, fun stack => ?_⟩
  rw [Store.getkey_live hk hn, ← hslice]
  unfold File.slice
  rw [List.drop_take, List.drop_drop, List.take_take]
  rfl

/-! ### The events -/

theorem putsOf_concat (b : Fin totalfiles) (done : List Event) (a : Event) :
    putsOf b (done ++ [a]) = putsOf b done ++ (putOf b a).toList := by
  unfold putsOf
  rw [List.filterMap_append]
  cases h : putOf b a with
  | none => simp [h]
  | some p => simp [h]

/-- An event that is no put leaves the files as they are. -/
theorem putsOf_concat_of_none {a : Event} (ha : ∀ b, putOf b a = none) (b : Fin totalfiles)
    (done : List Event) : putsOf b (done ++ [a]) = putsOf b done := by
  rw [putsOf_concat, ha b]
  exact List.append_nil _

theorem Inv.put (h : Inv done s) (key value : Bytes) (memory : ℕ → Byte)
    (hfile : 512 * s.store.fileoffsets (bucket key) = (s.store.files (bucket key)).content.length)
    (hlt : s.store.fileoffsets (bucket key) < 2 ^ 22) :
    Inv (done ++ [.put key value memory]) { s with store := s.store.putkey key value memory } := by
  have hself : putOf (bucket key) (.put key value memory) = some ⟨key, value, memory⟩ :=
    if_pos rfl
  -- the number the put is entered under is the number of its record
  have hnum : s.store.fileoffsets (bucket key) = (putsOf (bucket key) done).length := by
    rw [h.files, flatMap_record_length] at hfile
    omega
  refine ⟨fun b => ?_, fun k o hk => ?_, fun b => ?_, ?_⟩
  · show (update s.store.files (bucket key) _ b).content = _
    by_cases hb : b = bucket key
    · subst hb
      rw [update_self, File.append_content, h.files, putsOf_concat, hself]
      simp [Put.record]
    · have hother : putOf b (.put key value memory) = none := if_neg fun h => hb h.symm
      rw [update_of_ne hb, h.files, putsOf_concat, hother]
      simp
  · replace hk : (s.store.filelocationmap.insert key _).find? k = some o := hk
    rw [SortedMap.find?_insert] at hk
    split_ifs at hk with hkk
    · -- the new record is behind the others
      obtain rfl := Option.some.inj hk
      subst hkk
      refine ⟨_, ⟨k, value, memory⟩, hnum, by omega, ?_, rfl⟩
      rw [putsOf_concat, hself]
      simp
    · exact h.owns.concat _ k o hk
  · show -2 ^ 31 ≤ update s.store.fileoffsets (bucket key) _ b ∧
      update s.store.fileoffsets (bucket key) _ b < 2 ^ 31
    by_cases hb : b = bucket key
    · subst hb
      rw [update_self]
      exact int32_range _
    · rw [update_of_ne hb]
      exact h.offsets b
  · obtain ⟨fo, hfo, hrange, hown⟩ := h.saved
    exact ⟨fo, hfo, hrange, hown.concat _⟩

/-- The offsets a new process reads fit into an `int`. -/
theorem loadOffsets_range {fuel : ℕ} {text : Bytes} {i : ℕ} {fo fo' : Fin totalfiles → ℤ}
    (hfo : ∀ b, -2 ^ 31 ≤ fo b ∧ fo b < 2 ^ 31) (h : loadOffsets fuel text i fo = some fo') :
    ∀ b, -2 ^ 31 ≤ fo' b ∧ fo' b < 2 ^ 31 := by
  induction fuel generalizing text i fo with
  | zero => exact Option.some.inj h ▸ hfo
  | succ fuel ih =>
    unfold loadOffsets at h
    cases hr : Text.readInt text with
    | none =>
      rw [hr] at h
      exact Option.some.inj h ▸ hfo
    | some or =>
      obtain ⟨o, rest⟩ := or
      simp only [hr] at h
      split_ifs at h with hi
      refine ih (fun b => ?_) h
      by_cases hb : b = ⟨i, hi⟩
      · rw [hb, update_self]
        exact Text.readInt_range hr
      · rw [update_of_ne hb]
        exact hfo b

/-- A restart reads what the context files hold, and finds the bucket files as they were. -/
theorem Inv.restart (h : Inv done s) {a : Event} (ha : ∀ b, putOf b a = none) {context : Context}
    (hsaved : ∃ fileoffsets, loadOffsets context.fileoffsets.length context.fileoffsets 0
        (fun _ => 0) = some fileoffsets ∧ (∀ b, -2 ^ 31 ≤ fileoffsets b ∧ fileoffsets b < 2 ^ 31) ∧
      Owns done (loadLocations context.filecontext.length context.filecontext SortedMap.empty)) :
    ∃ s', s.restart context = some s' ∧ Inv (done ++ [a]) s' := by
  obtain ⟨fo, hfo, hrange, hown⟩ := hsaved
  refine ⟨⟨⟨s.store.reopen.files, loadLocations context.filecontext.length context.filecontext
      SortedMap.empty, fo⟩, context⟩, ?_, fun b => ?_, hown.concat a, hrange, fo, hfo, hrange,
    hown.concat a⟩
  · unfold Sessions.restart Store.initializefileinfo
    rw [show s.store.reopen.fileoffsets = fun _ => 0 from rfl, hfo]
    rfl
  · rw [putsOf_concat_of_none ha]
    exact h.files b

/-- **One event** keeps the records apart, and has a result. -/
theorem Inv.step (h : Inv done s) {a : Event} (ha : s.Careful a) :
    ∃ s', s.step a = some s' ∧ Inv (done ++ [a]) s' := by
  have hsaved := h.saved
  cases a with
  | put key value memory => exact ⟨_, rfl, h.put key value memory ha.1 ha.2⟩
  | get key stack =>
    have hd := Store.getkey_sameData s.store key stack
    have hputs : ∀ b, putsOf b (done ++ [.get key stack]) = putsOf b done := fun b =>
      putsOf_concat_of_none (fun _ => rfl) b done
    obtain ⟨fo, hfo, hrange, hown⟩ := hsaved
    refine ⟨_, rfl, fun b => ?_, ?_, fun b => ?_, fo, hfo, hrange, hown.concat _⟩
    · rw [hputs]
      exact (hd.content b).trans (h.files b)
    · show Owns _ (s.store.getkey key stack).1.filelocationmap
      rw [hd.filelocationmap]
      exact h.owns.concat _
    · show -2 ^ 31 ≤ (s.store.getkey key stack).1.fileoffsets b ∧ _
      rw [hd.fileoffsets]
      exact h.offsets b
  | del key =>
    have hputs : ∀ b, putsOf b (done ++ [.del key]) = putsOf b done := fun b =>
      putsOf_concat_of_none (fun _ => rfl) b done
    obtain ⟨fo, hfo, hrange, hown⟩ := hsaved
    have hdel : (s.store.deletekey key).1.files = s.store.files ∧
        (s.store.deletekey key).1.fileoffsets = s.store.fileoffsets ∧
        Owns done (s.store.deletekey key).1.filelocationmap := by
      unfold Store.deletekey
      cases s.store.filelocationmap.find? key with
      | none => exact ⟨rfl, rfl, h.owns⟩
      | some o => exact ⟨rfl, rfl, h.owns.erase key⟩
    refine ⟨_, rfl, fun b => ?_, hdel.2.2.concat _, fun b => ?_, fo, hfo, hrange, hown.concat _⟩
    · rw [hputs]
      show ((s.store.deletekey key).1.files b).content = _
      rw [hdel.1]
      exact h.files b
    · show -2 ^ 31 ≤ (s.store.deletekey key).1.fileoffsets b ∧ _
      rw [hdel.2.1]
      exact h.offsets b
  | shutdown =>
    -- the context files are written first, and read back what they were written from
    refine h.restart (fun _ => rfl) ?_
    have hread := Store.initializefileinfo_contexttofile h.offsets
    unfold Store.initializefileinfo at hread
    obtain ⟨fo, hfo, heq⟩ := Option.map_eq_some_iff.mp hread
    have hloc : loadLocations s.store.contexttofile.filecontext.length
        s.store.contexttofile.filecontext SortedMap.empty = s.store.filelocationmap := by
      refine Store.loadLocations_contexttofile fun k o hk => ⟨ha k (by rw [hk]; simp), ?_⟩
      obtain ⟨n, -, rfl, hn, -⟩ := h.owns k o hk
      omega
    refine ⟨fo, hfo, loadOffsets_range (fun _ => zero_range) hfo, ?_⟩
    rw [hloc]
    exact h.owns
  | kill => exact h.restart (fun _ => rfl) hsaved

/-- **No record is taken for another key's** along a careful run: in every state of a run of
sessions each of whose events is careful in the state it happens in, every live key is mapped to
a record that was put under this key, and `getkey` reads that record. -/
theorem ownRecords_of_along (events : List Event) (h : Along step Careful initial events) :
    ∀ done rest, events = done ++ rest →
      ∃ s, run step initial done = some s ∧ OwnRecords done s := by
  intro done rest hsplit
  have hdone : Along step Careful initial done := (hsplit ▸ h).left
  obtain ⟨s, hrun, hinv⟩ := run_history (fun _ _ _ hinv ha => hinv.step ha) Inv.initial hdone
  exact ⟨s, hrun, hinv.ownRecords⟩

/-- A put, an orderly shutdown and a kill. -/
theorem ownRecords_put_shutdown_kill :
    ∃ s, run step initial [.put (ascii ['a']) (ascii ['1']) (fun _ => 0), .shutdown,
      .kill] = some s ∧
      OwnRecords [.put (ascii ['a']) (ascii ['1']) (fun _ => 0), .shutdown, .kill] s := by
  refine ownRecords_of_along [.put (ascii ['a']) (ascii ['1']) (fun _ => 0), .shutdown, .kill] ?_
    _ [] rfl
  refine ⟨⟨by decide, by decide⟩, fun s hs => ⟨?_, fun _ _ => ⟨trivial, fun _ _ => trivial⟩⟩⟩
  obtain rfl := Option.some.inj hs
  intro key hkey
  replace hkey : ((SortedMap.empty : SortedMap Bytes ℤ).insert (ascii ['a']) 0).find? key ≠ none :=
    hkey
  rw [SortedMap.find?_insert] at hkey
  split_ifs at hkey with hk
  · rw [hk]
    exact ⟨by decide, by decide +kernel⟩
  · exact absurd rfl hkey

/-- **A record taken for another key's.** `a1` is put and the process killed; the next process
puts `a2`, and a `getkey` of `a2` returns the value of `a1`. -/
theorem killed_then_put :
    ((run step initial [.put (ascii ['a', '1']) (ascii ['x']) (fun _ => 0), .kill,
      .put (ascii ['a', '2']) (ascii ['y']) (fun _ => 0)]).map fun s =>
        (s.store.getkey (ascii ['a', '2']) []).2) = some (ascii ['x']) ∧
    ∀ s, run step initial [.put (ascii ['a', '1']) (ascii ['x']) (fun _ => 0), .kill,
      .put (ascii ['a', '2']) (ascii ['y']) (fun _ => 0)] = some s →
      ¬ OwnRecords [.put (ascii ['a', '1']) (ascii ['x']) (fun _ => 0), .kill,
        .put (ascii ['a', '2']) (ascii ['y']) (fun _ => 0)] s := by
  refine ⟨by decide +kernel, fun s hs hown => ?_⟩
  -- `a2` is mapped to record 0, which is that of `a1`
  have hmap : ((run step initial [.put (ascii ['a', '1']) (ascii ['x']) (fun _ => 0), .kill,
      .put (ascii ['a', '2']) (ascii ['y']) (fun _ => 0)]).bind fun s =>
        s.store.filelocationmap.find? (ascii ['a', '2'])) = some 0 := by decide +kernel
  rw [hs] at hmap
  obtain ⟨n, p, hn, hp, hkey, -⟩ := hown _ _ hmap
  obtain rfl : n = 0 := by omega
  have hfirst : (putsOf (bucket (ascii ['a', '2']))
      [.put (ascii ['a', '1']) (ascii ['x']) (fun _ => 0), .kill,
        .put (ascii ['a', '2']) (ascii ['y']) (fun _ => 0)])[0]? =
      some ⟨ascii ['a', '1'], ascii ['x'], fun _ => 0⟩ := rfl
  obtain rfl := Option.some.inj (hfirst.symm.trans hp)
  exact absurd hkey (by decide)

end Sessions

end Kvs
