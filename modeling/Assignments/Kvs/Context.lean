import Assignments.Framework.TextStream
import Assignments.Kvs.Server

/-!
# Shutdown and restart

`contexttofile` writes `filelocationmap` and `fileoffsets` to two text files, and
`initializefileinfo` reads them into the globals of a new process. A line of the first file is a
key, a blank and a record number. The reader takes it apart with formatted extraction, which ends
a key at its first white space, so the two fit together for keys without white space only:

* `loadLocations_lines` — the lines of such keys read back;
* `loadLocations_noSpace` — no other key ever comes back;
* `reload_iff` — for every store that requests can lead to, a shutdown and a restart give the
  same globals exactly when no live key has white space in it.
-/

namespace Kvs

open Framework Function

/-- The two files of the context directory. A file that does not exist reads as an empty one. -/
structure Context where
  filecontext : Bytes
  fileoffsets : Bytes
  deriving DecidableEq

/-! ### Writing -/

/-- `filecontextout << it->first << " " << it->second << "\n"` -/
def contextLine (e : Bytes × ℤ) : Bytes := e.1 ++ blank :: (Text.decimal e.2 ++ [Text.newline])

/-- `fileoffsetout << fileoffsets[i] << "\n"` -/
def offsetLine (offset : ℤ) : Bytes := Text.decimal offset ++ [Text.newline]

def Store.contexttofile (s : Store) : Context where
  filecontext := s.filelocationmap.entries.flatMap contextLine
  fileoffsets := (List.finRange totalfiles).flatMap fun i => offsetLine (s.fileoffsets i)

/-! ### Reading -/

/-- `while (filecontextif >> key >> offset) filelocationmap[key] = offset;` Each round consumes
at least one byte, so the length of the file is enough fuel (`loadLocations_fuel`). -/
def loadLocations : ℕ → Bytes → SortedMap Bytes ℤ → SortedMap Bytes ℤ
  | 0, _, m => m
  | fuel + 1, text, m =>
    match Text.readWord text with
    | none => m
    | some (key, rest) =>
      match Text.readInt rest with
      | none => m
      | some (offset, rest) => loadLocations fuel rest (m.insert key offset)

/-- `while (fileoffsetif >> o) { fileoffsets[i] = o; i++; }` There is no result when the array
has no element `i`. -/
def loadOffsets : ℕ → Bytes → ℕ → (Fin totalfiles → ℤ) → Option (Fin totalfiles → ℤ)
  | 0, _, _, fileoffsets => some fileoffsets
  | fuel + 1, text, i, fileoffsets =>
    match Text.readInt text with
    | none => some fileoffsets
    | some (o, rest) =>
      if h : i < totalfiles then
        loadOffsets fuel rest (i + 1) (update fileoffsets ⟨i, h⟩ o)
      else none

def Store.initializefileinfo (s : Store) (context : Context) : Option Store :=
  (loadOffsets context.fileoffsets.length context.fileoffsets 0 s.fileoffsets).map
    fun fileoffsets =>
    { s with
      fileoffsets
      filelocationmap :=
        loadLocations context.filecontext.length context.filecontext s.filelocationmap }

/-- The globals of a new process: `openfiledc` opens the bucket files again, and the maps are
those of the program image. -/
def Store.reopen (s : Store) : Store where
  files b := ⟨(s.files b).content, 0⟩
  filelocationmap := SortedMap.empty
  fileoffsets _ := 0

/-! ### Enough fuel -/

/-- The loop over the key file has ended when its fuel is used up. -/
theorem loadLocations_fuel {fuel : ℕ} {text : Bytes} (h : text.length ≤ fuel)
    (m : SortedMap Bytes ℤ) : loadLocations (fuel + 1) text m = loadLocations fuel text m := by
  induction fuel generalizing text m with
  | zero =>
    -- an empty file gives no word
    obtain rfl : text = [] := List.length_eq_zero_iff.mp (by omega)
    rfl
  | succ fuel ih =>
    cases hw : Text.readWord text with
    | none => simp only [loadLocations, hw]
    | some kr =>
      obtain ⟨key, rest⟩ := kr
      have hlen := Text.readWord_length hw
      cases hi : Text.readInt rest with
      | none => simp only [loadLocations, hw, hi]
      | some or =>
        obtain ⟨offset, rest'⟩ := or
        have hlen' := Text.readInt_length hi
        rw [loadLocations, loadLocations, hw]
        simp only [hi]
        exact ih (by omega) _

/-! ### Keys without white space read back -/

/-- A key that survives the text file. -/
def Plaintext (key : Bytes) : Prop := key ≠ [] ∧ ∀ b ∈ key, Text.isSpace b = false

theorem loadLocations_skip {b : Byte} (hb : Text.isSpace b = true) (fuel : ℕ) (text : Bytes)
    (m : SortedMap Bytes ℤ) : loadLocations fuel (b :: text) m = loadLocations fuel text m := by
  cases fuel with
  | zero => rfl
  | succ fuel =>
    unfold loadLocations
    rw [Text.readWord_skip hb]

/-- **The lines of plain keys read back**, in order. -/
theorem loadLocations_lines {l : List (Bytes × ℤ)}
    (hl : ∀ e ∈ l, Plaintext e.1 ∧ -2 ^ 31 ≤ e.2 ∧ e.2 < 2 ^ 31) {fuel : ℕ}
    (hfuel : l.length ≤ fuel) (m : SortedMap Bytes ℤ) :
    loadLocations fuel (l.flatMap contextLine) m =
      l.foldl (fun m e => m.insert e.1 e.2) m := by
  induction l generalizing fuel m with
  | nil => cases fuel <;> rfl
  | cons e l ih =>
    obtain ⟨fuel, rfl⟩ : ∃ n, fuel = n + 1 :=
      ⟨fuel - 1, by rw [List.length_cons] at hfuel; omega⟩
    obtain ⟨⟨hne, hspace⟩, hlo, hhi⟩ := hl e List.mem_cons_self
    have htext : (e :: l).flatMap contextLine =
        e.1 ++ blank :: (Text.decimal e.2 ++ Text.newline :: l.flatMap contextLine) := by
      simp [contextLine]
    -- one round of the loop: the key up to the blank, the number up to the newline
    have hword : Text.readWord ((e :: l).flatMap contextLine) =
        some (e.1, blank :: (Text.decimal e.2 ++ Text.newline :: l.flatMap contextLine)) := by
      rw [htext]
      exact Text.readWord_append hne hspace rfl
    have hint :
      Text.readInt (blank :: (Text.decimal e.2 ++ Text.newline :: l.flatMap contextLine)) =
        some (e.2, Text.newline :: l.flatMap contextLine) := by
      rw [Text.readInt_skip rfl]
      exact Text.readInt_decimal hlo hhi rfl
    unfold loadLocations
    simp only [hword, hint]
    rw [loadLocations_skip rfl, List.foldl_cons]
    exact ih (fun e he => hl e (List.mem_cons_of_mem _ he))
      (by rw [List.length_cons] at hfuel; omega) _

theorem length_le_length_flatMap {α : Type} {g : α → Bytes} (hg : ∀ a, g a ≠ []) (l : List α) :
    l.length ≤ (l.flatMap g).length := by
  induction l with
  | nil => exact le_refl _
  | cons a l ih =>
    have := List.length_pos_iff.mpr (hg a)
    rw [List.flatMap_cons, List.length_append, List.length_cons]
    omega

/-- **No key with white space comes back.** -/
theorem loadLocations_noSpace {m : SortedMap Bytes ℤ} (hm : ∀ k, m.find? k ≠ none → Plaintext k)
    (fuel : ℕ) (text : Bytes) : ∀ k, (loadLocations fuel text m).find? k ≠ none → Plaintext k := by
  induction fuel generalizing text m with
  | zero => exact hm
  | succ fuel ih =>
    unfold loadLocations
    cases hw : Text.readWord text with
    | none => exact hm
    | some kr =>
      obtain ⟨key, rest⟩ := kr
      show ∀ k, (match Text.readInt rest with
        | none => m
        | some (offset, rest) => loadLocations fuel rest (m.insert key offset)).find? k ≠ none → _
      cases hi : Text.readInt rest with
      | none => exact hm
      | some or =>
        refine ih (fun k hk => ?_) _
        rw [SortedMap.find?_insert] at hk
        split_ifs at hk with hkey
        · exact hkey ▸ Text.readWord_noSpace hw
        · exact hm k hk

/-! ### The offsets read back -/

theorem loadOffsets_skip {b : Byte} (hb : Text.isSpace b = true) (fuel : ℕ) (text : Bytes) (i : ℕ)
    (fo : Fin totalfiles → ℤ) : loadOffsets fuel (b :: text) i fo = loadOffsets fuel text i fo := by
  cases fuel with
  | zero => rfl
  | succ fuel =>
    unfold loadOffsets
    rw [Text.readInt_skip hb]

/-- The lines from index `i` on fill the array from index `i` on. -/
theorem loadOffsets_lines {g : Fin totalfiles → ℤ} (hg : ∀ b, -2 ^ 31 ≤ g b ∧ g b < 2 ^ 31)
    {i fuel : ℕ} (hi : i ≤ totalfiles) (hfuel : totalfiles - i ≤ fuel) (fo : Fin totalfiles → ℤ) :
    loadOffsets fuel (((List.finRange totalfiles).drop i).flatMap fun b => offsetLine (g b)) i fo =
      some fun b => if b.val < i then fo b else g b := by
  -- induction on the number of lines that remain
  induction hn : totalfiles - i generalizing i fuel fo with
  | zero =>
    obtain rfl : i = totalfiles := by omega
    have hall : (fun b : Fin totalfiles => if b.val < totalfiles then fo b else g b) = fo := by
      funext b
      exact if_pos b.isLt
    rw [List.drop_of_length_le (by rw [List.length_finRange]), hall]
    cases fuel <;> rfl
  | succ n ih =>
    obtain ⟨fuel, rfl⟩ : ∃ f, fuel = f + 1 := ⟨fuel - 1, by omega⟩
    have hlt : i < totalfiles := by omega
    have hdrop : (List.finRange totalfiles).drop i =
        ⟨i, hlt⟩ :: (List.finRange totalfiles).drop (i + 1) := by
      rw [List.drop_eq_getElem_cons (by rw [List.length_finRange]; exact hlt),
        List.getElem_finRange]
      rfl
    have hread : Text.readInt (((List.finRange totalfiles).drop i).flatMap
      fun b => offsetLine (g b)) =
        some (g ⟨i, hlt⟩, Text.newline ::
          ((List.finRange totalfiles).drop (i + 1)).flatMap fun b => offsetLine (g b)) := by
      rw [hdrop, List.flatMap_cons]
      unfold offsetLine
      rw [List.append_assoc, List.singleton_append]
      exact Text.readInt_decimal (hg _).1 (hg _).2 rfl
    unfold loadOffsets
    simp only [hread, dif_pos hlt]
    rw [loadOffsets_skip rfl, ih (by omega) (by omega) _ (by omega)]
    congr 1
    funext b
    by_cases hb : b = ⟨i, hlt⟩
    · subst hb
      rw [update_self, if_pos (Nat.lt_succ_self i), if_neg (lt_irrefl i)]
    · have hval : b.val ≠ i := fun h => hb (Fin.ext h)
      rw [update_of_ne hb]
      by_cases hbi : b.val < i
      · rw [if_pos hbi, if_pos (by omega)]
      · rw [if_neg hbi, if_neg (by omega)]

/-! ### The round trip -/

namespace Store

/-- The record numbers fit into an `int`, and no live key is empty. -/
structure Printable (s : Store) : Prop where
  offsets : ∀ b, -2 ^ 31 ≤ s.fileoffsets b ∧ s.fileoffsets b < 2 ^ 31
  locations : ∀ k o, s.filelocationmap.find? k = some o → k ≠ [] ∧ -2 ^ 31 ≤ o ∧ o < 2 ^ 31

theorem Printable.initial : Store.empty.Printable where
  offsets _ := by
    show (-2 ^ 31 : ℤ) ≤ 0 ∧ (0 : ℤ) < 2 ^ 31
    decide
  locations k o h := absurd h (by simp [Store.empty])

theorem Printable.putkey {s : Store} (hs : s.Printable) {key : Bytes} (hkey : key ≠ [])
    (value : Bytes) (memory : ℕ → Byte) : (s.putkey key value memory).Printable where
  offsets b := by
    show -2 ^ 31 ≤ update s.fileoffsets (bucket key) _ b ∧
      update s.fileoffsets (bucket key) _ b < 2 ^ 31
    by_cases hb : b = bucket key
    · subst hb
      rw [update_self]
      exact int32_range _
    · rw [update_of_ne hb]
      exact hs.offsets b
  locations k o h := by
    replace h : (s.filelocationmap.insert key _).find? k = some o := h
    rw [SortedMap.find?_insert] at h
    split_ifs at h with hk
    · obtain rfl := Option.some.inj h
      exact ⟨hk ▸ hkey, hs.offsets _⟩
    · exact hs.locations k o h

theorem Printable.deletekey {s : Store} (hs : s.Printable) (key : Bytes) :
    (s.deletekey key).1.Printable := by
  unfold Store.deletekey
  cases s.filelocationmap.find? key with
  | none => exact hs
  | some o =>
    refine ⟨hs.offsets, fun k o h => ?_⟩
    replace h : (s.filelocationmap.erase key).find? k = some o := h
    rw [SortedMap.find?_erase] at h
    split_ifs at h
    exact hs.locations k o h

theorem Printable.sameData {s s' : Store} (hs : s.Printable) (hd : SameData s s') :
    s'.Printable where
  offsets b := by rw [hd.fileoffsets]; exact hs.offsets b
  locations k o h := hs.locations k o (by rw [← hd.filelocationmap]; exact h)

/-- The offsets always read back, the locations as the key file gives them. -/
theorem initializefileinfo_contexttofile {s : Store}
    (hs : ∀ b, -2 ^ 31 ≤ s.fileoffsets b ∧ s.fileoffsets b < 2 ^ 31) :
    s.reopen.initializefileinfo s.contexttofile =
      some { s.reopen with
        fileoffsets := s.fileoffsets
        filelocationmap := loadLocations s.contexttofile.filecontext.length
          s.contexttofile.filecontext SortedMap.empty } := by
  have hfuel : totalfiles - 0 ≤ s.contexttofile.fileoffsets.length := by
    have := length_le_length_flatMap (g := fun i => offsetLine (s.fileoffsets i))
      (fun a => by simp [offsetLine]) (List.finRange totalfiles)
    rw [List.length_finRange] at this
    exact this
  have hoff := loadOffsets_lines hs (Nat.zero_le totalfiles) hfuel s.reopen.fileoffsets
  have hall : (fun b : Fin totalfiles => if b.val < 0 then s.reopen.fileoffsets b
      else s.fileoffsets b) = s.fileoffsets := by
    funext b
    exact if_neg (Nat.not_lt_zero _)
  rw [hall, List.drop_zero] at hoff
  replace hoff : loadOffsets s.contexttofile.fileoffsets.length s.contexttofile.fileoffsets 0
      s.reopen.fileoffsets = some s.fileoffsets := hoff
  unfold Store.initializefileinfo
  rw [hoff]
  rfl

/-- **Plain keys come back**, each with its record number. -/
theorem loadLocations_contexttofile {s : Store}
    (hs : ∀ k o, s.filelocationmap.find? k = some o → Plaintext k ∧ -2 ^ 31 ≤ o ∧ o < 2 ^ 31) :
    loadLocations s.contexttofile.filecontext.length s.contexttofile.filecontext SortedMap.empty =
      s.filelocationmap := by
  have hlines := loadLocations_lines (l := s.filelocationmap.entries) (fun e he => ?_)
    (length_le_length_flatMap (g := contextLine) (fun e => by simp [contextLine]) _)
    SortedMap.empty
  · rw [SortedMap.foldl_insert_entries] at hlines
    exact hlines
  · obtain ⟨k, o⟩ := e
    rw [SortedMap.mem_entries_iff] at he
    exact hs k o he

end Store

namespace Server

/-- Requests keep the store printable. -/
theorem printable_of_run {cachetype cachecapacity : ℤ} {requests : List Request} {s : Server}
    (h : run serve (start cachetype cachecapacity) requests = some s) : s.store.Printable := by
  have hstep : ∀ (s : Server) (r : Request) (s' : Server), s.store.Printable → True →
      s.serve r = some s' → s'.store.Printable := by
    intro s r s' hs _ hserve
    rcases serve_store hserve with ⟨key, value, memory, hkey, hstore⟩ | ⟨key, hstore⟩ | hd
    · rw [hstore]
      exact hs.putkey (List.length_pos_iff.mp hkey) value memory
    · rw [hstore]
      exact hs.deletekey key
    · exact hs.sameData hd
  exact run_preserves hstep Store.Printable.initial (along_true _ _) h

/-- **A shutdown and a restart.** For every store that requests lead to from the empty one, a
new process that reads what `contexttofile` wrote has the same `filelocationmap` and the same
`fileoffsets`, exactly when no live key has white space in it. -/
theorem reload_iff (cachetype cachecapacity : ℤ) (requests : List Request) (s : Server)
    (h : run serve (start cachetype cachecapacity) requests = some s) :
    (∃ t, s.store.reopen.initializefileinfo s.store.contexttofile = some t ∧
        t.filelocationmap = s.store.filelocationmap ∧ t.fileoffsets = s.store.fileoffsets) ↔
      ∀ key, s.store.filelocationmap.find? key ≠ none → ∀ b ∈ key, Text.isSpace b = false := by
  have hp := printable_of_run h
  rw [Store.initializefileinfo_contexttofile hp.offsets]
  constructor
  · rintro ⟨t, ht, hloc, -⟩ key hkey
    obtain rfl := Option.some.inj ht
    -- a live key came out of the key file
    rw [← hloc] at hkey
    exact (loadLocations_noSpace (m := SortedMap.empty) (fun k hk => absurd rfl hk) _ _ key hkey).2
  · intro hspace
    refine ⟨_, rfl, Store.loadLocations_contexttofile fun k o hk => ?_, rfl⟩
    obtain ⟨hne, hrange⟩ := hp.locations k o hk
    exact ⟨⟨hne, hspace k (by rw [hk]; simp)⟩, hrange⟩

/-- A store with the key `ab` comes back. -/
theorem reload_ab :
    ∃ s, run serve (start 1 1) [.put (ascii ['a', 'b']) (ascii ['1']) fun _ => 0] = some s ∧
      ∃ t, s.store.reopen.initializefileinfo s.store.contexttofile = some t ∧
        t.filelocationmap = s.store.filelocationmap ∧ t.fileoffsets = s.store.fileoffsets := by
  refine ⟨_, rfl, (reload_iff 1 1 [.put (ascii ['a', 'b']) (ascii ['1']) fun _ => 0] _ rfl).mpr ?_⟩
  intro key hkey
  have hfind : ((start 1 1).putProceed (ascii ['a', 'b'])
    (ascii ['1']) fun _ => 0).1.store.filelocationmap
      = SortedMap.empty.insert (ascii ['a', 'b']) 0 := by decide
  rw [hfind, SortedMap.find?_insert] at hkey
  split_ifs at hkey with hk
  · rw [hk]
    decide +kernel
  · exact absurd rfl hkey

/-- **A lost key.** The line of the key `a b` stops the reader, and the keys behind it are lost
as well. -/
theorem reload_loses_keys :
    ∃ s, run serve (start 1 1) [.put (ascii ['a', ' ', 'b']) (ascii ['1']) (fun _ => 0),
        .put (ascii ['c']) (ascii ['2']) (fun _ => 0)] = some s ∧
      ¬ ∃ t, s.store.reopen.initializefileinfo s.store.contexttofile = some t ∧
        t.filelocationmap = s.store.filelocationmap ∧ t.fileoffsets = s.store.fileoffsets := by
  refine ⟨_, rfl, ?_⟩
  rintro ⟨t, ht, hloc, -⟩
  -- `c` is live, and the reader never gets to its line
  have hmap := congrArg (Option.map fun t => t.filelocationmap.find? (ascii ['c'])) ht
  rw [Option.map_some, hloc] at hmap
  exact absurd hmap (by decide +kernel)

end Server

end Kvs
