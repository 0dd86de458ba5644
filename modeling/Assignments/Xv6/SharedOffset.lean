import Assignments.Xv6.InodeRuns

/-!
# Writers that share an open file

Any number of processes call `filewrite` on one `struct file`, which they share after a `fork` or a
`dup`. A call is cut into chunks, and each chunk is a transaction of its own: the inode is locked,
the chunk is written at `f->off`, `f->off` is advanced, and the inode is unlocked. Here each of
these is a step, and the steps of the processes interleave in any order, among operations on other
inodes. The steps of `begin_op` and `end_op` are left out.

Three lists are kept for the statements: what the processes have asked to write, call by call; the
processes that have taken the lock; and the chunks that were written.

* `Appended` — the invariant: the file is as it was, with the chunks written so far put from the
  first offset on;
* `writers_lose_nothing` — after all calls, the file has the chunks in the order of the locks, and
  those of each process are what it has asked to write, in its order.
-/

namespace Xv6.OnDisk

open Framework Function

/-! ### The system -/

/-- The most bytes that `filewrite` writes in one transaction. -/
def maxChunk : ℕ := (MAXOPBLOCKS - 1 - 1 - 2) / 2 * 512

/-- The bytes that a return value above 0 stands for. -/
def Count.written : Count → ℕ
  | .bytes n => n
  | _ => 0

/-- Where a process is in `filewrite`. `rest` is what was left of its buffer at the head of the
loop. -/
inductive Phase where
  | idle
  | ready (rest : List Byte)
  | locked (rest : List Byte)
  | wrote (rest : List Byte) (count : Count)
  | moved (rest : List Byte) (count : Count)
deriving DecidableEq

structure Sharers (P : Type) where
  fs : State
  /-- `f->off` -/
  off : ℕ
  phase : P → Phase
  asked : List (P × List Byte)
  acquired : List P
  chunks : List (P × List Byte)

inductive Label (P : Type) where
  /-- `filewrite(f, data, n)` is called. -/
  | call (p : P) (data : List Byte)
  | lock (p : P)
  | write (p : P)
  | advance (p : P)
  | unlock (p : P)
  /-- Something is done to another inode. -/
  | other (op : Op)

/-- `while(i < n)` -/
def loopHead (rest : List Byte) : Phase := if rest = [] then .idle else .ready rest

/-- Operations on an inode other than `ip`. -/
def Op.Elsewhere (ip : Ip) : Op → Prop
  | .ilock k | .iunlock k | .readi k _ _ | .writei k _ _ => k ≠ ip
  | _ => False

instance (ip : Ip) : ∀ op : Op, Decidable (op.Elsewhere ip)
  | .ilock k | .iunlock k | .readi k _ _ | .writei k _ _ => inferInstanceAs (Decidable (k ≠ ip))
  | .iget _ | .idup _ | .ialloc _ | .iput _ | .itrunc _ | .dirlink .. | .create .. | .link ..
  | .unlink .. => .isFalse id

variable {P : Type} [DecidableEq P]

/-- One step; `ip` is `f->ip`. -/
def Sharers.next (ip : Ip) (s : Sharers P) : Label P → Option (Sharers P)
  | .call p data =>
    match s.phase p with
    | .idle => some { s with
        phase := update s.phase p (loopHead data), asked := s.asked ++ [(p, data)] }
    | _ => none
  | .lock p =>
    match s.phase p with
    | .ready rest => (ilock s.fs ip).toOption.map fun fs => { s with
        fs := fs, phase := update s.phase p (.locked rest), acquired := s.acquired ++ [p] }
    | _ => none
  | .write p =>
    match s.phase p with
    | .locked rest => (s.fs.writei ip s.off (rest.take maxChunk)).toOption.map fun r => { s with
        fs := r.1, phase := update s.phase p (.wrote rest r.2),
        chunks := s.chunks ++ [(p, rest.take r.2.written)] }
    | _ => none
  | .advance p =>
    match s.phase p with
    | .wrote rest count => some { s with
        off := (s.off + count.written) % 2 ^ 32
        phase := update s.phase p (.moved rest count) }
    | _ => none
  | .unlock p =>
    match s.phase p with
    | .moved rest count =>
      match count with
      | .failed => (iunlock s.fs ip).toOption.map fun fs => { s with
          fs := fs, phase := update s.phase p .idle }
      -- the inode is not a device
      | .device => none
      | .bytes n =>
        -- otherwise `panic("short filewrite")`
        if n = (rest.take maxChunk).length then (iunlock s.fs ip).toOption.map fun fs => { s with
          fs := fs, phase := update s.phase p (loopHead (rest.drop n)) }
        else none
    | _ => none
  | .other op => if op.Elsewhere ip then (s.fs.next op).map fun fs => { s with fs := fs } else none

/-! ### Pieces of several sequences -/

/-- All bytes of the pieces. -/
def allBytes (l : List (P × List Byte)) : List Byte := l.flatMap Prod.snd

/-- The bytes of the pieces of `p`. -/
def bytesBy (l : List (P × List Byte)) (p : P) : List Byte := allBytes (l.filter (·.1 = p))

omit [DecidableEq P] in
theorem allBytes_concat (l : List (P × List Byte)) (p : P) (d : List Byte) :
    allBytes (l ++ [(p, d)]) = allBytes l ++ d := by
  simp [allBytes]

theorem bytesBy_concat_self (l : List (P × List Byte)) (p : P) (d : List Byte) :
    bytesBy (l ++ [(p, d)]) p = bytesBy l p ++ d := by
  simp [bytesBy, allBytes]

theorem bytesBy_concat_of_ne {p q : P} (h : p ≠ q) (l : List (P × List Byte)) (d : List Byte) :
    bytesBy (l ++ [(p, d)]) q = bytesBy l q := by
  simp [bytesBy, allBytes, h]

theorem length_allBytes [Fintype P] (l : List (P × List Byte)) :
    (allBytes l).length = ∑ p, (bytesBy l p).length := by
  induction l using List.reverseRecOn with
  | nil => simp [allBytes, bytesBy]
  | append_singleton l a ih =>
    obtain ⟨q, d⟩ := a
    have hby : ∀ p, (bytesBy (l ++ [(q, d)]) p).length
        = (bytesBy l p).length + if q = p then d.length else 0 := by
      intro p
      by_cases hqp : q = p
      · subst hqp
        rw [bytesBy_concat_self, List.length_append, if_pos rfl]
      · rw [bytesBy_concat_of_ne hqp, if_neg hqp, Nat.add_zero]
    simp only [hby, Finset.sum_add_distrib, Finset.sum_ite_eq, Finset.mem_univ, if_true]
    rw [allBytes_concat, List.length_append, ih]

/-! ### The invariant -/

/-- What a process has still to write. -/
def Phase.rest : Phase → List Byte
  | .idle => []
  | .ready rest | .locked rest => rest
  | .wrote rest count | .moved rest count => rest.drop count.written

/-- The process has the lock of the inode. -/
def Phase.Inside : Phase → Prop
  | .idle | .ready _ => False
  | .locked _ | .wrote _ _ | .moved _ _ => True

/-- The bytes that the process has written and not yet added to `f->off`. -/
def Phase.gap : Phase → ℕ
  | .wrote _ count => count.written
  | _ => 0

/-- The process has the lock and has not yet written its chunk. -/
def Phase.waits : Phase → Bool
  | .locked _ => true
  | _ => false

/-- A chunk is written as a whole. -/
def Phase.Whole : Phase → Prop
  | .wrote rest count | .moved rest count => count = .bytes (rest.take maxChunk).length
  | _ => True

/-- **The invariant**, of the system that was started as `s₀`: the inode `i` of the file at `ip`,
and the process `holder` that has its lock. -/
structure Appended (ip : Ip) (i : Inum) (s₀ s : Sharers P) (holder : Option P) : Prop where
  holds : Holds s.fs {ip} ∅
  inum : (s.fs.icache ip).inum = i
  type : (s.fs.img.dinode i).type = T_FILE
  inside : ∀ p, (s.phase p).Inside ↔ holder = some p
  lock : holder ≠ none → (s.fs.icache ip).locked = true
  whole : ∀ p, (s.phase p).Whole
  offset : s.off + holder.elim 0 (fun p => (s.phase p).gap) = s₀.off + (allBytes s.chunks).length
  order : s.acquired = s.chunks.map Prod.fst ++
    holder.elim [] fun p => if (s.phase p).waits then [p] else []
  asked : ∀ p, bytesBy s.chunks p ++ (s.phase p).rest = bytesBy s.asked p
  size : (s.fs.img.dinode i).size
    = max (s₀.fs.img.dinode i).size (s₀.off + (allBytes s.chunks).length)
  written : ∀ k < (allBytes s.chunks).length,
    byteAt s.fs.img (s.fs.img.dinode i) (s₀.off + k) = (allBytes s.chunks).getD k 0
  untouched : ∀ k < (s₀.fs.img.dinode i).size,
    k < s₀.off ∨ s₀.off + (allBytes s.chunks).length ≤ k →
      byteAt s.fs.img (s.fs.img.dinode i) k = byteAt s₀.fs.img (s₀.fs.img.dinode i) k

/-! ### Writing under the lock, and elsewhere -/

section Files

variable {s : State} {ip : Ip} {i : Inum} {refs : Multiset Ip} {locks : Finset Ip}

/-- A write to a locked file, at an offset inside of it. -/
theorem State.writei_written (h : Holds s refs locks) (hip : ip ∈ locks)
    (hi : (s.icache ip).inum = i) (htype : (s.img.dinode i).type = T_FILE) {off : ℕ}
    {src : List Byte} (hoff : off ≤ (s.img.dinode i).size)
    (hmax : off + src.length ≤ MAXFILE * BSIZE) :
    Ensures Fine (s.writei ip off src) fun r =>
      (Holds r.1 refs locks ∧ (r.1.icache ip).inum = i ∧ (r.1.img.dinode i).type = T_FILE) ∧
        r.2 = .bytes src.length ∧ Written s.img i off src r.1.img (r.1.img.dinode i) := by
  have hlocked := h.lock ip hip
  apply (onInode_cases (fun j r => r.2.1.type = (s.img.dinode j).type ∧
    WriteOutcome s.img j off src r) h.sound hlocked
    fun j hj => OnDisk.writei_spec h.sound.consistent hj off src).mono
  rintro ⟨s', count⟩ ⟨j, img', din, hj, hu, ⟨htype', hcases⟩, rfl⟩
  obtain rfl : j = i := Fin.ext (hj.symm.trans hi)
  dsimp only at htype' hcases ⊢
  rw [htype] at htype'
  have hne : din.type ≠ 0 := by
    rw [htype']
    decide
  rw [hu.dinode_self]
  refine ⟨⟨h.updated hlocked hj hu hne, ?_, htype'⟩, ?_⟩
  · simp only [State.set_icache_self]
    exact hi
  · rcases hcases with hwritten | ⟨-, -, hdev | hsize | hlong⟩
    · exact hwritten
    · rw [htype] at hdev
      exact absurd hdev (by decide)
    · exact absurd hoff (Nat.not_le_of_lt hsize)
    · exact absurd hmax (Nat.not_le_of_lt hlong)

/-- `ilock` changes the entry only. -/
theorem ilock_frame (s : State) (k : Ip) : Ensures (fun _ => True) (ilock s k) fun s' =>
    (s.icache k).locked = false ∧
      ∃ e, s' = s.set k e ∧ e.inum = (s.icache k).inum ∧ e.locked = true := by
  unfold ilock
  apply Ensures.ite
  · exact fun _ => Ensures.error trivial
  intro _
  apply Ensures.ite
  · exact fun _ => Ensures.error trivial
  intro hlock
  have hfree : (s.icache k).locked = false := Bool.eq_false_of_not_eq_true hlock
  apply Ensures.ite
  · exact fun _ => Ensures.ok ⟨hfree, _, rfl, rfl, rfl⟩
  intro _
  split
  · apply Ensures.ite
    · exact fun _ => Ensures.error trivial
    · exact fun _ => Ensures.ok ⟨hfree, _, rfl, rfl, rfl⟩
  · exact Ensures.error trivial

theorem iunlock_frame (s : State) (k : Ip) :
    Ensures (fun _ => True) (iunlock s k) fun s' => s' = releasesleep s k :=
  Ensures.ite (fun _ => Ensures.error trivial) fun _ => Ensures.ok rfl

/-- The file of inode `i` is as it was. -/
structure SameFile (s s' : State) (i : Inum) : Prop where
  dinode : s'.img.dinode i = s.img.dinode i
  byteAt : ∀ k < (s.img.dinode i).size,
    OnDisk.byteAt s'.img (s'.img.dinode i) k = OnDisk.byteAt s.img (s.img.dinode i) k

theorem SameFile.of_img {s' : State} (h : s'.img = s.img) : SameFile s s' i where
  dinode := by rw [h]
  byteAt _ _ := by rw [h]

/-- What is done to another inode leaves this one alone. -/
theorem elsewhere_spec (h : Holds s {ip} ∅) (hi : (s.icache ip).inum = i)
    (htype : (s.img.dinode i).type ≠ 0) {op : Op} (hop : s.Allowed op) (helse : op.Elsewhere ip) :
    Ensures Fine (s.exec op) fun s' =>
      Holds s' {ip} ∅ ∧ s'.icache ip = s.icache ip ∧ SameFile s s' i := by
  have hpos : 0 < (s.icache ip).ref := h.ref_pos (Multiset.mem_singleton_self ip)
  cases op with
  | ilock k =>
    apply ((ilock_spec h k).and (ilock_frame s k)).mono
    rintro s' ⟨⟨-, hs'⟩, -, e, rfl, -⟩
    exact ⟨⟨hs'.sound, hs'.ref, fun l hl => absurd hl (Finset.notMem_empty l)⟩,
      State.set_icache_of_ne (Ne.symm helse), .of_img rfl⟩
  | iunlock k =>
    apply ((iunlock_spec h k).and (iunlock_frame s k)).mono
    rintro s' ⟨hs', rfl⟩
    exact ⟨hs', State.set_icache_of_ne (Ne.symm helse), .of_img rfl⟩
  | readi k off n =>
    have hlock : (s.icache k).locked = true := hop
    apply Ensures.map
    apply (onInode_cases (fun _ r => r.1 = s.img ∧ r.2.1.type ≠ 0) h.sound hlock
      fun j hj => ?_).mono
    · rintro ⟨s', count⟩ ⟨j, img', din, hj, hu, ⟨himg, hne⟩, rfl⟩
      exact ⟨h.updated hlock hj hu hne, State.set_icache_of_ne (Ne.symm helse), .of_img himg⟩
    · obtain ⟨count, bytes, hread, -⟩ :=
        OnDisk.readi_spec (h.sound.consistent.noHole j hj) off n
      rw [hread]
      exact Ensures.ok ⟨⟨h.sound.consistent, rfl, fun _ _ => rfl⟩, rfl, hj⟩
  | writei k off src =>
    have hlock : (s.icache k).locked = true := hop
    apply Ensures.map
    apply (onInode_cases (fun j r => r.2.1.type ≠ 0 ∧ WriteOutcome s.img j off src r) h.sound hlock
      fun j hj => ?_).mono
    · rintro ⟨s', count⟩ ⟨j, img', din, hj, hu, ⟨hne, hcases⟩, rfl⟩
      have hij : i ≠ j := by
        rintro rfl
        exact helse (h.sound.unique k ip (h.sound.locked k hlock).1 hpos (hj.trans hi.symm))
      refine ⟨h.updated hlock hj hu hne, State.set_icache_of_ne (Ne.symm helse), ?_⟩
      refine ⟨hu.dinode_other i hij, fun m hm => ?_⟩
      rcases hcases with ⟨-, hw⟩ | ⟨himg, -⟩
      · exact hw.elsewhere i hij htype m hm
      · dsimp only at himg ⊢
        rw [himg]
    · apply (OnDisk.writei_spec h.sound.consistent hj off src).mono
      rintro r ⟨hu, htype', hcases⟩
      exact ⟨hu, htype' ▸ hj, hcases⟩
  | _ => exact absurd helse not_false

end Files

/-! ### Each step keeps the invariant -/

section Steps

omit [DecidableEq P] in
theorem ok_of_toOption {α : Type} {x : Except Stop α} {a : α} (h : x.toOption = some a) :
    x = .ok a := by
  cases x with
  | ok b => exact congrArg _ (Option.some.inj h)
  | error e => cases h

variable {ip : Ip} {i : Inum} {s₀ s s' : Sharers P} {holder : Option P} {p : P}

theorem Phase.rest_loopHead (rest : List Byte) : (loopHead rest).rest = rest := by
  unfold loopHead
  split
  next h => rw [h, Phase.rest]
  next => rfl

theorem Phase.not_inside_loopHead (rest : List Byte) : ¬ (loopHead rest).Inside := by
  unfold loopHead
  split <;> exact id

theorem Phase.whole_loopHead (rest : List Byte) : (loopHead rest).Whole := by
  unfold loopHead
  split <;> exact trivial

namespace Appended

/-- The one who is inside has the lock. -/
theorem holder_eq (h : Appended ip i s₀ s holder) (hp : (s.phase p).Inside) : holder = some p :=
  (h.inside p).mp hp

/-- There is room for what a process has still to write. -/
theorem room [Fintype P] (h : Appended ip i s₀ s holder) (p : P) :
    (allBytes s.chunks).length + (s.phase p).rest.length ≤ (allBytes s.asked).length := by
  have hsum : (allBytes s.asked).length
      = (allBytes s.chunks).length + ∑ q, (s.phase q).rest.length := by
    rw [length_allBytes, length_allBytes, ← Finset.sum_add_distrib]
    apply Finset.sum_congr rfl
    intro q _
    rw [← h.asked q, List.length_append]
  have hone : (s.phase p).rest.length ≤ ∑ q, (s.phase q).rest.length :=
    Finset.single_le_sum (f := fun q => (s.phase q).rest.length) (fun _ _ => Nat.zero_le _)
      (Finset.mem_univ p)
  omega

/-- A process that is not inside goes from one phase to another. -/
theorem outside_update (h : Appended ip i s₀ s holder) (hp : ¬ (s.phase p).Inside) {x : Phase}
    (hx : ¬ x.Inside) : ∀ q, (update s.phase p x q).Inside ↔ holder = some q :=
  (forall_update_iff _ fun q (x : Phase) => x.Inside ↔ holder = some q).mpr
    ⟨iff_of_false hx fun hholder => hp ((h.inside _).mpr hholder), fun q _ => h.inside q⟩

/-- The one who is inside goes from one phase to another. -/
theorem inside_update (h : Appended ip i s₀ s (some p)) {x : Phase} (hx : x.Inside) :
    ∀ q, (update s.phase p x q).Inside ↔ some p = some q :=
  (forall_update_iff _ fun q (x : Phase) => x.Inside ↔ some p = some q).mpr
    ⟨iff_of_true hx rfl, fun q _ => h.inside q⟩

variable (h : Appended ip i s₀ s holder)

include h

theorem whole_update {x : Phase} (hx : x.Whole) : ∀ q, (update s.phase p x q).Whole :=
  (forall_update_iff _ fun _ (x : Phase) => x.Whole).mpr ⟨hx, fun q _ => h.whole q⟩

/-- A phase with the same rest. -/
theorem asked_update {x : Phase} (hx : x.rest = (s.phase p).rest) :
    ∀ q, bytesBy s.chunks q ++ (update s.phase p x q).rest = bytesBy s.asked q :=
  (forall_update_iff _ fun q (x : Phase) => bytesBy s.chunks q ++ x.rest = bytesBy s.asked q).mpr
    ⟨hx.symm ▸ h.asked p, fun q _ => h.asked q⟩

/-- The phase of the holder is not changed by the step of another process. -/
theorem holder_elim (hp : ¬ (s.phase p).Inside) (x : Phase) {α : Type} (a : α) (f : P → Phase → α) :
    holder.elim a (fun q => f q (update s.phase p x q))
      = holder.elim a fun q => f q (s.phase q) := by
  cases holder with
  | none => rfl
  | some q =>
    have hne : q ≠ p := by
      rintro rfl
      exact hp ((h.inside q).mpr rfl)
    simp only [Option.elim_some, update_of_ne hne]

theorem call (hp : s.phase p = .idle) (data : List Byte) :
    Appended ip i s₀ { s with
      phase := update s.phase p (loopHead data), asked := s.asked ++ [(p, data)] }
      holder := by
  have hout : ¬ (s.phase p).Inside := by
    rw [hp]
    exact id
  exact
    { h with
      inside := h.outside_update hout (Phase.not_inside_loopHead data)
      whole := h.whole_update (Phase.whole_loopHead data)
      offset := by
        rw [← h.offset]
        exact congrArg _ (h.holder_elim hout _ 0 fun _ x => x.gap)
      order := by
        dsimp only
        rw [h.order]
        exact congrArg _ (h.holder_elim hout _ [] fun q x => if x.waits then [q] else []).symm
      asked := by
        refine (forall_update_iff _ fun q (x : Phase) => bytesBy s.chunks q ++ x.rest
          = bytesBy (s.asked ++ [(p, data)]) q).mpr ⟨?_, fun q hq => ?_⟩
        · have hold := h.asked p
          rw [hp, Phase.rest, List.append_nil] at hold
          rw [bytesBy_concat_self, Phase.rest_loopHead, hold]
        · rw [bytesBy_concat_of_ne (Ne.symm hq), h.asked q] }

theorem lockStep {rest : List Byte} (hp : s.phase p = .ready rest) {fs : State}
    (hlock : ilock s.fs ip = .ok fs) :
    Appended ip i s₀ { s with
      fs := fs, phase := update s.phase p (.locked rest), acquired := s.acquired ++ [p] }
      (some p) := by
  obtain ⟨-, hheld⟩ := (ilock_spec h.holds ip).of_eq_ok hlock
  obtain ⟨hfree, e, rfl, hinum, hlocked⟩ := (ilock_frame s.fs ip).of_eq_ok hlock
  -- nobody was inside
  have hnone : holder = none := by
    by_contra hsome
    have hbusy := h.lock hsome
    rw [hfree] at hbusy
    cases hbusy
  subst hnone
  have hself : (s.fs.set ip e).icache ip = e := State.set_icache_self
  exact
    { h with
      holds := ⟨hheld.sound, hheld.ref, fun l hl => absurd hl (Finset.notMem_empty l)⟩
      inum := by
        dsimp only
        rw [hself, hinum, h.inum]
      inside := by
        refine (forall_update_iff _ fun q (x : Phase) => x.Inside ↔ some p = some q).mpr
          ⟨iff_of_true trivial rfl, fun q hq => ?_⟩
        rw [h.inside q]
        exact iff_of_false (by simp) fun heq => hq (Option.some.inj heq).symm
      lock := fun _ => by
        dsimp only
        rw [hself, hlocked]
      whole := h.whole_update trivial
      offset := by
        have hoff := h.offset
        simpa [Phase.gap] using hoff
      order := by
        have horder := h.order
        simpa [Phase.waits] using horder
      asked := h.asked_update (by rw [hp]; rfl) }

/-- **The write.** The chunk is put behind those that are there. -/
theorem writeStep [Fintype P] {rest : List Byte} (hp : s.phase p = .locked rest)
    (hwithin : s₀.off + (allBytes s.asked).length ≤ MAXFILE * BSIZE) {r : State × Count}
    (hwrite : s.fs.writei ip s.off (rest.take maxChunk) = .ok r) :
    Appended ip i s₀ { s with
      fs := r.1, phase := update s.phase p (.wrote rest r.2),
      chunks := s.chunks ++ [(p, rest.take r.2.written)] } holder := by
  have hholder : holder = some p := h.holder_eq (by rw [hp]; exact trivial)
  subst hholder
  have hlocked : (s.fs.icache ip).locked = true := h.lock (by simp)
  have hoff : s.off = s₀.off + (allBytes s.chunks).length := by
    have hoff := h.offset
    rw [Option.elim_some, hp] at hoff
    exact hoff
  generalize hchunk : rest.take maxChunk = chunk at hwrite
  have hroom : (allBytes s.chunks).length + chunk.length ≤ (allBytes s.asked).length := by
    have hroom := h.room p
    have hle : chunk.length ≤ rest.length := by
      rw [← hchunk]
      exact List.length_take_le' ..
    rw [hp, Phase.rest] at hroom
    omega
  have hsize := h.size
  obtain ⟨⟨hheld, hinum, htype⟩, hcount, hw⟩ :=
    (State.writei_written (h.holds.of_lock hlocked) (Finset.mem_singleton_self ip) h.inum h.type
      (by omega) (by omega)).of_eq_ok hwrite
  have hlocked' : (r.1.icache ip).locked = true := hheld.lock ip (Finset.mem_singleton_self ip)
  have hwritten : r.2.written = chunk.length := by
    rw [hcount]
    rfl
  have htake : rest.take r.2.written = chunk := by
    rw [hwritten, ← hchunk, List.length_take, ← List.take_eq_take_min]
  have hbytes : allBytes (s.chunks ++ [(p, rest.take r.2.written)])
      = allBytes s.chunks ++ chunk := by
    rw [htake, allBytes_concat]
  have hlength : (allBytes (s.chunks ++ [(p, rest.take r.2.written)])).length
      = (allBytes s.chunks).length + chunk.length := by
    rw [hbytes, List.length_append]
  have hwsize := hw.size
  exact
    { holds := ⟨hheld.sound, hheld.ref, fun l hl => absurd hl (Finset.notMem_empty l)⟩
      inum := hinum
      type := htype
      inside := h.inside_update trivial
      lock := fun _ => hlocked'
      whole := h.whole_update (by rw [Phase.Whole, hchunk, hcount])
      offset := by
        dsimp only
        rw [Option.elim_some, update_self, Phase.gap, hlength, hoff, hwritten,
          Nat.add_assoc]
      order := by
        have horder := h.order
        simpa [Phase.waits, hp] using horder
      asked := by
        refine (forall_update_iff _ fun q (x : Phase) =>
          bytesBy (s.chunks ++ [(p, rest.take r.2.written)]) q ++ x.rest
            = bytesBy s.asked q).mpr ⟨?_, fun q hq => ?_⟩
        · have hold := h.asked p
          rw [hp, Phase.rest] at hold
          rw [bytesBy_concat_self, Phase.rest, List.append_assoc, List.take_append_drop, hold]
        · rw [bytesBy_concat_of_ne (Ne.symm hq), h.asked q]
      size := by
        dsimp only
        omega
      written := fun k hk => by
        dsimp only at hk ⊢
        rw [hlength] at hk
        rw [hbytes]
        by_cases hold : k < (allBytes s.chunks).length
        · rw [hw.untouched _ (by omega) (by omega), h.written k hold,
            List.getD_append _ _ _ _ hold]
        · have hindex : s₀.off + k = s.off + (k - (allBytes s.chunks).length) := by omega
          rw [hindex, hw.written _ (by omega),
            List.getD_append_right _ _ _ _ (Nat.le_of_not_lt hold)]
      untouched := fun k hk hout => by
        dsimp only at hout ⊢
        rw [hlength] at hout
        rw [hw.untouched k (by omega) (by omega)]
        exact h.untouched k hk (by omega) }

theorem advanceStep [Fintype P] {rest : List Byte} {count : Count}
    (hp : s.phase p = .wrote rest count)
    (hwithin : s₀.off + (allBytes s.asked).length ≤ MAXFILE * BSIZE) :
    Appended ip i s₀ { s with
      off := (s.off + count.written) % 2 ^ 32
      phase := update s.phase p (.moved rest count) } holder := by
  have hholder : holder = some p := h.holder_eq (by rw [hp]; exact trivial)
  subst hholder
  have hoff : s.off + count.written = s₀.off + (allBytes s.chunks).length := by
    have hoff := h.offset
    rw [Option.elim_some, hp] at hoff
    exact hoff
  have hsmall : (s.off + count.written) % 2 ^ 32 = s.off + count.written := by
    have hroom := h.room p
    have hmax : MAXFILE * BSIZE < 2 ^ 32 := by decide
    exact Nat.mod_eq_of_lt (by omega)
  exact
    { h with
      inside := h.inside_update trivial
      whole := h.whole_update (by
        have hwhole := h.whole p
        rw [hp] at hwhole
        exact hwhole)
      offset := by
        dsimp only
        rw [Option.elim_some, update_self, hsmall, hoff]
        rfl
      order := by
        have horder := h.order
        simpa [Phase.waits, hp] using horder
      asked := h.asked_update (by rw [hp]; rfl) }

theorem unlockStep {rest : List Byte} {n : ℕ} (hp : s.phase p = .moved rest (.bytes n)) {fs : State}
    (hunlock : iunlock s.fs ip = .ok fs) :
    Appended ip i s₀ { s with
      fs := fs, phase := update s.phase p (loopHead (rest.drop n)) } none := by
  have hholder : holder = some p := h.holder_eq (by rw [hp]; exact trivial)
  subst hholder
  have hheld := (iunlock_spec h.holds ip).of_eq_ok hunlock
  obtain rfl := (iunlock_frame s.fs ip).of_eq_ok hunlock
  exact
    { h with
      holds := hheld
      inum := by
        have hinum := h.inum
        simpa [releasesleep] using hinum
      inside := by
        refine (forall_update_iff _ fun q (x : Phase) => x.Inside ↔ none = some q).mpr
          ⟨iff_of_false (Phase.not_inside_loopHead _) (by simp), fun q hq => ?_⟩
        rw [h.inside q]
        exact iff_of_false (fun heq => hq (Option.some.inj heq).symm) (by simp)
      lock := fun hne => absurd rfl hne
      whole := h.whole_update (Phase.whole_loopHead _)
      offset := by
        have hoff := h.offset
        simpa [Phase.gap, hp] using hoff
      order := by
        have horder := h.order
        simpa [Phase.waits, hp] using horder
      asked := h.asked_update (by rw [hp, Phase.rest_loopHead]; rfl) }

theorem otherStep {op : Op} (helse : op.Elsewhere ip) {fs : State}
    (hnext : s.fs.next op = some fs) : Appended ip i s₀ { s with fs := fs } holder := by
  have htype : (s.fs.img.dinode i).type ≠ 0 := by
    rw [h.type]
    decide
  have hspec : Holds fs {ip} ∅ ∧ fs.icache ip = s.fs.icache ip ∧ SameFile s.fs fs i := by
    unfold State.next at hnext
    split at hnext
    next hop =>
      exact (elsewhere_spec h.holds h.inum htype hop helse).of_eq_ok (ok_of_toOption hnext)
    next => cases hnext
  obtain ⟨hheld, hentry, hsame⟩ := hspec
  have hsize := h.size
  exact
    { h with
      holds := hheld
      inum := by
        dsimp only
        rw [hentry, h.inum]
      type := by
        dsimp only
        rw [hsame.dinode, h.type]
      lock := fun hne => by
        dsimp only
        rw [hentry]
        exact h.lock hne
      size := by
        dsimp only
        rw [hsame.dinode, h.size]
      written := fun k hk => by
        dsimp only at hk ⊢
        rw [hsame.byteAt _ (by omega)]
        exact h.written k hk
      untouched := fun k hk hout => by
        dsimp only at hout ⊢
        rw [hsame.byteAt _ (by omega)]
        exact h.untouched k hk hout }

/-- **Every step** keeps the invariant, as long as the file does not get too long. -/
theorem next [Fintype P] {a : Label P} (hstep : s.next ip a = some s')
    (hwithin : s₀.off + (allBytes s'.asked).length ≤ MAXFILE * BSIZE) :
    ∃ holder', Appended ip i s₀ s' holder' := by
  cases a with
  | call p data =>
    simp only [Sharers.next] at hstep
    split at hstep
    next hp =>
      cases hstep
      exact ⟨_, h.call hp data⟩
    next => cases hstep
  | lock p =>
    simp only [Sharers.next] at hstep
    split at hstep
    next rest hp =>
      obtain ⟨fs, hlock, rfl⟩ := Option.map_eq_some_iff.mp hstep
      exact ⟨_, h.lockStep hp (ok_of_toOption hlock)⟩
    next => cases hstep
  | write p =>
    simp only [Sharers.next] at hstep
    split at hstep
    next rest hp =>
      obtain ⟨r, hwrite, rfl⟩ := Option.map_eq_some_iff.mp hstep
      exact ⟨_, h.writeStep hp hwithin (ok_of_toOption hwrite)⟩
    next => cases hstep
  | advance p =>
    simp only [Sharers.next] at hstep
    split at hstep
    next rest count hp =>
      cases hstep
      exact ⟨_, h.advanceStep hp hwithin⟩
    next => cases hstep
  | unlock p =>
    simp only [Sharers.next] at hstep
    split at hstep
    next rest count hp =>
      have hwhole : count = .bytes (rest.take maxChunk).length := by
        have hwhole := h.whole p
        rwa [hp] at hwhole
      subst hwhole
      simp only [if_true] at hstep
      obtain ⟨fs, hunlock, rfl⟩ := Option.map_eq_some_iff.mp hstep
      exact ⟨_, h.unlockStep hp (ok_of_toOption hunlock)⟩
    next => cases hstep
  | other op =>
    simp only [Sharers.next] at hstep
    split at hstep
    next helse =>
      obtain ⟨fs, hnext, rfl⟩ := Option.map_eq_some_iff.mp hstep
      exact ⟨_, h.otherStep helse hnext⟩
    next => cases hstep

end Appended

/-- What has been asked for does not get less. -/
theorem Sharers.asked_mono {a : Label P} (hstep : s.next ip a = some s') :
    (allBytes s.asked).length ≤ (allBytes s'.asked).length := by
  cases a with
  | call p data =>
    simp only [Sharers.next] at hstep
    split at hstep
    next =>
      cases hstep
      rw [allBytes_concat, List.length_append]
      exact Nat.le_add_right _ _
    next => cases hstep
  | _ =>
    simp only [Sharers.next] at hstep
    repeat' split at hstep
    all_goals
      first
      | obtain ⟨r, -, rfl⟩ := Option.map_eq_some_iff.mp hstep
        exact Nat.le_refl _
      | (cases hstep; exact Nat.le_refl _)
      | cases hstep

/-- The file at `ip` is open, and nothing has been written to it. -/
structure Sharers.Start (ip : Ip) (i : Inum) (s₀ : Sharers P) : Prop where
  holds : Holds s₀.fs {ip} ∅
  inum : (s₀.fs.icache ip).inum = i
  type : (s₀.fs.img.dinode i).type = T_FILE
  off_le : s₀.off ≤ (s₀.fs.img.dinode i).size
  idle : ∀ p, s₀.phase p = .idle
  asked : s₀.asked = []
  acquired : s₀.acquired = []
  chunks : s₀.chunks = []

theorem Sharers.Start.appended (h : Sharers.Start ip i s₀) : Appended ip i s₀ s₀ none where
  holds := h.holds
  inum := h.inum
  type := h.type
  inside p := by
    rw [h.idle p]
    exact iff_of_false id (by simp)
  lock hne := absurd rfl hne
  whole p := by
    rw [h.idle p]
    trivial
  offset := by simp [h.chunks, allBytes]
  order := by simp [h.chunks, h.acquired]
  asked p := by simp [h.chunks, h.asked, h.idle p, Phase.rest]
  size := by
    have hle := h.off_le
    simp [h.chunks, allBytes, hle]
  written k hk := by simp [h.chunks, allBytes] at hk
  untouched _ _ _ := rfl

/-- The invariant holds in every run that keeps the file short enough. -/
theorem Appended.of_run [Fintype P] (h₀ : Sharers.Start ip i s₀) {labels : List (Label P)}
    (hrun : run (Sharers.next ip) s₀ labels = some s)
    (hwithin : s₀.off + (allBytes s.asked).length ≤ MAXFILE * BSIZE) :
    ∃ holder, Appended ip i s₀ s holder := by
  have hpreserved : ∀ (s : Sharers P) a s',
      (s₀.off + (allBytes s.asked).length ≤ MAXFILE * BSIZE → ∃ holder, Appended ip i s₀ s holder) →
      True → s.next ip a = some s' →
      s₀.off + (allBytes s'.asked).length ≤ MAXFILE * BSIZE →
        ∃ holder, Appended ip i s₀ s' holder := by
    intro s a s' h _ hstep hwithin
    have hmono := Sharers.asked_mono hstep
    obtain ⟨holder, happended⟩ := h (by omega)
    exact happended.next hstep hwithin
  exact run_preserves hpreserved (fun _ => ⟨none, h₀.appended⟩) (along_true _ labels) hrun hwithin

/-- **Writers that share a file lose nothing.** Any number of processes write to one open file, in
any interleaving. When all calls have returned, the bytes from the first offset on are the chunks in
the order in which the lock was taken, and those of each process are what it asked to write, in its
order; the offset has been advanced by all that was asked for, and all other bytes of the file are
as they were. -/
theorem writers_lose_nothing [Fintype P] (h₀ : Sharers.Start ip i s₀) {labels : List (Label P)}
    (hrun : run (Sharers.next ip) s₀ labels = some s)
    (hwithin : s₀.off + (allBytes s.asked).length ≤ MAXFILE * BSIZE)
    (hdone : ∀ p, s.phase p = .idle) :
    slice (byteAt s.fs.img (s.fs.img.dinode i)) s₀.off (allBytes s.chunks).length
        = allBytes s.chunks ∧
      s.chunks.map Prod.fst = s.acquired ∧
      (∀ p, bytesBy s.chunks p = bytesBy s.asked p) ∧
      s.off = s₀.off + (allBytes s.chunks).length ∧
      (allBytes s.chunks).length = (allBytes s.asked).length ∧
      (s.fs.img.dinode i).size
        = max (s₀.fs.img.dinode i).size (s₀.off + (allBytes s.chunks).length) ∧
      ∀ k < (s₀.fs.img.dinode i).size,
        k < s₀.off ∨ s₀.off + (allBytes s.chunks).length ≤ k →
          byteAt s.fs.img (s.fs.img.dinode i) k = byteAt s₀.fs.img (s₀.fs.img.dinode i) k := by
  obtain ⟨holder, h⟩ := Appended.of_run h₀ hrun hwithin
  have hholder : holder = none := by
    cases holder with
    | none => rfl
    | some p =>
      have hinside := (h.inside p).mpr rfl
      rw [hdone p] at hinside
      exact hinside.elim
  subst hholder
  have hby : ∀ p, bytesBy s.chunks p = bytesBy s.asked p := by
    intro p
    have hasked := h.asked p
    rwa [hdone p, Phase.rest, List.append_nil] at hasked
  refine ⟨?_, ?_, hby, h.offset, ?_, h.size, h.untouched⟩
  · apply List.ext_getElem
    · rw [length_slice]
    · intro k hk hk'
      rw [getElem_slice, h.written k hk', List.getD_eq_getElem _ _ hk']
  · have horder := h.order
    simpa using horder.symm
  · rw [length_allBytes, length_allBytes]
    exact Finset.sum_congr rfl fun p _ => by rw [hby p]

end Steps

/-! ### Two writers -/

/-- A disk with one empty file, which is in use. -/
def oneFile : State := (run State.next (State.boot blank) [.ialloc T_FILE]).getD (State.boot blank)

theorem oneFile_run : run State.next (State.boot blank) [.ialloc T_FILE] = some oneFile := by
  have hsome : (run State.next (State.boot blank) [.ialloc T_FILE]).isSome = true := by
    decide +kernel
  obtain ⟨s, hs⟩ := Option.isSome_iff_exists.mp hsome
  rw [oneFile, hs, Option.getD_some]

/-- Nobody has written anything yet. -/
def twoWriters : Sharers Bool := ⟨oneFile, 0, fun _ => .idle, [], [], []⟩

theorem twoWriters_start : Sharers.Start 0 1 twoWriters where
  holds := (Holds.of_run blank_consistent oneFile_run).of_ref (by decide +kernel)
  inum := by decide +kernel
  type := by decide +kernel
  off_le := Nat.zero_le _
  idle _ := rfl
  asked := rfl
  acquired := rfl
  chunks := rfl

/-- The bytes of one writer take two chunks, and the other writer gets the lock between them. -/
def writeBoth : List (Label Bool) :=
  [.call true (List.replicate 1537 1), .call false [3], .lock true, .write true, .advance true,
    .unlock true, .lock false, .write false, .advance false, .unlock false, .lock true, .write true,
    .advance true, .unlock true]

theorem writers_lose_nothing_twoWriters :
    ∃ s, run (Sharers.next 0) twoWriters writeBoth = some s ∧
      slice (byteAt s.fs.img (s.fs.img.dinode 1)) 0 1538 = List.replicate 1536 1 ++ [3, 1] ∧
      s.off = 1538 := by
  have hphases : (run (Sharers.next 0) twoWriters writeBoth).map
      (fun s => (s.phase true, s.phase false)) = some (.idle, .idle) := by decide +kernel
  have hlists : (run (Sharers.next 0) twoWriters writeBoth).map (fun s => (s.asked, s.chunks)) =
      some ([(true, List.replicate 1537 1), (false, [3])],
        [(true, List.replicate 1536 1), (false, [3]), (true, [1])]) := by decide +kernel
  obtain ⟨s, hrun, hs⟩ := Option.map_eq_some_iff.mp hphases
  rw [hrun, Option.map_some, Option.some.injEq] at hlists
  obtain ⟨htrue, hfalse⟩ := Prod.mk.inj hs
  obtain ⟨hasked, hchunks⟩ := Prod.mk.inj hlists
  have hbytes : allBytes s.chunks = List.replicate 1536 1 ++ [3, 1] := by
    rw [hchunks]
    decide +kernel
  obtain ⟨hslice, -, -, hoff, -⟩ := writers_lose_nothing twoWriters_start hrun
    (by rw [hasked]; decide +kernel) (by rintro (_ | _) <;> assumption)
  have hlength : (List.replicate 1536 (1 : Byte) ++ [3, 1]).length = 1538 := by
    rw [List.length_append, List.length_replicate, List.length_cons, List.length_singleton]
  rw [hbytes, hlength] at hslice hoff
  exact ⟨s, hrun, hslice, hoff⟩

end Xv6.OnDisk
