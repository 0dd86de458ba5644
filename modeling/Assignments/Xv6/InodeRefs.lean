import Assignments.Xv6.DirTree
import Assignments.Xv6.RefCounts

/-!
# References and locks inside a call

Specifications of the functions of the inode layer. They follow a call by what it has taken: `Busy`
lists the references that are the call's own, each with the inode it is to, and the locks. What
others hold may not change under the call: an inode in use stays allocated, and a working directory
stays a directory.

A specification `Safely x post` also says that the computation does not end in the panic
`ilock: no type`: `ilock` finds a type because every inode with a reference is allocated.

* `iget_spec`, `iput_spec` — a reference taken, and dropped with the inode freed if it was the last;
* `dirlookup_spec`, `dirlink_absent`, `dirlink_present` — entries of directories;
* `namex_spec` — a lookup follows the names from directory to directory (`walk`).
-/

namespace Xv6.Fs

open Framework Function

/-- The result has `post`; whatever stops the kernel instead, it is not `ilock: no type`. -/
abbrev Safely {α : Type} (x : Except Stop α) (post : α → Prop) : Prop :=
  Ensures (· ≠ .panic .ilockNoType) x post

/-! ### What a call has taken -/

/-- What a call finds and leaves alone. -/
structure Env where
  /-- The working directories. -/
  cwd : Ip → Prop
  /-- The inodes that are in use. -/
  inUse : Inum → Prop
  /-- The inodes that are allocated without a link or a reference. -/
  lost : Inum → Prop

/-- The references in a list, by the entry of the cache. -/
def refs (loc : Multiset (Ip × Inum)) (q : Ip) : ℕ := (loc.map Prod.fst).count q

@[simp] theorem refs_cons_self (ip : Ip) (i : Inum) (loc : Multiset (Ip × Inum)) :
    refs ((ip, i) ::ₘ loc) ip = refs loc ip + 1 := by
  simp [refs]

@[simp] theorem refs_cons_of_ne {q ip : Ip} (h : q ≠ ip) (i : Inum) (loc : Multiset (Ip × Inum)) :
    refs ((ip, i) ::ₘ loc) q = refs loc q := by
  simp [refs, h]

@[simp] theorem refs_zero (q : Ip) : refs 0 q = 0 := rfl

theorem refs_pos {loc : Multiset (Ip × Inum)} {r : Ip × Inum} (h : r ∈ loc) : 0 < refs loc r.1 :=
  Multiset.count_pos.mpr (Multiset.mem_map_of_mem Prod.fst h)

/-- An entry of the inode cache to which the call has `mine` references. -/
structure Entry.Ok (T : Inum → Dinode) (env : Env) (mine : ℕ) (cwd lock : Prop) (e : Entry) :
    Prop where
  count : mine ≤ e.ref
  locked : e.locked = true ↔ lock
  valid : lock → e.valid = true ∧ 0 < e.ref
  alloc : 0 < e.ref → (T e.inum).type ≠ .free
  /-- Others have the inode open; `iput` will free it, if it has no links. -/
  others : mine < e.ref → env.inUse e.inum ∧ ((T e.inum).nlink = 0 → e.valid = true)
  cwd : cwd → mine < e.ref ∧ (T e.inum).type = .dir

/-- **Inside a call.** The inodes are `T`, the call has taken the references `loc` and the locks
`locks`. -/
structure Busy (env : Env) (T : Inum → Dinode) (loc : Multiset (Ip × Inum)) (locks : Finset Ip)
    (s : State) : Prop where
  inodes : s.inodes = T
  unique : ∀ q q', 0 < (s.icache q).ref → 0 < (s.icache q').ref → s.inum q = s.inum q' → q = q'
  own : ∀ r ∈ loc, s.inum r.1 = r.2
  entry : ∀ q, (s.icache q).Ok T env (refs loc q) (env.cwd q) (q ∈ locks)
  kept : ∀ i, (T i).type ≠ .free → (T i).nlink = 0 →
    (∃ q, 0 < (s.icache q).ref ∧ s.inum q = i) ∨ env.lost i

theorem Entry.Ok.congr {T T' : Inum → Dinode} {env : Env} {mine : ℕ} {cwd lock : Prop} {e : Entry}
    (h : e.Ok T env mine cwd lock) (hT : 0 < e.ref → T' e.inum = T e.inum) :
    e.Ok T' env mine cwd lock where
  count := h.count
  locked := h.locked
  valid := h.valid
  alloc := fun hpos => by
    rw [hT hpos]
    exact h.alloc hpos
  others := fun hmine => by
    rw [hT (by omega)]
    exact h.others hmine
  cwd := fun hc => by
    obtain ⟨hmine, hdir⟩ := h.cwd hc
    rw [hT (by omega)]
    exact ⟨hmine, hdir⟩

namespace Busy

variable {env : Env} {s : State} {T T' : Inum → Dinode} {loc loc' : Multiset (Ip × Inum)}
  {locks locks' : Finset Ip} {ip : Ip} {i : Inum}

variable (h : Busy env T loc locks s)

include h

/-- **One entry changes**, and with it the inode it is for. -/
theorem change {e : Entry}
    (hother : ∀ q, q ≠ ip → 0 < (s.icache q).ref →
      T' (s.inum q) = T (s.inum q) ∧ (0 < e.ref → s.inum q ≠ e.inum))
    (hown : ∀ r ∈ loc', r.1 = ip ∧ r.2 = e.inum ∨ r.1 ≠ ip ∧ r ∈ loc)
    (hrefs : ∀ q, q ≠ ip → refs loc' q = refs loc q)
    (hlocks : ∀ q, q ≠ ip → (q ∈ locks' ↔ q ∈ locks))
    (hentry : e.Ok T' env (refs loc' ip) (env.cwd ip) (ip ∈ locks'))
    (hkept : ∀ i, (T' i).type ≠ .free → (T' i).nlink = 0 →
      0 < e.ref ∧ e.inum = i ∨ (∃ q, q ≠ ip ∧ 0 < (s.icache q).ref ∧ s.inum q = i) ∨
        env.lost i) :
    Busy env T' loc' locks' { s with inodes := T', icache := update s.icache ip e } := by
  have hself : update s.icache ip e ip = e := update_self ..
  have hrest : ∀ q, q ≠ ip → update s.icache ip e q = s.icache q := fun q hq =>
    update_of_ne hq ..
  exact {
    inodes := rfl
    unique := by
      intro q q' hpos hpos' heq
      simp only [State.inum] at hpos hpos' heq
      by_cases hq : q = ip <;> by_cases hq' : q' = ip
      · rw [hq, hq']
      · rw [hq, hself, hrest q' hq'] at heq
        rw [hrest q' hq'] at hpos'
        rw [hq, hself] at hpos
        exact absurd heq.symm ((hother q' hq' hpos').2 hpos)
      · rw [hq', hself, hrest q hq] at heq
        rw [hrest q hq] at hpos
        rw [hq', hself] at hpos'
        exact absurd heq ((hother q hq hpos).2 hpos')
      · rw [hrest q hq, hrest q' hq'] at heq
        rw [hrest q hq] at hpos
        rw [hrest q' hq'] at hpos'
        exact h.unique q q' hpos hpos' heq
    own := by
      intro r hr
      show (update s.icache ip e r.1).inum = r.2
      rcases hown r hr with ⟨hip, hinum⟩ | ⟨hne, hmem⟩
      · rw [hip, hself, hinum]
      · rw [hrest _ hne]
        exact h.own r hmem
    entry := by
      intro q
      show (update s.icache ip e q).Ok ..
      by_cases hq : q = ip
      · rw [hq, hself]
        exact hentry
      · rw [hrest q hq, hrefs q hq, hlocks q hq]
        exact (h.entry q).congr fun hpos => (hother q hq hpos).1
    kept := by
      intro i halloc hnlink
      rcases hkept i halloc hnlink with ⟨hpos, hinum⟩ | ⟨q, hq, hpos, hinum⟩ | hlost
      · refine .inl ⟨ip, ?_, ?_⟩
        · show 0 < (update s.icache ip e ip).ref
          rw [hself]
          exact hpos
        · show (update s.icache ip e ip).inum = i
          rw [hself]
          exact hinum
      · refine .inl ⟨q, ?_, ?_⟩
        · show 0 < (update s.icache ip e q).ref
          rw [hrest q hq]
          exact hpos
        · show (update s.icache ip e q).inum = i
          rw [hrest q hq]
          exact hinum
      · exact .inr hlost }

theorem ref_pos (hmem : (ip, i) ∈ loc) : 0 < (s.icache ip).ref := by
  have hcount := (h.entry ip).count
  have hpos : 0 < refs loc ip := refs_pos hmem
  omega

theorem inum (hmem : (ip, i) ∈ loc) : s.inum ip = i := h.own _ hmem

/-- The call reads the inode it has a reference to. -/
theorem inode (hmem : (ip, i) ∈ loc) : s.inode ip = T i := by
  rw [State.inode, h.inum hmem, h.inodes]

theorem alloc (hmem : (ip, i) ∈ loc) : (T i).type ≠ .free := by
  have halloc := (h.entry ip).alloc (h.ref_pos hmem)
  rw [← h.inum hmem]
  exact halloc

/-- The entry is not for the inode that another one is for. -/
theorem other (hpos : 0 < (s.icache ip).ref) {q : Ip} (hq : q ≠ ip) (hqpos : 0 < (s.icache q).ref) :
    s.inum q ≠ s.inum ip :=
  fun heq => hq (h.unique q ip hqpos hpos heq)

/-- Only the reference count, the flags and the locks change. -/
theorem setEntry {e : Entry} (hinum : e.inum = s.inum ip) (hpos : 0 < (s.icache ip).ref)
    (hown : ∀ r ∈ loc', r.1 = ip ∧ r.2 = e.inum ∨ r.1 ≠ ip ∧ r ∈ loc)
    (hrefs : ∀ q, q ≠ ip → refs loc' q = refs loc q)
    (hlocks : ∀ q, q ≠ ip → (q ∈ locks' ↔ q ∈ locks))
    (hentry : e.Ok T env (refs loc' ip) (env.cwd ip) (ip ∈ locks'))
    (hlast : 0 < e.ref ∨ (T e.inum).nlink ≠ 0) : Busy env T loc' locks' (s.setEntry ip e) := by
  have hchange : Busy env T loc' locks'
      { s with inodes := T, icache := update s.icache ip e } := by
    refine h.change (fun q hq hqpos => ?_) hown hrefs hlocks hentry ?_
    · rw [hinum]
      exact ⟨rfl, fun _ => h.other hpos hq hqpos⟩
    · intro i halloc hnlink
      rcases h.kept i halloc hnlink with ⟨q, hqpos, hq⟩ | hlost
      · by_cases hqip : q = ip
        · rw [hqip, ← hinum] at hq
          rcases hlast with hlast | hlinked
          · exact .inl ⟨hlast, hq⟩
          · rw [hq] at hlinked
            exact absurd hnlink hlinked
        · exact .inr (.inl ⟨q, hqip, hqpos, hq⟩)
      · exact .inr (.inr hlost)
  rw [← h.inodes] at hchange ⊢
  exact hchange

/-- The owner of a reference in `loc`, before and after a change of the entry's count. -/
theorem own_cases {e : Entry} (hinum : e.inum = s.inum ip) :
    ∀ r ∈ loc, r.1 = ip ∧ r.2 = e.inum ∨ r.1 ≠ ip ∧ r ∈ loc := by
  intro r hr
  by_cases hip : r.1 = ip
  · refine .inl ⟨hip, ?_⟩
    rw [hinum, ← hip, h.own r hr]
  · exact .inr ⟨hip, hr⟩

/-- **An inode is written** by the call that has locked it. -/
theorem iupdate (hmem : (ip, i) ∈ loc) (hlock : ip ∈ locks) {x : Dinode} (hx : x.type ≠ .free)
    (hdir : (T i).type = .dir → x.type = .dir) :
    Busy env (update T i x) loc locks (s.iupdate ip x) := by
  have hpos := h.ref_pos hmem
  have hinum := h.inum hmem
  have hold := h.entry ip
  have hself : update T i x (s.icache ip).inum = x := by
    rw [show (s.icache ip).inum = i from hinum, update_self]
  have hentry : (s.icache ip).Ok (update T i x) env (refs loc ip) (env.cwd ip)
      (ip ∈ locks) := {
    count := hold.count
    locked := hold.locked
    valid := hold.valid
    alloc := fun _ => by
      rw [hself]
      exact hx
    others := fun hmine => ⟨(hold.others hmine).1, fun _ => (hold.valid hlock).1⟩
    cwd := fun hc => by
      obtain ⟨hmine, hcwd⟩ := hold.cwd hc
      rw [show (s.icache ip).inum = i from hinum] at hcwd
      rw [hself]
      exact ⟨hmine, hdir hcwd⟩ }
  have hchange : Busy env (update T i x) loc locks { s with
      inodes := update T i x
      icache := update s.icache ip (s.icache ip) } := by
    refine h.change (fun q hq hqpos => ?_) (h.own_cases rfl) (fun _ _ => rfl) (fun _ _ => Iff.rfl)
      hentry ?_
    · have hne := h.other hpos hq hqpos
      refine ⟨update_of_ne ?_ .., fun _ => hne⟩
      rw [← hinum]
      exact hne
    · intro j halloc hnlink
      by_cases hj : j = i
      · exact .inl ⟨hpos, hinum.trans hj.symm⟩
      · rw [update_of_ne hj] at halloc hnlink
        rcases h.kept j halloc hnlink with ⟨q, hqpos, hq⟩ | hlost
        · refine .inr (.inl ⟨q, ?_, hqpos, hq⟩)
          rintro rfl
          exact hj (hq.symm.trans hinum)
        · exact .inr (.inr hlost)
  rw [update_eq_self] at hchange
  unfold State.iupdate State.setInode
  rw [hinum, h.inodes]
  exact hchange

end Busy

/-! ### The inode cache -/

section Cache

variable {env : Env} {s : State} {T T' : Inum → Dinode} {loc : Multiset (Ip × Inum)}
  {locks : Finset Ip} {ip : Ip} {i : Inum}

section

variable (h : Busy env T loc locks s)

include h

/-- One more reference to an entry that is in use. -/
theorem Busy.dup (hpos : 0 < (s.icache ip).ref) :
    Busy env T ((ip, s.inum ip) ::ₘ loc) locks
      (s.setEntry ip { s.icache ip with ref := (s.icache ip).ref + 1 }) := by
  have hold := h.entry ip
  refine h.setEntry rfl hpos ?_ (fun q hq => refs_cons_of_ne hq ..) (fun _ _ => Iff.rfl) ?_
    (.inl (by show 0 < (s.icache ip).ref + 1; omega))
  · intro r hr
    rcases Multiset.mem_cons.mp hr with rfl | hr
    · exact .inl ⟨rfl, rfl⟩
    · exact h.own_cases rfl r hr
  · rw [refs_cons_self]
    have hcount := hold.count
    exact {
      count := by push_cast; show _ ≤ (s.icache ip).ref + 1; omega
      locked := hold.locked
      valid := fun hl => ⟨(hold.valid hl).1, by show 0 < (s.icache ip).ref + 1; omega⟩
      alloc := fun _ => hold.alloc hpos
      others := fun hmine => hold.others (by
        change ((refs loc ip + 1 : ℕ) : ℤ) < (s.icache ip).ref + 1 at hmine
        omega)
      cwd := fun hc => by
        obtain ⟨hmine, hdir⟩ := hold.cwd hc
        refine ⟨?_, hdir⟩
        show ((refs loc ip + 1 : ℕ) : ℤ) < (s.icache ip).ref + 1
        omega }

/-- An entry that was not in use is for the inode `i` now, which may be new itself. -/
theorem Busy.fresh (hcached : s.cached i = none) (hempty : s.empty = some ip)
    (hT' : ∀ j, j ≠ i → T' j = T j) (hi : (T' i).type ≠ .free) :
    Busy env T' ((ip, i) ::ₘ loc) locks { s with
      inodes := T'
      icache := update s.icache ip { s.icache ip with inum := i, ref := 1, valid := false }
    } := by
  have hzero := empty_eq_some hempty
  have hold := h.entry ip
  have hmine : refs loc ip = 0 := by
    have := hold.count
    omega
  have hunlocked : ip ∉ locks := fun hl => by
    have := (hold.valid hl).2
    omega
  refine h.change ?_ ?_ (fun q hq => refs_cons_of_ne hq ..) (fun _ _ => Iff.rfl) ?_ ?_
  · intro q _ hqpos
    have hne := cached_eq_none hcached q hqpos
    exact ⟨hT' _ hne, fun _ => hne⟩
  · intro r hr
    rcases Multiset.mem_cons.mp hr with rfl | hr
    · exact .inl ⟨rfl, rfl⟩
    · refine .inr ⟨?_, hr⟩
      intro hip
      have hpos := refs_pos hr
      rw [hip] at hpos
      omega
  · rw [refs_cons_self, hmine]
    exact {
      count := le_rfl
      locked := hold.locked
      valid := fun hl => absurd hl hunlocked
      alloc := fun _ => hi
      others := fun hone => absurd hone (lt_irrefl _)
      cwd := fun hc => by
        have := (hold.cwd hc).1
        omega }
  · intro j halloc hnlink
    by_cases hj : j = i
    · exact .inl ⟨one_pos, hj.symm⟩
    · rw [hT' j hj] at halloc hnlink
      rcases h.kept j halloc hnlink with ⟨q, hqpos, hq⟩ | hlost
      · refine .inr (.inl ⟨q, ?_, hqpos, hq⟩)
        rintro rfl
        omega
      · exact .inr (.inr hlost)

theorem iget_spec (hi : (T i).type ≠ .free) :
    Safely (iget s i) fun r => Busy env T ((r.2, i) ::ₘ loc) locks r.1 := by
  unfold iget
  cases hcached : s.cached i with
  | some ip =>
    obtain ⟨hpos, hinum⟩ := cached_eq_some hcached
    have hdup := h.dup hpos
    rw [hinum] at hdup
    exact .ok hdup
  | none =>
    dsimp only
    cases hempty : s.empty with
    | none => exact .error (by decide)
    | some ip =>
      have hfresh := h.fresh hcached hempty (fun _ _ => rfl) hi
      rw [← h.inodes] at hfresh ⊢
      exact .ok hfresh

/-- A working directory is looked up from. -/
theorem idup_spec (hcwd : env.cwd ip) : Busy env T ((ip, s.inum ip) ::ₘ loc) locks (idup s ip) := by
  refine h.dup ?_
  have hmine := ((h.entry ip).cwd hcwd).1
  omega

theorem ilock_spec :
    Safely (ilock s ip) fun s' => ip ∉ locks ∧ Busy env T loc (insert ip locks) s' := by
  have hold := h.entry ip
  unfold ilock
  refine .ite (fun _ => .error (by decide)) fun hone => .ite (fun _ => .error (by decide))
    fun hunlocked => ?_
  have hpos : 0 < (s.icache ip).ref := by omega
  -- the inode has a reference, hence a type
  refine .ite (fun hfree => ?_) fun _ => .ok ⟨fun hl => hunlocked (hold.locked.mpr hl), ?_⟩
  · have htype := hfree.2
    rw [State.inode, h.inodes] at htype
    exact absurd htype (hold.alloc hpos)
  · refine h.setEntry rfl hpos (h.own_cases rfl) (fun _ _ => rfl) (fun q hq => by simp [hq]) ?_
      (.inl hpos)
    exact {
      count := hold.count
      locked := by simp
      valid := fun _ => ⟨rfl, hpos⟩
      alloc := hold.alloc
      others := fun hmine => ⟨(hold.others hmine).1, fun _ => rfl⟩
      cwd := hold.cwd }

theorem iunlock_entry :
    Safely (iunlock s ip) fun s' =>
      ((s'.icache ip).valid = (s.icache ip).valid ∧ (s'.icache ip).ref = (s.icache ip).ref) ∧
        Busy env T loc (locks.erase ip) s' := by
  have hold := h.entry ip
  unfold iunlock
  refine .ite (fun _ => .error (by decide)) fun hlocked => .ok ⟨?_, ?_⟩
  · simp [State.setEntry]
  · have hpos : 0 < (s.icache ip).ref := by
      have := (not_or.mp hlocked).2
      omega
    refine h.setEntry rfl hpos (h.own_cases rfl) (fun _ _ => rfl) (fun q hq => by simp [hq]) ?_
      (.inl hpos)
    exact {
      count := hold.count
      locked := by simp
      valid := fun hl => absurd hl (by simp)
      alloc := hold.alloc
      others := hold.others
      cwd := hold.cwd }

theorem iunlock_spec : Safely (iunlock s ip) (Busy env T loc (locks.erase ip)) :=
  (iunlock_entry h).mono fun _ hs' => hs'.2

end

/-- The inodes after one of `ref` references to `i` is dropped. -/
def dropped (T : Inum → Dinode) (i : Inum) (ref : ℤ) : Inum → Dinode :=
  if (T i).nlink = 0 ∧ ref = 1 then update T i (T i).freed else T

theorem dropped_of_nlink_ne_zero {ref : ℤ} (h : (T i).nlink ≠ 0) : dropped T i ref = T :=
  if_neg fun hzero => h hzero.1

section

variable (h : Busy env T ((ip, i) ::ₘ loc) locks s)

include h

/-- A reference is dropped, whatever becomes of the inode then. -/
theorem Busy.drop (hunlock : ip ∉ locks) {valid : Bool} (hT' : ∀ j, j ≠ i → T' j = T j)
    (hlast : 1 < (s.icache ip).ref ∧ T' i = T i ∧ valid = (s.icache ip).valid ∨
      (s.icache ip).ref = 1 ∧ ((T' i).nlink ≠ 0 ∨ (T' i).type = .free)) :
    Busy env T' loc locks { s with
      inodes := T'
      icache := update s.icache ip
        { s.icache ip with valid := valid, ref := (s.icache ip).ref - 1 } } := by
  have hmem : (ip, i) ∈ (ip, i) ::ₘ loc := Multiset.mem_cons_self ..
  have hinum : (s.icache ip).inum = i := h.inum hmem
  have hpos := h.ref_pos hmem
  have hold := h.entry ip
  rw [refs_cons_self] at hold
  have hcount := hold.count
  refine h.change ?_ ?_ (fun q hq => (refs_cons_of_ne hq ..).symm) (fun _ _ => Iff.rfl) ?_ ?_
  · intro q hq hqpos
    have hne := h.other hpos hq hqpos
    refine ⟨hT' _ ?_, fun _ => hne⟩
    rw [← hinum]
    exact hne
  · intro r hr
    have hr' : r ∈ (ip, i) ::ₘ loc := Multiset.mem_cons_of_mem hr
    by_cases hip : r.1 = ip
    · refine .inl ⟨hip, ?_⟩
      rw [← h.own r hr', hip]
      rfl
    · exact .inr ⟨hip, hr'⟩
  · -- the entry has other references, or none at all
    rcases hlast with ⟨hmore, hsame, rfl⟩ | ⟨hone, -⟩
    · have hsame' : T' (s.icache ip).inum = T (s.icache ip).inum := by rw [hinum, hsame]
      exact {
        count := by
          show _ ≤ (s.icache ip).ref - 1
          omega
        locked := hold.locked
        valid := fun hl => absurd hl hunlock
        alloc := fun _ => by
          rw [hsame']
          exact hold.alloc hpos
        others := fun hleft => by
          change _ < (s.icache ip).ref - 1 at hleft
          rw [hsame']
          exact hold.others (by omega)
        cwd := fun hc => by
          obtain ⟨hmine, hdir⟩ := hold.cwd hc
          rw [hsame']
          refine ⟨?_, hdir⟩
          show _ < (s.icache ip).ref - 1
          omega }
    · exact {
        count := by
          show _ ≤ (s.icache ip).ref - 1
          omega
        locked := hold.locked
        valid := fun hl => absurd hl hunlock
        alloc := fun hleft => by
          change 0 < (s.icache ip).ref - 1 at hleft
          omega
        others := fun hleft => by
          change _ < (s.icache ip).ref - 1 at hleft
          omega
        cwd := fun hc => by
          have hmine := (hold.cwd hc).1
          omega }
  · intro j halloc hnlink
    by_cases hj : j = i
    · subst hj
      rcases hlast with ⟨hmore, -⟩ | ⟨-, hlinked | hfree⟩
      · refine .inl ⟨?_, hinum⟩
        show 0 < (s.icache ip).ref - 1
        omega
      · exact absurd hnlink hlinked
      · exact absurd hfree halloc
    · rw [hT' j hj] at halloc hnlink
      rcases h.kept j halloc hnlink with ⟨q, hqpos, hq⟩ | hlost
      · refine .inr (.inl ⟨q, ?_, hqpos, hq⟩)
        rintro rfl
        exact hj (hq.symm.trans hinum)
      · exact .inr (.inr hlost)

/-- **A reference is dropped.** The inode must have been read, if it has no links. -/
theorem iput_spec (hvalid : (T i).nlink = 0 → (s.icache ip).valid = true) :
    Safely (iput s ip) (Busy env (dropped T i (s.icache ip).ref) loc locks) := by
  have hmem : (ip, i) ∈ (ip, i) ::ₘ loc := Multiset.mem_cons_self ..
  have hpos := h.ref_pos hmem
  unfold iput
  refine .ite (fun _ => .error (by decide)) fun hunlocked => ?_
  have hunlock : ip ∉ locks := fun hl => hunlocked ((h.entry ip).locked.mpr hl)
  rw [h.inode hmem]
  refine .ite (fun hfree => .ok ?_) fun hkeep => .ok ?_
  · obtain ⟨-, hnlink, hlast⟩ := hfree
    rw [dropped, if_pos ⟨hnlink, hlast⟩]
    unfold State.iupdate State.setInode State.setEntry
    rw [h.inum hmem, h.inodes]
    refine h.drop hunlock (fun j hj => update_of_ne hj ..) (.inr ⟨hlast, .inr ?_⟩)
    rw [update_self]
    rfl
  · have hsame : dropped T i (s.icache ip).ref = T :=
      if_neg fun hzero => hkeep ⟨hvalid hzero.1, hzero⟩
    rw [hsame]
    have hleft : 1 < (s.icache ip).ref ∨ (s.icache ip).ref = 1 ∧ (T i).nlink ≠ 0 := by
      by_cases hone : (s.icache ip).ref = 1
      · exact .inr ⟨hone, fun hnlink => hkeep ⟨hvalid hnlink, hnlink, hone⟩⟩
      · exact .inl (by omega)
    have hdrop : Busy env T loc locks { s with
        inodes := T
        icache := update s.icache ip
          { s.icache ip with valid := (s.icache ip).valid, ref := (s.icache ip).ref - 1 } } :=
      h.drop hunlock (fun _ _ => rfl) (hleft.imp (fun hmore => ⟨hmore, rfl, rfl⟩)
        fun hone => ⟨hone.1, .inl hone.2⟩)
    rw [← h.inodes] at hdrop ⊢
    exact hdrop

/-- A reference to an inode with links is only counted. -/
theorem iput_linked (hnlink : (T i).nlink ≠ 0) : Safely (iput s ip) (Busy env T loc locks) := by
  have hspec := iput_spec h fun hzero => absurd hzero hnlink
  rw [dropped_of_nlink_ne_zero hnlink] at hspec
  exact hspec

/-- An inode that is locked is valid, so `iunlockput` frees it when nothing holds it. -/
theorem iunlockput_spec (hlock : ip ∈ locks) :
    Safely (iunlockput s ip)
      (Busy env (dropped T i (s.icache ip).ref) loc (locks.erase ip)) := by
  unfold iunlockput
  refine (iunlock_entry h).bind fun s' hs' => ?_
  obtain ⟨⟨hvalid, href⟩, hs'⟩ := hs'
  rw [← href]
  exact iput_spec hs' fun _ => hvalid.trans ((h.entry ip).valid hlock).1

theorem iunlockput_linked (hlock : ip ∈ locks) (hnlink : (T i).nlink ≠ 0) :
    Safely (iunlockput s ip) (Busy env T loc (locks.erase ip)) := by
  have hspec := iunlockput_spec h hlock
  rw [dropped_of_nlink_ne_zero hnlink] at hspec
  exact hspec

end

/-- `ialloc` takes a free inode and leaves it without links. -/
theorem ialloc_spec (h : Busy env T loc locks s) {type : IType} (htype : type ≠ .free) :
    Safely (ialloc s type) fun r =>
      ∃ i, i ≠ 0 ∧ (T i).type = .free ∧
        Busy env (update T i ⟨type, 0, 0, 0, [], 0⟩) ((r.2, i) ::ₘ loc) locks r.1 := by
  unfold ialloc
  rw [h.inodes]
  cases hfree : freeInum T with
  | none => exact .error (by decide)
  | some i =>
    have hi : i ≠ 0 ∧ (T i).type = .free := by
      simpa using List.find?_some hfree
    -- nothing refers to a free inode
    have hcached : (s.setInode i ⟨type, 0, 0, 0, [], 0⟩).cached i = none := by
      cases hcached : (s.setInode i ⟨type, 0, 0, 0, [], 0⟩).cached i with
      | none => rfl
      | some q =>
        obtain ⟨hpos, hinum⟩ := cached_eq_some hcached
        have halloc := (h.entry q).alloc hpos
        rw [show (s.icache q).inum = i from hinum] at halloc
        exact absurd hi.2 halloc
    show Safely (iget _ i) _
    unfold iget
    rw [hcached]
    dsimp only
    cases hempty : (s.setInode i ⟨type, 0, 0, 0, [], 0⟩).empty with
    | none => exact .error (by decide)
    | some ip =>
      refine .ok ⟨i, hi.1, hi.2, ?_⟩
      unfold State.setInode
      rw [h.inodes]
      refine h.fresh hcached hempty (fun j hj => update_of_ne hj ..) ?_
      rw [update_self]
      exact htype

end Cache

/-! ### Directories -/

theorem find_eq_some {x : Dinode} {name : Name} {i : Inum} {off : ℕ}
    (h : x.find name = some (i, off)) : x.dirents[off]? = some ⟨i, name⟩ ∧ i ≠ 0 := by
  obtain ⟨e, he, hpair⟩ := Option.map_eq_some_iff.mp h
  obtain ⟨rfl, rfl⟩ := Prod.mk.inj hpair
  have hnamed : e.inum ≠ 0 ∧ e.name = name := of_decide_eq_true (show e.named name from
    List.find?_some he)
  rw [List.find?_eq_getElem?_findIdx] at he
  refine ⟨?_, hnamed.1⟩
  rw [he, ← hnamed.2]

theorem find_eq_none {x : Dinode} {name : Name} (h : x.find name = none) :
    ∀ e ∈ x.dirents, e.inum ≠ 0 → e.name ≠ name := by
  intro e he hinum hname
  have hnone := List.find?_eq_none.mp (Option.map_eq_none_iff.mp h) e he
  exact hnone (decide_eq_true ⟨hinum, hname⟩)

/-- What a path lookup relies on: the inodes it passes are allocated and have links. -/
structure Sound (T : Inum → Dinode) : Prop where
  root : (T ROOTINO).type = .dir
  dir : ∀ d, (T d).type = .dir → (T d).nlink ≠ 0
  named : ∀ d, (T d).type = .dir → ∀ e ∈ (T d).dirents, e.inum ≠ 0 →
    (T e.inum).type ≠ .free ∧ (T e.inum).nlink ≠ 0

theorem Sound.find {T : Inum → Dinode} (h : Sound T) {d i : Inum} {name : Name} {off : ℕ}
    (hd : (T d).type = .dir) (hfind : (T d).find name = some (i, off)) :
    (T i).type ≠ .free ∧ (T i).nlink ≠ 0 := by
  obtain ⟨hoff, hinum⟩ := find_eq_some hfind
  exact h.named d hd _ (List.mem_of_getElem? hoff) hinum

theorem Tree.sound {T : Inum → Dinode} (h : Tree T) : Sound T where
  root := h.root.1
  dir := by
    intro d hd
    have hpos := h.links_dir_pos hd
    have heq := h.nlink d (by rw [hd]; decide)
    omega
  named := by
    intro d hd e he hinum
    obtain ⟨halloc, hpos⟩ := h.named hd he hinum
    have heq := h.nlink e.inum halloc
    exact ⟨halloc, by omega⟩

section Directories

variable {env : Env} {s : State} {T : Inum → Dinode} {loc : Multiset (Ip × Inum)}
  {locks : Finset Ip} {dp : Ip} {d i : Inum} {name : Name}

/-- What `dirlookup` returns: nothing, or a reference to the inode that the entry names. -/
def LookedUp (env : Env) (T : Inum → Dinode) (loc : Multiset (Ip × Inum)) (locks : Finset Ip)
    (d : Inum) (name : Name) (r : State × Option (Ip × ℕ)) : Prop :=
  match r.2 with
  | none => (T d).find name = none ∧ Busy env T loc locks r.1
  | some (ip, off) => ∃ i, (T d).find name = some (i, off) ∧ Busy env T ((ip, i) ::ₘ loc) locks r.1

variable (h : Busy env T loc locks s) (hmem : (dp, d) ∈ loc)

include h hmem

theorem dirlookup_spec (hnamed : ∀ i off, (T d).find name = some (i, off) → (T i).type ≠ .free) :
    Safely (dirlookup s dp name) fun r =>
      (T d).type = .dir ∧ LookedUp env T loc locks d name r := by
  unfold dirlookup
  rw [h.inode hmem]
  refine .ite (fun _ => .error (by decide)) fun hdir => ?_
  have hdir : (T d).type = .dir := not_not.mp hdir
  cases hfind : (T d).find name with
  | none => exact .ok ⟨hdir, hfind, h⟩
  | some found =>
    obtain ⟨i, off⟩ := found
    exact (iget_spec h (hnamed i off hfind)).bind fun r hr => .ok ⟨hdir, i, hfind, hr⟩

theorem writeDir_spec (hlock : dp ∈ locks) {x : Dinode} (hx : x.type = (T d).type) :
    Safely (writeDir s dp x) fun s' =>
      (used T ≤ nblocks → used (update T d x) ≤ nblocks) ∧
        Busy env (update T d x) loc locks s' := by
  unfold writeDir
  rw [h.inode hmem, h.inum hmem, h.inodes]
  refine .ite (fun _ => .error (by decide)) fun _ => .ite (fun _ => .error (by decide))
    fun hroom => .ok ⟨fun hfits => ?_, ?_⟩
  · have hused : used (update T d x) + (T d).blocks = used T + x.blocks :=
      total_update _ T d x
    omega
  · exact h.iupdate hmem hlock (hx ▸ h.alloc hmem) fun hdir => hx.trans hdir

/-- `dirlink` of a name that is not there. -/
theorem dirlink_absent (hlock : dp ∈ locks) (hfind : (T d).find name = none) :
    Safely (dirlink s dp name i) fun r =>
      r.2 = true ∧ (T d).type = .dir ∧
      (used T ≤ nblocks → used (update T d ((T d).addEntry ⟨i, name⟩)) ≤ nblocks) ∧
        Busy env (update T d ((T d).addEntry ⟨i, name⟩)) loc locks r.1 := by
  unfold dirlink
  refine (dirlookup_spec h hmem fun i off hsome => by simp [hfind] at hsome).bind ?_
  rintro ⟨s', _ | ⟨ip, off⟩⟩ ⟨hdir, hlooked⟩
  · obtain ⟨-, hs'⟩ := hlooked
    dsimp only at hs' ⊢
    rw [hs'.inode hmem]
    have hwrite := writeDir_spec (x := (T d).addEntry ⟨i, name⟩) hs' hmem hlock rfl
    exact hwrite.bind fun s'' hs'' => .ok ⟨rfl, hdir, hs''⟩
  · obtain ⟨j, hsome, -⟩ := hlooked
    rw [hfind] at hsome
    cases hsome

/-- `dirlink` of a name that is there drops the reference it took. -/
theorem dirlink_present (hfind : (T d).find name ≠ none) (hsound : Sound T)
    (hdir : (T d).type = .dir) :
    Safely (dirlink s dp name i) fun r => r.2 = false ∧ Busy env T loc locks r.1 := by
  unfold dirlink
  refine (dirlookup_spec h hmem fun i off hsome => (hsound.find hdir hsome).1).bind ?_
  rintro ⟨s', _ | ⟨ip, off⟩⟩ ⟨-, hlooked⟩
  · exact absurd hlooked.1 hfind
  · obtain ⟨j, hsome, hs'⟩ := hlooked
    exact (iput_linked hs' (hsound.find hdir hsome).2).bind fun s'' hs'' => .ok ⟨rfl, hs''⟩

end Directories

/-! ### Paths -/

/-- The inode that the names lead to. -/
def walk (T : Inum → Dinode) : Inum → List Name → Option Inum
  | i, [] => some i
  | i, name :: rest =>
    if (T i).type = .dir then
      match (T i).find name with
      | none => none
      | some (j, _) => walk T j rest
    else
      none

theorem walk_cons {T : Inum → Dinode} {i j : Inum} {name : Name} {off : ℕ} (rest : List Name)
    (hdir : (T i).type = .dir) (hfind : (T i).find name = some (j, off)) :
    walk T i (name :: rest) = walk T j rest := by
  simp only [walk, hdir, if_true, hfind]

theorem walk_append (T : Inum → Dinode) (i : Inum) (pre rest : List Name) :
    walk T i (pre ++ rest) = (walk T i pre).bind fun j => walk T j rest := by
  induction pre generalizing i with
  | nil => rfl
  | cons name pre ih =>
    simp only [List.cons_append, walk]
    split
    · cases (T i).find name with
      | none => rfl
      | some found => exact ih found.1
    · rfl

/-- The names before the inode that a lookup returns; a lookup of the parent stops before the last
one. -/
def Reached (T : Inum → Dinode) (start : Inum) (names : List Name) (parent : Bool) (i : Inum)
    (name : Name) : Prop :=
  ∃ pre, walk T start pre = some i ∧
    if parent then names = pre ++ [name] ∧ (T i).type = .dir else names = pre

section Paths

variable {env : Env} {s : State} {T : Inum → Dinode} {loc : Multiset (Ip × Inum)} {ip cwd : Ip}
  {i : Inum} {parent : Bool} {names : List Name} {path : Path}

/-- What a lookup leaves behind: nothing, or one reference to the inode it returns. -/
def Found (env : Env) (T : Inum → Dinode) (loc : Multiset (Ip × Inum)) (start : Inum)
    (names : List Name) (parent : Bool) (r : State × Option (Ip × Name)) : Prop :=
  match r.2 with
  | none => Busy env T loc ∅ r.1
  | some (ip, name) => ∃ i, Busy env T ((ip, i) ::ₘ loc) ∅ r.1 ∧ (T i).nlink ≠ 0 ∧
      Reached T start names parent i name

theorem Reached.cons {name last : Name} {next j : Inum} {off : ℕ} {rest : List Name}
    (hdir : (T i).type = .dir) (hfind : (T i).find name = some (next, off))
    (h : Reached T next rest parent j last) : Reached T i (name :: rest) parent j last := by
  obtain ⟨pre, hwalk, hnames⟩ := h
  refine ⟨name :: pre, ?_, ?_⟩
  · rw [walk_cons pre hdir hfind]
    exact hwalk
  · split at hnames
    · rw [if_pos ‹_›]
      exact ⟨congrArg (List.cons name) hnames.1, hnames.2⟩
    · rw [if_neg ‹_›]
      exact congrArg (List.cons name) hnames

theorem insert_erase_empty (q : Ip) : (insert q (∅ : Finset Ip)).erase q = ∅ := by simp

/-- **The loop of `namex`.** By induction on the names that are left: each round trades the
reference to a directory for one to the inode that its entry names. -/
theorem namexLoop_spec (hT : Sound T) (h : Busy env T ((ip, i) ::ₘ loc) ∅ s)
    (hnlink : (T i).nlink ≠ 0) :
    Safely (namexLoop parent s ip names) (Found env T loc i names parent) := by
  induction names generalizing s ip i with
  | nil =>
    unfold namexLoop
    refine .ite (fun hparent => ?_) fun hparent => .ok ⟨i, h, hnlink, [], rfl, by simp [hparent]⟩
    exact (iput_linked h hnlink).bind fun s' hs' => .ok hs'
  | cons name rest ih =>
    have hmem : (ip, i) ∈ (ip, i) ::ₘ loc := Multiset.mem_cons_self ..
    have hlock : ip ∈ insert ip (∅ : Finset Ip) := by simp
    unfold namexLoop
    refine (ilock_spec h).bind fun s hs => ?_
    obtain ⟨-, hs⟩ := hs
    rw [hs.inode hmem]
    refine .ite (fun _ => ?_) fun hdir => ?_
    · -- not a directory
      refine (iunlockput_linked hs hlock hnlink).bind fun s' hs' => .ok ?_
      rw [insert_erase_empty] at hs'
      exact hs'
    have hdir : (T i).type = .dir := not_not.mp hdir
    refine .ite (fun hlast => ?_) fun _ => ?_
    · -- stop one level early
      refine (iunlock_spec hs).bind fun s' hs' => .ok ⟨i, ?_, hnlink, [], rfl, ?_⟩
      · rw [insert_erase_empty] at hs'
        exact hs'
      · rw [if_pos hlast.1, hlast.2]
        exact ⟨rfl, hdir⟩
    refine (dirlookup_spec hs hmem fun j off hsome => (hT.find hdir hsome).1).bind ?_
    rintro ⟨s, _ | ⟨next, off⟩⟩ ⟨-, hlooked⟩
    · refine (iunlockput_linked hlooked.2 hlock hnlink).bind fun s hs => .ok ?_
      rw [insert_erase_empty] at hs
      exact hs
    · obtain ⟨j, hfind, hs⟩ := hlooked
      dsimp only at hs ⊢
      rw [Multiset.cons_swap] at hs
      refine (iunlockput_linked hs hlock hnlink).bind fun s hs => ?_
      rw [insert_erase_empty] at hs
      refine (ih hs (hT.find hdir hfind).2).mono ?_
      rintro ⟨s', _ | ⟨q, last⟩⟩ hfound
      · exact hfound
      · obtain ⟨k, hs', hlinked, hreached⟩ := hfound
        exact ⟨k, hs', hlinked, hreached.cons hdir hfind⟩

/-- Where a lookup starts. -/
def start (s : State) (cwd : Ip) (path : Path) : Inum :=
  if path.head? = some '/' then ROOTINO else s.inum cwd

variable (hT : Sound T) (h : Busy env T loc ∅ s) (hcwd : env.cwd cwd)

include hT h hcwd

theorem namex_spec :
    Safely (namex s cwd path parent)
      (Found env T loc (start s cwd path) (elements '/' path) parent) := by
  have hroot : (T ROOTINO).type ≠ .free := by
    rw [hT.root]
    decide
  have hdir := ((h.entry cwd).cwd hcwd).2
  unfold namex start
  split
  · exact (iget_spec h hroot).bind fun r hr => namexLoop_spec hT hr (hT.dir _ hT.root)
  · exact namexLoop_spec hT (idup_spec h hcwd) (hT.dir _ hdir)

theorem namei_spec :
    Safely (namei s cwd path) fun r =>
      match r.2 with
      | none => Busy env T loc ∅ r.1
      | some ip => ∃ i, Busy env T ((ip, i) ::ₘ loc) ∅ r.1 ∧ (T i).nlink ≠ 0 := by
  unfold namei
  refine (namex_spec hT h hcwd).bind ?_
  rintro ⟨s', _ | ⟨ip, name⟩⟩ hfound
  · exact .ok hfound
  · obtain ⟨i, hs', hnlink, -⟩ := hfound
    exact .ok ⟨i, hs', hnlink⟩

/-- `nameiparent` returns a directory, and the last name of the path. -/
theorem nameiparent_spec :
    Safely (nameiparent s cwd path) fun r =>
      match r.2 with
      | none => Busy env T loc ∅ r.1
      | some (dp, name) => ∃ d, Busy env T ((dp, d) ::ₘ loc) ∅ r.1 ∧ (T d).type = .dir ∧
          ∃ pre, elements '/' path = pre ++ [name] ∧ walk T (start s cwd path) pre = some d := by
  unfold nameiparent
  refine (namex_spec hT h hcwd).mono ?_
  rintro ⟨s', _ | ⟨dp, name⟩⟩ hfound
  · exact hfound
  · obtain ⟨d, hs', -, pre, hwalk, hnames, hdir⟩ := hfound
    exact ⟨d, hs', hdir, pre, hnames, hwalk⟩

end Paths

end Xv6.Fs
