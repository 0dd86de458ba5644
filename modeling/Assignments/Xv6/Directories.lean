import Assignments.Xv6.InodeCache
import Assignments.Xv6.Path

/-!
# Directories as bytes, and the system calls on them

A directory is a file of 16-byte entries, a number of an inode in two bytes and a name in fourteen.
`dirlookup`, `dirlink` and `isdirempty` read them one after another with `readi` (`scan`). On top of
them are the lookup of paths and the routines `create`, `sys_link` and `sys_unlink` of `sysfile.c`,
the latter two without the arguments' transfer from user space.

Each routine keeps what its caller holds, up to the references and locks that it returns:
`dirlookup_spec`, `dirlink_spec`, `namex_spec`, `create_spec`, `sysLink_spec`,
`sysUnlink_spec`.
-/

namespace Xv6.OnDisk

open Framework

/-! ### Names and entries -/

/-- `strncmp(p, q, n) == 0`. After its last byte a string has its NUL. -/
def strncmp : ℕ → List Byte → List Byte → Bool
  | 0, _, _ => true
  | n + 1, p, q =>
    if p.headD 0 ≠ 0 ∧ p.headD 0 = q.headD 0 then strncmp n p.tail q.tail
    else p.headD 0 = q.headD 0

/-- The bytes that `strncpy(s, t, n)` stores. -/
def strncpy : ℕ → List Byte → List Byte
  | 0, _ => []
  | n + 1, t => if t.headD 0 = 0 then List.replicate (n + 1) 0 else t.headD 0 :: strncpy n t.tail

def namecmp (s t : List Byte) : Bool := strncmp DIRSIZ s t

/-- `sizeof(struct dirent)` -/
def direntSize : ℕ := 16

/-- `struct dirent` with this number and this name. -/
def dirent (inum : ℕ) (name : List Byte) : List Byte :=
  BitVec.ofNat 8 inum :: BitVec.ofNat 8 (inum / 256) :: strncpy DIRSIZ name

/-- `de.inum` -/
def direntInum (de : List Byte) : ℕ := getLE (fun k => de.getD k 0) 0 2

/-- `de.name` -/
def direntName (de : List Byte) : List Byte := de.drop 2

/-! ### Reading and changing a directory -/

/-- The loop over the entries of a directory from `off` on, up to the first one with `p`. The
offset at which it ends is returned, and the entry there. -/
def scan (ip : Ip) (stop : Stop) (p : List Byte → Bool) :
    ℕ → State → ℕ → Except Stop (State × ℕ × Option (List Byte))
  | 0, s, off => .ok (s, off, none)
  | fuel + 1, s, off =>
    if off < (s.icache ip).din.size then do
      let (s, count, de) ← s.readi ip off direntSize
      if count ≠ .bytes direntSize then .error stop
      else if p de then .ok (s, off, some de)
      else scan ip stop p fuel s (off + direntSize)
    else .ok (s, off, none)

/-- `scan` with as many iterations as there can be. -/
def State.scan (s : State) (ip : Ip) (stop : Stop) (p : List Byte → Bool) (off : ℕ) :
    Except Stop (State × ℕ × Option (List Byte)) :=
  OnDisk.scan ip stop p ((s.icache ip).din.size + 1) s off

/-- The inode found, and the offset of its entry. -/
def dirlookup (s : State) (dp : Ip) (name : List Byte) : Except Stop (State × Option (Ip × ℕ)) :=
  if (s.icache dp).din.type ≠ T_DIR then .error .dirlookupNotDir
  else do
    let (s, off, de) ← s.scan dp .dirlookupRead
      (fun de => direntInum de ≠ 0 ∧ namecmp name (direntName de)) 0
    match de with
    | some de =>
      let (s, ip) ← iget s (direntInum de)
      .ok (s, some (ip, off))
    | none => .ok (s, none)

/-- `true` is a return of 0, and `false` of -1. -/
def dirlink (s : State) (dp : Ip) (name : List Byte) (inum : ℕ) : Except Stop (State × Bool) := do
  let (s, found) ← dirlookup s dp name
  match found with
  | some (ip, _) =>
    let s ← iput s ip
    .ok (s, false)
  | none =>
    let (s, off, _) ← s.scan dp .dirlinkRead (fun de => direntInum de = 0) 0
    let (s, count) ← s.writei dp off (dirent inum name)
    if count ≠ .bytes direntSize then .error .dirlink else .ok (s, true)

/-- Is the directory empty except for its first two entries? -/
def isdirempty (s : State) (dp : Ip) : Except Stop (State × Bool) := do
  let (s, _, de) ← s.scan dp .isdiremptyReadi (fun de => direntInum de ≠ 0) (2 * direntSize)
  .ok (s, de.isNone)

/-! ### Paths -/

/-- `'/'` -/
def slash : Byte := 47

/-- `"."` -/
def dot : List Byte := [46]

/-- `".."` -/
def dotdot : List Byte := [46, 46]

/-- The loop of `namex` from the inode `ip`, over the elements that are left. The path after the
last element is empty, which is what `nameiparent` tests. -/
def namexLoop (parent : Bool) :
    State → Ip → List (List Byte) → Except Stop (State × Option (Ip × List Byte))
  | s, ip, [] =>
    if parent then do
      let s ← iput s ip
      .ok (s, none)
    else .ok (s, some (ip, []))
  | s, ip, name :: rest => do
    let s ← ilock s ip
    if (s.icache ip).din.type ≠ T_DIR then
      let s ← iunlockput s ip
      .ok (s, none)
    else if parent ∧ rest = [] then
      let s ← iunlock s ip
      .ok (s, some (ip, name))
    else
      let (s, next) ← dirlookup s ip name
      let s ← iunlockput s ip
      match next with
      | none => .ok (s, none)
      | some (next, _) => namexLoop parent s next rest

def ROOTINO : ℕ := 1

def namex (s : State) (cwd : Ip) (path : List Byte) (parent : Bool) :
    Except Stop (State × Option (Ip × List Byte)) :=
  if path.head? = some slash then do
    let (s, ip) ← iget s ROOTINO
    namexLoop parent s ip (elements slash path)
  else namexLoop parent (idup s cwd) cwd (elements slash path)

def namei (s : State) (cwd : Ip) (path : List Byte) : Except Stop (State × Option Ip) := do
  let (s, found) ← namex s cwd path false
  .ok (s, found.map Prod.fst)

def nameiparent (s : State) (cwd : Ip) (path : List Byte) :
    Except Stop (State × Option (Ip × List Byte)) :=
  namex s cwd path true

/-! ### `create`, `sys_link` and `sys_unlink` -/

/-- The entries `.` and `..` of a new inode, if it is a directory. -/
def createDots (s : State) (dp ip : Ip) (type : BitVec 16) : Except Stop State :=
  if type = T_DIR then do
    let (s, _) ← s.modify dp fun din => { din with nlink := din.nlink + 1 }
    let (s, done) ← dirlink s ip dot (s.icache ip).inum
    if done then
      let (s, done) ← dirlink s ip dotdot (s.icache dp).inum
      if done then .ok s else .error .createDots
    else .error .createDots
  else .ok s

/-- The part of `create` for a new inode; the directory is locked. -/
def createNew (s : State) (dp : Ip) (name : List Byte) (type major minor : BitVec 16) :
    Except Stop (State × Option Ip) := do
  let (s, ip) ← ialloc s type
  let s ← ilock s ip
  let (s, _) ← s.modify ip fun din => { din with major := major, minor := minor, nlink := 1 }
  let s ← createDots s dp ip type
  let (s, done) ← dirlink s dp name (s.icache ip).inum
  if done then
    let s ← iunlockput s dp
    .ok (s, some ip)
  else .error .createDirlink

/-- The inode is returned locked. -/
def create (s : State) (cwd : Ip) (path : List Byte) (type major minor : BitVec 16) :
    Except Stop (State × Option Ip) := do
  let (s, parent) ← nameiparent s cwd path
  match parent with
  | none => .ok (s, none)
  | some (dp, name) =>
    let s ← ilock s dp
    let (s, found) ← dirlookup s dp name
    match found with
    | some (ip, _) =>
      let s ← iunlockput s dp
      let s ← ilock s ip
      if type = T_FILE ∧ (s.icache ip).din.type = T_FILE then .ok (s, some ip)
      else
        let s ← iunlockput s ip
        .ok (s, none)
    | none => createNew s dp name type major minor

/-- The part of `sys_link` that makes the new entry, for the inode `ip`. -/
def linkEntry (s : State) (cwd : Ip) (new : List Byte) (ip : Ip) : Except Stop (State × Bool) := do
  let (s, parent) ← nameiparent s cwd new
  match parent with
  | none => .ok (s, false)
  | some (dp, name) =>
    let s ← ilock s dp
    let (s, done) ← dirlink s dp name (s.icache ip).inum
    let s ← iunlockput s dp
    .ok (s, done)

def sysLink (s : State) (cwd : Ip) (old new : List Byte) : Except Stop (State × Bool) := do
  let (s, found) ← namei s cwd old
  match found with
  | none => .ok (s, false)
  | some ip =>
    let s ← ilock s ip
    if (s.icache ip).din.type = T_DIR then
      let s ← iunlockput s ip
      .ok (s, false)
    else
      let (s, _) ← s.modify ip fun din => { din with nlink := din.nlink + 1 }
      let s ← iunlock s ip
      let (s, done) ← linkEntry s cwd new ip
      if done then
        let s ← iput s ip
        .ok (s, true)
      else
        let s ← ilock s ip
        let (s, _) ← s.modify ip fun din => { din with nlink := din.nlink - 1 }
        let s ← iunlockput s ip
        .ok (s, false)

/-- May the inode be unlinked? Not if it is a directory with entries. -/
def mayUnlink (s : State) (ip : Ip) : Except Stop (State × Bool) :=
  if (s.icache ip).din.type = T_DIR then isdirempty s ip else .ok (s, true)

/-- The directory loses the link from the entry `..` of the inode that is unlinked. -/
def dropDots (s : State) (dp ip : Ip) : Except Stop (State × Unit) :=
  if (s.icache ip).din.type = T_DIR then
    s.modify dp fun din => { din with nlink := din.nlink - 1 }
  else .ok (s, ())

/-- The part of `sys_unlink` for the inode `ip` that was found, at offset `off` of the directory;
both are locked. -/
def unlinkFound (s : State) (dp ip : Ip) (off : ℕ) : Except Stop (State × Bool) :=
  if (s.icache ip).din.nlink.toInt < 1 then .error .unlinkNlink
  else do
    let (s, empty) ← mayUnlink s ip
    if empty then
      let (s, count) ← s.writei dp off (List.replicate direntSize 0)
      if count ≠ .bytes direntSize then .error .unlinkWritei
      else
        let (s, _) ← dropDots s dp ip
        let s ← iunlockput s dp
        let (s, _) ← s.modify ip fun din => { din with nlink := din.nlink - 1 }
        let s ← iunlockput s ip
        .ok (s, true)
    else
      let s ← iunlockput s ip
      let s ← iunlockput s dp
      .ok (s, false)

def sysUnlink (s : State) (cwd : Ip) (path : List Byte) : Except Stop (State × Bool) := do
  let (s, parent) ← nameiparent s cwd path
  match parent with
  | none => .ok (s, false)
  | some (dp, name) =>
    let s ← ilock s dp
    if namecmp name dot ∨ namecmp name dotdot then
      let s ← iunlockput s dp
      .ok (s, false)
    else
      let (s, found) ← dirlookup s dp name
      match found with
      | none =>
        let s ← iunlockput s dp
        .ok (s, false)
      | some (ip, off) =>
        let s ← ilock s ip
        unlinkFound s dp ip off

/-! ### The rules -/

variable {s : State} {refs : Multiset Ip} {locks : Finset Ip} {ip dp cwd : Ip}

/-- One reference more, if there is one. -/
def withRef (found : Option Ip) (refs : Multiset Ip) : Multiset Ip :=
  match found with
  | some ip => ip ::ₘ refs
  | none => refs

theorem scan_spec (stop : Stop) {p : List Byte → Bool} (hip : ip ∈ locks) (hstop : Fine stop) :
    ∀ {fuel : ℕ} {s : State} {off : ℕ}, Holds s refs locks →
      Ensures Fine (scan ip stop p fuel s off) fun r => Holds r.1 refs locks
  | 0, _, _, h => Ensures.ok h
  | fuel + 1, s, off, h => by
    unfold scan
    apply Ensures.ite
    · intro _
      apply (State.readi_spec h hip off direntSize).bind
      intro r hr
      apply Ensures.ite
      · exact fun _ => Ensures.error hstop
      intro _
      apply Ensures.ite
      · exact fun _ => Ensures.ok hr
      · exact fun _ => scan_spec stop hip hstop hr
    · exact fun _ => Ensures.ok h

section

variable (h : Holds s refs locks) (hdp : dp ∈ locks)

include h hdp

theorem dirlookup_spec (name : List Byte) :
    Ensures Fine (dirlookup s dp name) fun r =>
      Holds r.1 (withRef (r.2.map Prod.fst) refs) locks := by
  unfold dirlookup
  apply Ensures.ite
  · exact fun _ => Ensures.error Stop.noConfusion
  intro _
  apply (scan_spec .dirlookupRead hdp Stop.noConfusion h).bind
  rintro ⟨s', off, de⟩ hs'
  cases de with
  | none => exact Ensures.ok hs'
  | some de =>
    exact (iget_spec hs' _).bind_ok

theorem dirlink_spec (name : List Byte) (inum : ℕ) :
    Ensures Fine (dirlink s dp name inum) fun r => Holds r.1 refs locks := by
  unfold dirlink
  apply (dirlookup_spec h hdp name).bind
  rintro ⟨s', found⟩ hs'
  cases found with
  | some found =>
    exact (iput_spec hs').bind_ok
  | none =>
    apply (scan_spec .dirlinkRead hdp Stop.noConfusion hs').bind
    intro r hr
    apply (State.writei_spec hr hdp _ _).bind
    intro r' hr'
    apply Ensures.ite
    · exact fun _ => Ensures.error Stop.noConfusion
    · exact fun _ => Ensures.ok hr'

theorem isdirempty_spec :
    Ensures Fine (isdirempty s dp) fun r => Holds r.1 refs locks := by
  unfold isdirempty
  exact (scan_spec .isdiremptyReadi hdp Stop.noConfusion h).bind_ok

end

/-- `iunlockput` of an inode that was locked in between. -/
theorem iunlockput_inserted (h : Holds s (ip ::ₘ refs) (insert ip locks)) (hip : ip ∉ locks) :
    Ensures Fine (iunlockput s ip) fun s' => Holds s' refs locks := by
  have hrule := iunlockput_spec h
  rwa [Finset.erase_insert hip] at hrule

theorem iunlock_inserted (h : Holds s refs (insert ip locks)) (hip : ip ∉ locks) :
    Ensures Fine (iunlock s ip) fun s' => Holds s' refs locks := by
  have hrule := iunlock_spec h ip
  rwa [Finset.erase_insert hip] at hrule

theorem Holds.swap {k l : Ip} (h : Holds s (k ::ₘ l ::ₘ refs) locks) :
    Holds s (l ::ₘ k ::ₘ refs) locks := by
  rwa [Multiset.cons_swap]

theorem namexLoop_spec (parent : Bool) : ∀ {names : List (List Byte)} {s : State} {ip : Ip},
    Holds s (ip ::ₘ refs) locks → Ensures Fine (namexLoop parent s ip names) fun r =>
      Holds r.1 (withRef (r.2.map Prod.fst) refs) locks
  | [], s, ip, h => by
    unfold namexLoop
    apply Ensures.ite
    · intro _
      exact (iput_spec h).bind_ok
    · exact fun _ => Ensures.ok h
  | name :: rest, s, ip, h => by
    unfold namexLoop
    apply (ilock_spec h ip).bind
    rintro s₁ ⟨hip, h₁⟩
    apply Ensures.ite
    · intro _
      exact (iunlockput_inserted h₁ hip).bind_ok
    intro _
    apply Ensures.ite
    · intro _
      exact (iunlock_inserted h₁ hip).bind_ok
    intro _
    apply (dirlookup_spec h₁ (Finset.mem_insert_self ip locks) name).bind
    rintro ⟨s₂, next⟩ h₂
    cases next with
    | none =>
      exact (iunlockput_inserted h₂ hip).bind_ok
    | some next =>
      apply (iunlockput_inserted (Holds.swap h₂) hip).bind
      intro s₃ h₃
      exact namexLoop_spec parent h₃

theorem Holds.ref_pos (h : Holds s refs locks) (hmem : ip ∈ refs) : 0 < (s.icache ip).ref := by
  have hcount : 0 < refs.count ip := Multiset.count_pos.mpr hmem
  have hle := h.ref ip
  omega

theorem namex_spec (h : Holds s refs locks) (hcwd : cwd ∈ refs) (path : List Byte)
    (parent : Bool) : Ensures Fine (namex s cwd path parent) fun r =>
      Holds r.1 (withRef (r.2.map Prod.fst) refs) locks := by
  unfold namex
  apply Ensures.ite
  · intro _
    apply (iget_spec h ROOTINO).bind
    intro r hr
    exact namexLoop_spec parent hr
  · intro _
    exact namexLoop_spec parent (h.incref (h.ref_pos hcwd))

theorem createDots_spec (h : Holds s refs locks) (hdp : dp ∈ locks) (hip : ip ∈ locks)
    (type : BitVec 16) : Ensures Fine (createDots s dp ip type) fun s' => Holds s' refs locks := by
  unfold createDots
  apply Ensures.ite
  swap
  · exact fun _ => Ensures.ok h
  intro _
  apply (State.modify_spec h hdp (·.major) (·.minor) (·.nlink + 1)).bind
  intro r₁ h₁
  apply (dirlink_spec h₁ hip dot _).bind
  intro r₂ h₂
  apply Ensures.ite
  · intro _
    apply (dirlink_spec h₂ hip dotdot _).bind
    intro r₃ h₃
    apply Ensures.ite
    · exact fun _ => Ensures.ok h₃
    · exact fun _ => Ensures.error Stop.noConfusion
  · exact fun _ => Ensures.error Stop.noConfusion

/-- The inode that is returned is locked. -/
def withLock (found : Option Ip) (locks : Finset Ip) : Finset Ip :=
  match found with
  | some ip => insert ip locks
  | none => locks

theorem createNew_spec (hdp : dp ∉ locks) (h : Holds s (dp ::ₘ refs) (insert dp locks))
    (name : List Byte) (type major minor : BitVec 16) :
    Ensures Fine (createNew s dp name type major minor) fun r =>
      Holds r.1 (withRef r.2 refs) (withLock r.2 locks) := by
  unfold createNew
  apply (ialloc_spec h type).bind
  rintro ⟨s₁, ip⟩ h₁
  apply (ilock_spec h₁ ip).bind
  rintro s₂ ⟨hip, h₂⟩
  rw [Finset.mem_insert, not_or] at hip
  have hipmem : ip ∈ insert ip (insert dp locks) := Finset.mem_insert_self ..
  have hdpmem : dp ∈ insert ip (insert dp locks) :=
    Finset.mem_insert_of_mem (Finset.mem_insert_self ..)
  apply (State.modify_spec h₂ hipmem (fun _ => major) (fun _ => minor) (fun _ => 1)).bind
  rintro ⟨s₃, _⟩ h₃
  apply (createDots_spec h₃ hdpmem hipmem type).bind
  intro s₄ h₄
  apply (dirlink_spec h₄ hdpmem name _).bind
  rintro ⟨s₅, done⟩ h₅
  apply Ensures.ite
  · intro _
    have hput := iunlockput_spec h₅.swap
    apply hput.bind
    intro s₆ h₆
    rw [Finset.erase_insert_of_ne hip.1, Finset.erase_insert hdp] at h₆
    exact Ensures.ok h₆
  · exact fun _ => Ensures.error Stop.noConfusion

section

variable (h : Holds s refs locks)

include h

theorem create_spec (hcwd : cwd ∈ refs) (path : List Byte) (type major minor : BitVec 16) :
    Ensures Fine (create s cwd path type major minor) fun r =>
      Holds r.1 (withRef r.2 refs) (withLock r.2 locks) := by
  unfold create
  apply (namex_spec h hcwd path true).bind
  rintro ⟨s₁, parent⟩ h₁
  cases parent with
  | none => exact Ensures.ok h₁
  | some parent =>
    obtain ⟨dp, name⟩ := parent
    apply (ilock_spec h₁ dp).bind
    rintro s₂ ⟨hdp, h₂⟩
    apply (dirlookup_spec h₂ (Finset.mem_insert_self dp locks) name).bind
    rintro ⟨s₃, found⟩ h₃
    cases found with
    | none => exact createNew_spec hdp h₃ name type major minor
    | some found =>
      apply (iunlockput_inserted (Holds.swap h₃) hdp).bind
      intro s₄ h₄
      apply (ilock_spec h₄ found.1).bind
      rintro s₅ ⟨hip, h₅⟩
      apply Ensures.ite
      · exact fun _ => Ensures.ok h₅
      · intro _
        exact (iunlockput_inserted h₅ hip).bind_ok

theorem linkEntry_spec (hcwd : cwd ∈ refs) (new : List Byte) (ip : Ip) :
    Ensures Fine (linkEntry s cwd new ip) fun r => Holds r.1 refs locks := by
  unfold linkEntry
  apply (namex_spec h hcwd new true).bind
  rintro ⟨s₁, parent⟩ h₁
  cases parent with
  | none => exact Ensures.ok h₁
  | some parent =>
    apply (ilock_spec h₁ parent.1).bind
    rintro s₂ ⟨hdp, h₂⟩
    apply (dirlink_spec h₂ (Finset.mem_insert_self ..) parent.2 _).bind
    rintro ⟨s₃, done⟩ h₃
    exact (iunlockput_inserted h₃ hdp).bind_ok

theorem sysLink_spec (hcwd : cwd ∈ refs) (old new : List Byte) :
    Ensures Fine (sysLink s cwd old new) fun r => Holds r.1 refs locks := by
  unfold sysLink namei
  simp only [bind_assoc]
  apply (namex_spec h hcwd old false).bind
  rintro ⟨s₁, found⟩ h₁
  cases found with
  | none => exact Ensures.ok h₁
  | some found =>
    obtain ⟨ip, _⟩ := found
    have hcwd' : cwd ∈ ip ::ₘ refs := Multiset.mem_cons_of_mem hcwd
    apply (ilock_spec h₁ ip).bind
    rintro s₂ ⟨hip, h₂⟩
    have hmem : ip ∈ insert ip locks := Finset.mem_insert_self ..
    apply Ensures.ite
    · intro _
      exact (iunlockput_inserted h₂ hip).bind_ok
    intro _
    apply (State.modify_spec h₂ hmem (·.major) (·.minor) (·.nlink + 1)).bind
    intro r₃ h₃
    apply (iunlock_inserted h₃ hip).bind
    intro s₄ h₄
    apply (linkEntry_spec h₄ hcwd' new ip).bind
    rintro ⟨s₅, done⟩ h₅
    apply Ensures.ite
    · intro _
      exact (iput_spec h₅).bind_ok
    · intro _
      apply (ilock_spec h₅ ip).bind
      rintro s₆ ⟨-, h₆⟩
      apply (State.modify_spec h₆ hmem (·.major) (·.minor) (·.nlink - 1)).bind
      intro r₇ h₇
      exact (iunlockput_inserted h₇ hip).bind_ok

theorem mayUnlink_spec (hip : ip ∈ locks) :
    Ensures Fine (mayUnlink s ip) fun r => Holds r.1 refs locks :=
  Ensures.ite (fun _ => isdirempty_spec h hip) fun _ => Ensures.ok h

theorem dropDots_spec (hdp : dp ∈ locks) (ip : Ip) :
    Ensures Fine (dropDots s dp ip) fun r => Holds r.1 refs locks :=
  Ensures.ite (fun _ => State.modify_spec h hdp (·.major) (·.minor) (·.nlink - 1))
    fun _ => Ensures.ok h

end

theorem unlinkFound_spec (hdp : dp ∉ locks) (hip : ip ∉ insert dp locks)
    (h : Holds s (ip ::ₘ dp ::ₘ refs) (insert ip (insert dp locks))) (off : ℕ) :
    Ensures Fine (unlinkFound s dp ip off) fun r => Holds r.1 refs locks := by
  have hne : ip ≠ dp := by
    rintro rfl
    exact hip (Finset.mem_insert_self ..)
  have hipmem : ip ∈ insert ip (insert dp locks) := Finset.mem_insert_self ..
  have hdpmem : dp ∈ insert ip (insert dp locks) :=
    Finset.mem_insert_of_mem (Finset.mem_insert_self ..)
  unfold unlinkFound
  apply Ensures.ite
  · exact fun _ => Ensures.error Stop.noConfusion
  intro _
  apply (mayUnlink_spec h hipmem).bind
  rintro ⟨s₁, empty⟩ h₁
  apply Ensures.ite
  · intro _
    apply (State.writei_spec h₁ hdpmem off _).bind
    intro r₂ h₂
    apply Ensures.ite
    · exact fun _ => Ensures.error Stop.noConfusion
    intro _
    apply (dropDots_spec h₂ hdpmem ip).bind
    intro r₃ h₃
    apply (iunlockput_spec h₃.swap).bind
    intro s₄ h₄
    rw [Finset.erase_insert_of_ne hne, Finset.erase_insert hdp] at h₄
    apply (State.modify_spec h₄ (Finset.mem_insert_self ..) (·.major) (·.minor)
      (·.nlink - 1)).bind
    intro r₅ h₅
    exact (iunlockput_inserted h₅ fun hmem => hip (Finset.mem_insert_of_mem hmem)).bind_ok
  · intro _
    apply (iunlockput_inserted h₁ hip).bind
    intro s₂ h₂
    exact (iunlockput_inserted h₂ hdp).bind_ok

theorem sysUnlink_spec (h : Holds s refs locks) (hcwd : cwd ∈ refs) (path : List Byte) :
    Ensures Fine (sysUnlink s cwd path) fun r => Holds r.1 refs locks := by
  unfold sysUnlink
  apply (namex_spec h hcwd path true).bind
  rintro ⟨s₁, parent⟩ h₁
  cases parent with
  | none => exact Ensures.ok h₁
  | some parent =>
    obtain ⟨dp, name⟩ := parent
    apply (ilock_spec h₁ dp).bind
    rintro s₂ ⟨hdp, h₂⟩
    apply Ensures.ite
    · intro _
      exact (iunlockput_inserted h₂ hdp).bind_ok
    intro _
    apply (dirlookup_spec h₂ (Finset.mem_insert_self dp locks) name).bind
    rintro ⟨s₃, found⟩ h₃
    cases found with
    | none =>
      exact (iunlockput_inserted h₃ hdp).bind_ok
    | some found =>
      apply (ilock_spec h₃ found.1).bind
      rintro s₄ ⟨hip, h₄⟩
      exact unlinkFound_spec hdp hip h₄ found.2

end Xv6.OnDisk
