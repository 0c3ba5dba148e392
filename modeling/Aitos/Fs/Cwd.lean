import Aitos.Fs.Resolution
import Aitos.Fs.Slots
import Aitos.Fs.DirectoryCalls

/-!
# The working directory

`sys_getcwd` of `fs/fs.c` climbs from the working directory to the root through the `..` entries,
looks each directory up in its parent by its number, and turns the names it has collected around.
On a directory tree this gives the one path of names that leads from the root to the directory.
-/

namespace Aitos.Fs

open Framework

/-- `get_parent_dir_inode_nr` -/
def getParentDirInodeNr (childInodeNr : UInt32) : FsM UInt32 := do
  let p ← inodeOpen childInodeNr
  let s ← get
  let blockLba := (s.inode p).iSectors 0
  assert (s.part.sb.dataStartLba ≤ blockLba)
  inodeClose p
  let ioBuf ← ideRead blockLba Bytes.zero 1
  let e := entryAt ioBuf 1
  assert (e.iNo < 4096 ∧ e.fType = ftDirectory)
  return e.iNo

/-- The name in the first slot of a sector, from `k` on, with the number `inodeNr`. -/
def nameOfNumber (buf : Bytes) (inodeNr : UInt32) (k : Nat) : Nat → Option (List UInt8)
  | 0 => none
  | n + 1 =>
      if (entryAt buf k).iNo = inodeNr then some (entryName buf k)
      else nameOfNumber buf inodeNr (k + 1) n

/-- The same for the sectors from block `i` on. -/
def nameInBlocks (disk : Bytes) (blocks : Nat → UInt32) (inodeNr : UInt32) (i : Nat) :
    Nat → Option (List UInt8)
  | 0 => none
  | n + 1 =>
      if blocks i = 0 then nameInBlocks disk blocks inodeNr (i + 1) n
      else
        match nameOfNumber (sectorOf disk (blocks i)) inodeNr 0 entriesPerSec with
        | some name => some name
        | none => nameInBlocks disk blocks inodeNr (i + 1) n

/-- `get_child_dir_name`: the name is appended to `path`, which has 512 bytes. -/
def getChildDirName (pInodeNr cInodeNr : UInt32) (path : Path) : FsM (Option Path) := do
  let p ← inodeOpen pInodeNr
  let s ← get
  inodeClose p
  match nameInBlocks s.disk ((s.inode p).allBlocks s.disk) cInodeNr 0 140 with
  | none => return none
  | some name =>
      require ((path ++ slash :: name).length < 512) .outOfBounds
      return some (path ++ slash :: name)

/-- The loop of `sys_getcwd` that collects the names.  Each turn appends a character at least, and
`full_path_reverse` has 512 bytes. -/
def climbLoop : Nat → UInt32 → Path → FsM (Option Path)
  | 0, _, _ => fault .diverge
  | n + 1, childInodeNr, fullPathReverse =>
      if childInodeNr = 0 then return some fullPathReverse
      else do
        let parentInodeNr ← getParentDirInodeNr childInodeNr
        match ← getChildDirName parentInodeNr childInodeNr fullPathReverse with
        | none => return none
        | some path => climbLoop n parentInodeNr path

/-- `strrchr(str, '/')`, as an index -/
def lastSlash : Path → Option Nat
  | [] => none
  | x :: xs =>
      match lastSlash xs with
      | some i => some (i + 1)
      | none => if x = slash then some 0 else none

/-- The loop of `sys_getcwd` that turns the names around, into a buffer of `size` bytes. -/
def remakeLoop (size : UInt32) : Nat → Path → Path → FsM Path
  | 0, _, _ => fault .diverge
  | n + 1, fullPathReverse, buf =>
      match lastSlash fullPathReverse with
      | none => return buf
      | some i => do
          require ((buf ++ fullPathReverse.drop i).length < size.toNat) .outOfBounds
          remakeLoop size n (fullPathReverse.take i) (buf ++ fullPathReverse.drop i)

/-- `sys_getcwd` with a buffer of `size` bytes -/
def sysGetcwd (size : UInt32) : FsM (Option Path) := do
  let ioBuf ← sysMalloc
  if ioBuf = false then return none
  else
    let s ← get
    let childInodeNr := s.cwdInodeNr s.cur
    assert (childInodeNr < 4096)
    if childInodeNr = 0 then
      require (1 < size.toNat) .outOfBounds
      return some [slash]
    else
      match ← climbLoop 513 childInodeNr [] with
      | none =>
          sysFree
          return none
      | some fullPathReverse =>
          assert (fullPathReverse.length ≤ size.toNat)
          let buf ← remakeLoop size (fullPathReverse.length + 1) fullPathReverse []
          sysFree
          return some buf

section Tree

/-- A name other than `.` and `..`, in a slot that is in use. -/
def Proper (name : List UInt8) : Prop := name ≠ [] ∧ name ≠ dot ∧ name ≠ dotdot

instance (name : List UInt8) : Decidable (Proper name) := inferInstanceAs (Decidable (_ ∧ _))

/-- The directories form a tree: the first block of each starts with `.` and `..`, which name the
directory itself and its parent, a directory other than the root has one entry in its parent, and
names have 1 to 15 characters, none of them a slash. -/
structure DirectoryTree (s : State) : Prop extends WellFormedTree s where
  firstBlock : ∀ {n}, s.IsDir n → s.part.sb.dataStartLba ≤ (s.inodeOf n).iSectors 0
  dots : ∀ {n}, s.IsDir n → (s.inodeOf n).nameIn s.disk (0, 0) = Fs.dot ∧
    (s.inodeOf n).entryIn s.disk (0, 0) = ⟨n, ftDirectory⟩
  dotdots : ∀ {n}, s.IsDir n → (s.inodeOf n).nameIn s.disk (0, 1) = Fs.dotdot ∧
    ((s.inodeOf n).entryIn s.disk (0, 1)).fType = ftDirectory
  parent : ∀ {n m x}, s.IsDir n → x ∈ (s.inodeOf n).slots s.disk →
    Proper ((s.inodeOf n).nameIn s.disk x) → ((s.inodeOf n).entryIn s.disk x).child = some m →
    m ≠ 0 → ((s.inodeOf m).entryIn s.disk (0, 1)).iNo = n
  single : ∀ {n m x}, s.IsDir n → x ∈ (s.inodeOf n).slots s.disk →
    Proper ((s.inodeOf n).nameIn s.disk x) → ((s.inodeOf n).entryIn s.disk x).child = some m →
    m ≠ 0 → ∀ y ∈ (s.inodeOf n).slots s.disk, ((s.inodeOf n).entryIn s.disk y).iNo = m → y = x
  names : ∀ {n x}, s.IsDir n → x ∈ (s.inodeOf n).slots s.disk →
    ((s.inodeOf n).nameIn s.disk x).length ≤ 15 ∧ slash ∉ (s.inodeOf n).nameIn s.disk x

/-- The names lead from the root down to directory `n`. -/
inductive Canonical (s : State) : List (List UInt8) → UInt32 → Prop where
  | root : Canonical s [] 0
  | entry {cs : List (List UInt8)} {n m : UInt32} {x : Nat × Nat} : Canonical s cs n →
      x ∈ (s.inodeOf n).slots s.disk → Proper ((s.inodeOf n).nameIn s.disk x) →
      ((s.inodeOf n).entryIn s.disk x).child = some m → m ≠ 0 →
      Canonical s (cs ++ [(s.inodeOf n).nameIn s.disk x]) m

/-- The names with a slash before each. -/
def joinPath (cs : List (List UInt8)) : Path := cs.flatMap fun c => slash :: c

/-- The path of a directory. -/
def canonicalPath (cs : List (List UInt8)) : Path := if cs = [] then [slash] else joinPath cs

variable {s : State} {cs : List (List UInt8)} {n m : UInt32}

theorem entry_iff_slot {name : List UInt8} {e : DirEntry} : s.Entry n name e ↔
    ∃ x ∈ (s.inodeOf n).slots s.disk, (s.inodeOf n).nameIn s.disk x = name ∧
      (s.inodeOf n).entryIn s.disk x = e := by
  constructor
  · rintro ⟨i, hi, hblock, k, hk, hname, he⟩
    exact ⟨(i, k), mem_slots.mpr ⟨hi, hblock, hk⟩, hname, he⟩
  · rintro ⟨⟨i, k⟩, hx, hname, he⟩
    obtain ⟨hi, hblock, hk⟩ := mem_slots.mp hx
    exact ⟨i, hi, hblock, k, hk, hname, he⟩

theorem iNo_of_child {e : DirEntry} (h : e.child = some m) : e.iNo = m := by
  rw [DirEntry.child] at h
  split at h
  · exact Option.some.inj h
  · cases h

theorem Canonical.isDir (h : Canonical s cs n) : s.IsDir n := by
  induction h with
  | root => exact .root
  | entry _ hx hproper hchild _ ih =>
      exact .entry ih hproper.1 (entry_iff_slot.mpr ⟨_, hx, rfl, rfl⟩) hchild

private theorem first_slots {ino : Inode} (h : s.part.sb.dataStartLba ≤ ino.iSectors 0) {k : Nat}
    (hk : k < 2) : (0, k) ∈ ino.slots s.disk := by
  have hblock : ino.allBlocks s.disk 0 ≠ 0 := by
    intro hzero
    have hlba := UInt32.le_iff_toNat_le.mp h
    have hdata := s.part.layout.data
    rw [allBlocks_direct _ _ (by decide)] at hzero
    rw [hzero, UInt32.toNat_zero] at hlba
    omega
  exact mem_slots.mpr ⟨Nat.zero_lt_succ _, hblock, by rw [entriesPerSec]; omega⟩

theorem DirectoryTree.dot_entry (hs : DirectoryTree s) (hn : s.IsDir n) {e : DirEntry}
    (h : s.Entry n Fs.dot e) : e = ⟨n, ftDirectory⟩ := by
  obtain ⟨hname, he⟩ := hs.dots hn
  exact hs.unique hn (by decide) h
    (entry_iff_slot.mpr ⟨_, first_slots (hs.firstBlock hn) (by decide), hname, he⟩)

theorem DirectoryTree.dotdot_entry (hs : DirectoryTree s) (hn : s.IsDir n) {e : DirEntry}
    (h : s.Entry n Fs.dotdot e) : e = (s.inodeOf n).entryIn s.disk (0, 1) :=
  hs.unique hn (by decide) h
    (entry_iff_slot.mpr ⟨_, first_slots (hs.firstBlock hn) (by decide), (hs.dotdots hn).1, rfl⟩)

theorem DirectoryTree.canonical (hs : DirectoryTree s) (hn : s.IsDir n) :
    ∃ cs, Canonical s cs n := by
  induction hn with
  | root => exact ⟨[], .root⟩
  | @entry n m name e hn hname hentry hchild ih =>
      obtain ⟨cs, hcs⟩ := ih
      have hm := iNo_of_child hchild
      by_cases hdot : name = Fs.dot
      · subst hdot
        rw [← hm, hs.dot_entry hn hentry]
        exact ⟨cs, hcs⟩
      by_cases hdotdot : name = Fs.dotdot
      · subst hdotdot
        rw [← hm, hs.dotdot_entry hn hentry]
        cases hcs with
        | root =>
            rw [← hs.dotdot_entry .root hs.dotdot]
            exact ⟨[], .root⟩
        | entry hcs' hx hproper hchild' hne =>
            rw [hs.parent hcs'.isDir hx hproper hchild' hne]
            exact ⟨_, hcs'⟩
      by_cases hzero : m = 0
      · rw [hzero]
        exact ⟨[], .root⟩
      · obtain ⟨x, hx, rfl, rfl⟩ := entry_iff_slot.mp hentry
        exact ⟨_, .entry hcs hx ⟨hname, hdot, hdotdot⟩ hchild hzero⟩

private theorem DirectoryTree.canonical_unique (hs : DirectoryTree s) (h : Canonical s cs n) :
    ∀ {cs' : List (List UInt8)}, Canonical s cs' n → cs' = cs := by
  induction h with
  | root =>
      intro cs' h'
      cases h' with
      | root => rfl
      | entry _ _ _ _ hne => exact absurd rfl hne
  | @entry cs n m x hcs hx hproper hchild hne ih =>
      intro cs' h'
      cases h' with
      | root => exact absurd rfl hne
      | @entry cs' n' _ x' hcs' hx' hproper' hchild' _ =>
          obtain rfl : n' = n := by
            rw [← hs.parent hcs'.isDir hx' hproper' hchild' hne,
              hs.parent hcs.isDir hx hproper hchild hne]
          rw [hs.single hcs.isDir hx hproper hchild hne x' hx' (iNo_of_child hchild'), ih hcs']

/-- A slot of directory `n` in a tree whose directories are those in `ds`. -/
def State.SlotIn (s : State) (ds : List UInt32) (n : UInt32) (x : Nat × Nat) : Prop :=
  let ino := s.inodeOf n
  let name := ino.nameIn s.disk x
  let e := ino.entryIn s.disk x
  name.length ≤ 15 ∧ slash ∉ name ∧
  (name = [] ∨ (e.fType = ftDirectory ∧ e.iNo ∈ ds ∨ e.fType = ftRegular) ∧ e.iNo.toNat < 4096 ∧
    ∀ y ∈ ino.slots s.disk, ino.nameIn s.disk y = name → y = x) ∧
  (name = [] ∨ name = Fs.dot ∨ name = Fs.dotdot ∨ e.fType ≠ ftDirectory ∨ e.iNo = 0 ∨
    ((s.inodeOf e.iNo).entryIn s.disk (0, 1)).iNo = n ∧
      ∀ y ∈ ino.slots s.disk, (ino.entryIn s.disk y).iNo = e.iNo → y = x)

instance (s : State) (ds : List UInt32) (n : UInt32) (x : Nat × Nat) :
    Decidable (s.SlotIn ds n x) := inferInstanceAs (Decidable (_ ∧ _))

/-- A directory of such a tree. -/
structure State.DirectoryIn (s : State) (ds : List UInt32) (n : UInt32) : Prop where
  number : n.toNat < 4096 ∧ (s.inodeOf n).iNo = n
  firstBlock : s.part.sb.dataStartLba ≤ (s.inodeOf n).iSectors 0
  dots : (s.inodeOf n).nameIn s.disk (0, 0) = Fs.dot ∧
    (s.inodeOf n).entryIn s.disk (0, 0) = ⟨n, ftDirectory⟩
  dotdots : (s.inodeOf n).nameIn s.disk (0, 1) = Fs.dotdot ∧
    ((s.inodeOf n).entryIn s.disk (0, 1)).fType = ftDirectory
  slots : ∀ x ∈ (s.inodeOf n).slots s.disk, s.SlotIn ds n x

instance (s : State) (ds : List UInt32) (n : UInt32) : Decidable (s.DirectoryIn ds n) :=
  decidable_of_iff ((n.toNat < 4096 ∧ (s.inodeOf n).iNo = n) ∧
      s.part.sb.dataStartLba ≤ (s.inodeOf n).iSectors 0 ∧
      ((s.inodeOf n).nameIn s.disk (0, 0) = Fs.dot ∧
        (s.inodeOf n).entryIn s.disk (0, 0) = ⟨n, ftDirectory⟩) ∧
      ((s.inodeOf n).nameIn s.disk (0, 1) = Fs.dotdot ∧
        ((s.inodeOf n).entryIn s.disk (0, 1)).fType = ftDirectory) ∧
      ∀ x ∈ (s.inodeOf n).slots s.disk, s.SlotIn ds n x)
    ⟨fun h => ⟨h.1, h.2.1, h.2.2.1, h.2.2.2.1, h.2.2.2.2⟩,
      fun h => ⟨h.number, h.firstBlock, h.dots, h.dotdots, h.slots⟩⟩

/-- The directories in `ds` are all there are, and each is well formed. -/
def State.TreeOn (s : State) (ds : List UInt32) : Prop :=
  s.findInode 0 = some (s.dir rootDir).inode ∧ 0 ∈ ds ∧
  ((s.inodeOf 0).entryIn s.disk (0, 1)).iNo = 0 ∧ ∀ n ∈ ds, s.DirectoryIn ds n

instance (s : State) (ds : List UInt32) : Decidable (s.TreeOn ds) :=
  inferInstanceAs (Decidable (_ ∧ _))

theorem fType_of_child {e : DirEntry} (h : e.child = some m) : e.fType = ftDirectory := by
  rw [DirEntry.child] at h
  split at h
  · rename_i htype
    exact htype
  · cases h

theorem State.TreeOn.mem {ds : List UInt32} (h : s.TreeOn ds) (hn : s.IsDir n) : n ∈ ds := by
  induction hn with
  | root => exact h.2.1
  | entry _ hname hentry hchild ih =>
      obtain ⟨x, hx, rfl, rfl⟩ := entry_iff_slot.mp hentry
      obtain ⟨-, -, hentries, -⟩ := (h.2.2.2 _ ih).slots x hx
      obtain ⟨⟨-, hin⟩ | hreg, -⟩ := hentries.resolve_left hname
      · rwa [← iNo_of_child hchild]
      · rw [fType_of_child hchild] at hreg
        exact absurd hreg (by decide)

theorem State.TreeOn.child {ds : List UInt32} (h : s.TreeOn ds) {x : Nat × Nat} (hn : s.IsDir n)
    (hx : x ∈ (s.inodeOf n).slots s.disk) (hproper : Proper ((s.inodeOf n).nameIn s.disk x))
    (hchild : ((s.inodeOf n).entryIn s.disk x).child = some m) (hne : m ≠ 0) :
    ((s.inodeOf m).entryIn s.disk (0, 1)).iNo = n ∧
      ∀ y ∈ (s.inodeOf n).slots s.disk, ((s.inodeOf n).entryIn s.disk y).iNo = m → y = x := by
  obtain ⟨-, -, -, hparent⟩ := (h.2.2.2 n (h.mem hn)).slots x hx
  have hno := iNo_of_child hchild
  rcases hparent with hnil | hdot | hdotdot | htype | hzero | hparent
  · exact absurd hnil hproper.1
  · exact absurd hdot hproper.2.1
  · exact absurd hdotdot hproper.2.2
  · exact absurd (fType_of_child hchild) htype
  · exact absurd (hno.symm.trans hzero) hne
  · rwa [hno] at hparent

theorem State.TreeOn.directoryTree {ds : List UInt32} (h : s.TreeOn ds) : DirectoryTree s := by
  have hdir := fun {n} (hn : s.IsDir n) => h.2.2.2 n (h.mem hn)
  have hroot : s.DirectoryIn ds 0 := hdir .root
  constructor
  · constructor
    · exact h.1
    · exact fun hn => (hdir hn).number
    · intro n name e e' hn hname he he'
      obtain ⟨x, hx, rfl, rfl⟩ := entry_iff_slot.mp he
      obtain ⟨y, hy, hxy, rfl⟩ := entry_iff_slot.mp he'
      obtain ⟨-, -, hentries, -⟩ := (hdir hn).slots x hx
      rw [(hentries.resolve_left hname).2.2 y hy hxy]
    · intro n name e hn hname he
      obtain ⟨x, hx, rfl, rfl⟩ := entry_iff_slot.mp he
      obtain ⟨-, -, hentries, -⟩ := (hdir hn).slots x hx
      obtain ⟨htype, hno, -⟩ := hentries.resolve_left hname
      exact ⟨htype.imp_left And.left, hno⟩
    · exact entry_iff_slot.mpr ⟨_, first_slots hroot.firstBlock (by decide), hroot.dots⟩
    · obtain ⟨hname, htype⟩ := hroot.dotdots
      have hentry : (s.inodeOf 0).entryIn s.disk (0, 1) = ⟨0, ftDirectory⟩ := by
        rw [DirEntry.mk.injEq]
        exact ⟨h.2.2.1, htype⟩
      exact entry_iff_slot.mpr ⟨_, first_slots hroot.firstBlock (by decide), hname, hentry⟩
  · exact fun hn => (hdir hn).firstBlock
  · exact fun hn => (hdir hn).dots
  · exact fun hn => (hdir hn).dotdots
  · exact fun hn hx hproper hchild hne => (h.child hn hx hproper hchild hne).1
  · exact fun hn hx hproper hchild hne => (h.child hn hx hproper hchild hne).2
  · exact fun hn hx => ⟨((hdir hn).slots _ hx).1, ((hdir hn).slots _ hx).2.1⟩

end Tree

section Climb

variable {s s₁ : State} {cs : List (List UInt8)} {n m : UInt32}

private theorem inodeOpen_tree (ht : Tidy s) (hmem : s.Served) (hr : Restored s s₁)
    (hn : n.toNat < 4096) : ∃ p s₂, inodeOpen n s₁ = .ok (p, s₂) ∧ Referenced s s₂ p ∧
      (s₂.inode p).iSectors = (s.inodeOf n).iSectors := by
  obtain ⟨p, s₂, h₂, hcases⟩ := inodeOpen_returns (hmem.framed hr.toFramed) hn
  refine ⟨p, s₂, h₂, (inodeOpen_referenced (hr.tidy ht) h₂).of_restored hr ht, ?_⟩
  rw [State.inodeOf, ← hr.findInode ht]
  rcases hcases with ⟨hfind, rfl⟩ | ⟨hfind, hload⟩
  · have hp := (ht.listed p (List.mem_of_find?_eq_some ((hr.findInode ht n).symm.trans hfind))).1
    rw [hfind]
    simp [State.countUp, hr.inode p hp]
  · rw [hfind, hload, State.load, hr.slot]
    rfl

private theorem getParentDirInodeNr_eq (ht : Tidy s) (hs : DirectoryTree s) (hmem : s.Served)
    (hr : Restored s s₁) (hn : s.IsDir n) : ∃ s₂, getParentDirInodeNr n s₁ =
      .ok (((s.inodeOf n).entryIn s.disk (0, 1)).iNo, s₂) ∧ Restored s s₂ := by
  obtain ⟨p, s₂, h₂, href, hsec⟩ := inodeOpen_tree ht hmem hr (hs.number hn).1
  obtain ⟨s₃, h₃⟩ := inodeClose_returns p s₂
  have hr₃ := inodeClose_restored ht href h₃
  have hfirst : assert (s₂.part.sb.dataStartLba ≤ (s₂.inode p).iSectors 0) s₂ = .ok ((), s₂) := by
    refine assert_ok.mpr ⟨rfl, Or.inr ?_⟩
    rw [href.part, hsec]
    exact hs.firstBlock hn
  have hread : ideRead ((s₂.inode p).iSectors 0) Bytes.zero 1 s₃ =
      .ok (sectorOf s.disk ((s.inodeOf n).allBlocks s.disk 0), s₃) := by
    rw [allBlocks_direct _ _ (by decide), ← hsec, ← hr₃.disk]
    rfl
  have hentry : entryAt (sectorOf s.disk ((s.inodeOf n).allBlocks s.disk 0)) 1 =
    (s.inodeOf n).entryIn s.disk (0, 1) := rfl
  obtain ⟨hname, htype⟩ := hs.dotdots hn
  have hno := (hs.typed hn (by decide) (entry_iff_slot.mpr
    ⟨_, first_slots (hs.firstBlock hn) (by decide), hname, rfl⟩)).2
  have hcheck : assert (((s.inodeOf n).entryIn s.disk (0, 1)).iNo < 4096 ∧
      ((s.inodeOf n).entryIn s.disk (0, 1)).fType = ftDirectory) s₃ = .ok ((), s₃) :=
    assert_ok.mpr ⟨rfl, Or.inr ⟨UInt32.lt_iff_toNat_lt.mpr hno, htype⟩⟩
  refine ⟨s₃, ?_, hr₃⟩
  rw [getParentDirInodeNr, Code.bind_of_ok h₂, Code.get_bind, Code.bind_of_ok hfirst,
    Code.bind_of_ok h₃, Code.bind_of_ok hread, hentry, Code.bind_of_ok hcheck]
  rfl

private theorem nameOfNumber_eq (buf : Bytes) (no : UInt32) (k : Nat) : ∀ i,
    nameOfNumber buf no i k =
      ((List.range' i k).find? fun j => (entryAt buf j).iNo = no).map (entryName buf) := by
  induction k with
  | zero =>
      intro i
      rfl
  | succ k ih =>
      intro i
      rw [nameOfNumber, List.range'_succ]
      split
      · rename_i hno
        rw [List.find?_cons_of_pos (by simpa using hno)]
        rfl
      · rename_i hno
        rw [List.find?_cons_of_neg (by simpa using hno), ih]

private theorem nameInBlocks_eq (ino : Inode) (disk : Bytes) (no : UInt32) (k : Nat) : ∀ i,
    nameInBlocks disk (ino.allBlocks disk) no i k =
      ((slotsFrom (ino.allBlocks disk) i k).find? fun x => (ino.entryIn disk x).iNo = no).map
        (ino.nameIn disk) := by
  induction k with
  | zero =>
      intro i
      rfl
  | succ k ih =>
      intro i
      rw [nameInBlocks, slotsFrom]
      split
      · exact ih _
      · rw [ih, nameOfNumber_eq, List.find?_append, List.find?_map]
        have hcomp : ((fun x => decide ((ino.entryIn disk x).iNo = no)) ∘ fun j => (i, j)) =
          fun j => decide ((entryAt (sectorOf disk (ino.allBlocks disk i)) j).iNo = no) := rfl
        rw [hcomp]
        cases (List.range' 0 entriesPerSec).find? fun j =>
            decide ((entryAt (sectorOf disk (ino.allBlocks disk i)) j).iNo = no) with
        | some j => rfl
        | none => rfl

private theorem nameInBlocks_child (hs : DirectoryTree s) {x : Nat × Nat} (hn : s.IsDir n)
    (hx : x ∈ (s.inodeOf n).slots s.disk) (hproper : Proper ((s.inodeOf n).nameIn s.disk x))
    (hchild : ((s.inodeOf n).entryIn s.disk x).child = some m) (hm : m ≠ 0) :
    nameInBlocks s.disk ((s.inodeOf n).allBlocks s.disk) m 0 140 =
      some ((s.inodeOf n).nameIn s.disk x) := by
  have hfind : ((s.inodeOf n).slots s.disk).find?
      (fun y => ((s.inodeOf n).entryIn s.disk y).iNo = m) = some x := by
    cases hfirst : ((s.inodeOf n).slots s.disk).find?
        fun y => ((s.inodeOf n).entryIn s.disk y).iNo = m with
    | none =>
        have hnone := List.find?_eq_none.mp hfirst x hx
        simp [iNo_of_child hchild] at hnone
    | some y =>
        have hy := List.mem_of_find?_eq_some hfirst
        have hno := List.find?_some hfirst
        rw [hs.single hn hx hproper hchild hm y hy (by simpa using hno)]
  rw [nameInBlocks_eq, ← Inode.slots, hfind]
  rfl

private theorem getChildDirName_eq (ht : Tidy s) (hs : DirectoryTree s) (hmem : s.Served)
    (hr : Restored s s₁) {x : Nat × Nat} (hn : s.IsDir n) (hx : x ∈ (s.inodeOf n).slots s.disk)
    (hproper : Proper ((s.inodeOf n).nameIn s.disk x))
    (hchild : ((s.inodeOf n).entryIn s.disk x).child = some m) (hm : m ≠ 0) {p : Path}
    (hlen : (p ++ slash :: (s.inodeOf n).nameIn s.disk x).length < 512) :
    ∃ s₂, getChildDirName n m p s₁ =
      .ok (some (p ++ slash :: (s.inodeOf n).nameIn s.disk x), s₂) ∧ Restored s s₂ := by
  obtain ⟨q, s₂, h₂, href, hsec⟩ := inodeOpen_tree ht hmem hr (hs.number hn).1
  obtain ⟨s₃, h₃⟩ := inodeClose_returns q s₂
  have hblocks : (s₂.inode q).allBlocks s.disk = (s.inodeOf n).allBlocks s.disk := by
    funext i
    rw [Inode.allBlocks, Inode.allBlocks, hsec]
  have hbuf : require ((p ++ slash :: (s.inodeOf n).nameIn s.disk x).length < 512) .outOfBounds
    s₃ = .ok ((), s₃) := require_ok.mpr ⟨rfl, hlen⟩
  refine ⟨s₃, ?_, inodeClose_restored ht href h₃⟩
  rw [getChildDirName, Code.bind_of_ok h₂, Code.get_bind, Code.bind_of_ok h₃, href.disk, hblocks,
    nameInBlocks_child hs hn hx hproper hchild hm]
  dsimp only
  rw [Code.bind_of_ok hbuf]
  rfl

private theorem joinPath_append (cs ds : List (List UInt8)) :
    joinPath (cs ++ ds) = joinPath cs ++ joinPath ds := List.flatMap_append

private theorem joinPath_cons (c : List UInt8) (cs : List (List UInt8)) :
    joinPath (c :: cs) = slash :: c ++ joinPath cs := rfl

private theorem length_joinPath (cs : List (List UInt8)) :
    (joinPath cs).length = pathLength cs := by
  induction cs with
  | nil => rfl
  | cons c cs ih =>
      rw [joinPath_cons, List.length_append, ih, List.length_cons, pathLength, pathLength,
        List.map_cons, List.sum_cons]

/-- The climb collects the names of the path, the last one first. -/
private theorem climbLoop_eq (ht : Tidy s) (hs : DirectoryTree s) (hmem : s.Served)
    (h : Canonical s cs n) : ∀ {s₁ : State} {p : Path} {k : Nat}, Restored s s₁ →
      p.length + pathLength cs < 512 → cs.length < k →
      ∃ s₂, climbLoop k n p s₁ = .ok (some (p ++ joinPath cs.reverse), s₂) ∧
        Restored s s₂ := by
  induction h with
  | root =>
      intro s₁ p k hr _ hk
      obtain ⟨k, rfl⟩ := Nat.exists_eq_succ_of_ne_zero (Nat.ne_of_gt hk)
      rw [climbLoop, if_pos rfl]
      refine ⟨s₁, ?_, hr⟩
      rw [List.reverse_nil, joinPath, List.flatMap_nil, List.append_nil]
      rfl
  | @entry cs n m x hcs hx hproper hchild hne ih =>
      intro s₁ p k hr hlen hk
      obtain ⟨k, rfl⟩ := Nat.exists_eq_succ_of_ne_zero (Nat.ne_of_gt (Nat.zero_lt_of_lt hk))
      have hdir : s.IsDir m :=
        .entry hcs.isDir hproper.1 (entry_iff_slot.mpr ⟨_, hx, rfl, rfl⟩) hchild
      obtain ⟨s₂, h₂, hr₂⟩ := getParentDirInodeNr_eq ht hs hmem hr hdir
      rw [hs.parent hcs.isDir hx hproper hchild hne] at h₂
      have hsplit : pathLength (cs ++ [(s.inodeOf n).nameIn s.disk x]) =
          pathLength cs + (((s.inodeOf n).nameIn s.disk x).length + 1) := by
        simp [pathLength]
      have hlen' : (p ++ slash :: (s.inodeOf n).nameIn s.disk x).length =
          p.length + (((s.inodeOf n).nameIn s.disk x).length + 1) := by simp
      obtain ⟨s₃, h₃, hr₃⟩ := getChildDirName_eq ht hs hmem hr₂ hcs.isDir hx hproper hchild hne
        (p := p) (by omega)
      obtain ⟨s₄, h₄, hr₄⟩ := ih (p := p ++ slash :: (s.inodeOf n).nameIn s.disk x) (k := k)
        hr₃ (by omega) (by simpa using hk)
      refine ⟨s₄, ?_, hr₄⟩
      rw [climbLoop, if_neg hne, Code.bind_of_ok h₂, Code.bind_of_ok h₃]
      dsimp only
      rw [h₄, List.reverse_append, List.reverse_singleton, joinPath_append, joinPath_cons]
      simp [joinPath]

end Climb

section Remake

variable {s s₁ : State} {cs : List (List UInt8)} {n : UInt32}

private theorem lastSlash_none {c : Path} (hc : slash ∉ c) : lastSlash c = none := by
  induction c with
  | nil => rfl
  | cons x c ih =>
      obtain ⟨hx, hc⟩ : slash ≠ x ∧ slash ∉ c := by simpa using hc
      rw [lastSlash, ih hc]
      exact if_neg hx.symm

private theorem lastSlash_append {c : Path} (hc : slash ∉ c) (xs : Path) :
    lastSlash (xs ++ slash :: c) = some xs.length := by
  induction xs with
  | nil =>
      rw [List.nil_append, lastSlash, lastSlash_none hc]
      rfl
  | cons x xs ih =>
      rw [List.cons_append, lastSlash, ih]
      rfl

/-- The second loop takes the names from the end of what the climb has collected. -/
private theorem remakeLoop_eq {size : UInt32} (s : State) (hcs : ∀ c ∈ cs, slash ∉ c) :
    ∀ {k : Nat} (buf : Path), cs.length < k → buf.length + pathLength cs < size.toNat →
      remakeLoop size k (joinPath cs.reverse) buf s = .ok (buf ++ joinPath cs, s) := by
  induction cs with
  | nil =>
      intro k buf hk _
      obtain ⟨k, rfl⟩ := Nat.exists_eq_succ_of_ne_zero (Nat.ne_of_gt hk)
      show Except.ok (buf, s) = .ok (buf ++ [], s)
      rw [List.append_nil]
  | cons c cs ih =>
      intro k buf hk hlen
      obtain ⟨k, rfl⟩ := Nat.exists_eq_succ_of_ne_zero (Nat.ne_of_gt (Nat.zero_lt_of_lt hk))
      have hrev : joinPath (c :: cs).reverse = joinPath cs.reverse ++ slash :: c := by
        rw [List.reverse_cons, joinPath_append, joinPath_cons, joinPath, joinPath,
          List.flatMap_nil, List.append_nil]
      have hsum : pathLength (c :: cs) = c.length + 1 + pathLength cs := by
        rw [pathLength, List.map_cons, List.sum_cons, pathLength]
      have hbuf : (buf ++ slash :: c).length = buf.length + (c.length + 1) := by
        rw [List.length_append, List.length_cons]
      have hroom : require ((buf ++ slash :: c).length < size.toNat) .outOfBounds s =
        .ok ((), s) := require_ok.mpr ⟨rfl, by omega⟩
      rw [hrev, remakeLoop, lastSlash_append (hcs c List.mem_cons_self)]
      dsimp only
      rw [List.drop_left, List.take_left, Code.bind_of_ok hroom,
        ih (fun c' hc' => hcs c' (List.mem_cons_of_mem _ hc')) _ (by simpa using hk) (by omega),
        joinPath_cons, List.append_assoc]

theorem Canonical.names (hs : DirectoryTree s) (h : Canonical s cs n) :
    ∀ c ∈ cs, c ≠ [] ∧ c.length ≤ 15 ∧ slash ∉ c ∧ 0 ∉ c := by
  induction h with
  | root => exact fun c hc => absurd hc List.not_mem_nil
  | @entry cs n m x hcs hx hproper _ _ ih =>
      intro c hc
      rcases List.mem_append.mp hc with hc | hc
      · exact ih c hc
      · obtain rfl := List.mem_singleton.mp hc
        obtain ⟨hlen, hslash⟩ := hs.names hcs.isDir hx
        exact ⟨hproper.1, hlen, hslash, zero_not_mem_cstr _ _⟩

private theorem Canonical.eq_nil_iff (h : Canonical s cs n) : cs = [] ↔ n = 0 := by
  cases h with
  | root => exact ⟨fun _ => rfl, fun _ => rfl⟩
  | entry _ _ _ _ hne =>
      exact ⟨fun hnil => absurd hnil (List.append_ne_nil_of_right_ne_nil _ (List.cons_ne_nil _ _)),
        fun hzero => absurd hzero hne⟩

private theorem sysGetcwd_eq (ht : Tidy s) (hs : DirectoryTree s) (hmem : s.Served)
    (hr : Restored s s₁) (h : Canonical s cs n) (hcwd : s₁.cwdInodeNr s₁.cur = n)
    (hpath : (canonicalPath cs).length < 512) {size : UInt32}
    (hsize : (canonicalPath cs).length < size.toNat) :
    ∃ s₂, sysGetcwd size s₁ = .ok (some (canonicalPath cs), s₂) ∧ Restored s s₂ := by
  have hmalloc : sysMalloc s₁ = .ok (true, s₁.setMem s₁.malloc) :=
    sysMalloc_ok.mpr ⟨((hmem.framed hr.toFramed) _).symm, rfl⟩
  have hr₁ : Restored s (s₁.setMem s₁.malloc) := trans_of Restored hr (.malloc s₁)
  have hnumber : assert (n < 4096) (s₁.setMem s₁.malloc) =
      .ok ((), s₁.setMem s₁.malloc) :=
    assert_ok.mpr ⟨rfl, Or.inr (UInt32.lt_iff_toNat_lt.mpr (hs.number h.isDir).1)⟩
  rw [sysGetcwd, Code.bind_of_ok hmalloc, if_neg (by decide), Code.get_bind]
  have hcwd' : (s₁.setMem s₁.malloc).cwdInodeNr (s₁.setMem s₁.malloc).cur = n := hcwd
  rw [hcwd', Code.bind_of_ok hnumber]
  by_cases hnil : cs = []
  · rw [canonicalPath, if_pos hnil] at hsize ⊢
    have hroom : require (1 < size.toNat) .outOfBounds (s₁.setMem s₁.malloc) =
      .ok ((), s₁.setMem s₁.malloc) := require_ok.mpr ⟨rfl, hsize⟩
    rw [if_pos (h.eq_nil_iff.mp hnil), Code.bind_of_ok hroom]
    exact ⟨_, rfl, hr₁⟩
  · rw [canonicalPath, if_neg hnil] at hpath hsize ⊢
    rw [length_joinPath] at hpath hsize
    have hdepth := length_le_pathLength cs
    obtain ⟨s₂, h₂, hr₂⟩ := climbLoop_eq ht hs hmem h (p := []) (k := 513) hr₁ (by simpa using hpath)
      (by omega)
    rw [List.nil_append] at h₂
    have hback : (joinPath cs.reverse).length = pathLength cs := by
      rw [length_joinPath, pathLength, pathLength, List.map_reverse, List.sum_reverse]
    have hfits : assert ((joinPath cs.reverse).length ≤ size.toNat) s₂ = .ok ((), s₂) :=
      assert_ok.mpr ⟨rfl, Or.inr (by omega)⟩
    have hremake := remakeLoop_eq s₂ (fun c hc => (h.names hs c hc).2.2.1)
      (k := (joinPath cs.reverse).length + 1) [] (by omega) (by simpa using hsize)
    rw [if_neg (fun hzero => hnil (h.eq_nil_iff.mpr hzero)), Code.bind_of_ok h₂]
    dsimp only
    rw [Code.bind_of_ok hfits, Code.bind_of_ok hremake]
    exact ⟨_, rfl, trans_of Restored hr₂ (.free s₂)⟩

end Remake

section Search

variable {s s' s₁ : State} {cs : List (List UInt8)} {n : UInt32}

private theorem components_joinPath (hcs : ∀ c ∈ cs, c ≠ [] ∧ slash ∉ c) :
    components (joinPath cs) = cs := by
  induction cs with
  | nil => rfl
  | cons c cs ih =>
      obtain ⟨hne, hslash⟩ := hcs c List.mem_cons_self
      have hhead : ∀ x, (joinPath cs).head? = some x → x = slash := by
        intro x hx
        cases cs with
        | nil => cases hx
        | cons c' cs => exact (Option.some.inj hx).symm
      have hrest := ih fun c' hc' => hcs c' (List.mem_cons_of_mem _ hc')
      rw [joinPath_cons, List.cons_append, components_slash, components_append hne hslash hhead]
      split
      · rename_i hnil
        rw [hnil] at hrest
        rw [← hrest]
        rfl
      · rw [← hrest]
        simp [hrest]

private theorem Canonical.properPath (hs : DirectoryTree s) (h : Canonical s cs n) (hne : cs ≠ [])
    (hlen : (joinPath cs).length < 512) : ProperPath (joinPath cs) := by
  have hnames := h.names hs
  have hcomp := components_joinPath fun c hc => ⟨(hnames c hc).1, (hnames c hc).2.2.1⟩
  obtain ⟨c, cs, rfl⟩ := List.exists_cons_of_ne_nil hne
  have hc := List.length_pos_iff.mpr (hnames c List.mem_cons_self).1
  refine ⟨rfl, ?_, hlen, ?_, ?_⟩
  · rw [length_joinPath, pathLength, List.map_cons, List.sum_cons]
    omega
  · rw [joinPath, List.mem_flatMap]
    rintro ⟨d, hd, hzero⟩
    rcases List.mem_cons.mp hzero with hzero | hzero
    · exact absurd hzero (by decide)
    · exact (hnames d hd).2.2.2 hzero
  · rw [hcomp]
    exact fun d hd => (hnames d hd).2.1

theorem Canonical.resolves (h : Canonical s cs n) (hne : cs ≠ []) :
    ∃ e, Resolves s.Entry DirEntry.child 0 cs e ∧ e.child = some n := by
  induction h with
  | root => exact absurd rfl hne
  | @entry cs n m x hcs hx hproper hchild _ ih =>
      have hentry : s.Entry n ((s.inodeOf n).nameIn s.disk x) ((s.inodeOf n).entryIn s.disk x) :=
        entry_iff_slot.mpr ⟨x, hx, rfl, rfl⟩
      by_cases hnil : cs = []
      · obtain rfl := hcs.eq_nil_iff.mp hnil
        rw [hnil]
        exact ⟨_, .last hentry, hchild⟩
      · obtain ⟨d, hd, hdchild⟩ := ih hnil
        exact ⟨_, hd.concat hdchild hentry, hchild⟩

private theorem searchFile_canonical (ht : Tidy s) (hs : DirectoryTree s) (hmem : s.Served)
    (h : Canonical s cs n) (hlen : (canonicalPath cs).length < 512) :
    ∃ r s₁, searchFile (canonicalPath cs) s = .ok (r, s₁) ∧ r.inodeNo = n := by
  by_cases hnil : cs = []
  · rw [canonicalPath, if_pos hnil, h.eq_nil_iff.mp hnil]
    exact ⟨_, s, rfl, rfl⟩
  · rw [canonicalPath, if_neg hnil] at hlen ⊢
    have hnames := h.names hs
    have hcomp := components_joinPath fun c hc => ⟨(hnames c hc).1, (hnames c hc).2.2.1⟩
    obtain ⟨e, hres, hchild⟩ := h.resolves hnil
    rw [← hcomp] at hres
    obtain ⟨path, hpath⟩ := walkFile_follow hs.toWellFormedTree (h.properPath hs hnil hlen)
      (by rw [hcomp]; exact hnil)
    rw [follow_of_resolvesTo hs.toWellFormedTree hres] at hpath
    have hfound := searchFile_computes ht hs.toWellFormedTree hmem (joinPath cs)
    rw [hpath] at hfound
    obtain ⟨d, s₁, hr, -⟩ := hfound
    exact ⟨_, s₁, hr, iNo_of_child hchild⟩

/-- The two states have one directory tree. -/
structure SameTree (s s' : State) : Prop where
  inodeOf : s'.inodeOf = s.inodeOf
  disk : s'.disk = s.disk
  part : s'.part = s.part
  root : s'.findInode 0 = s.findInode 0 ∧ s'.dir rootDir = s.dir rootDir

theorem SameTree.symm (h : SameTree s s') : SameTree s' s :=
  ⟨h.inodeOf.symm, h.disk.symm, h.part.symm, h.root.1.symm, h.root.2.symm⟩

theorem SameTree.entry (h : SameTree s s') : s'.Entry = s.Entry := by
  funext n name e
  rw [State.Entry, State.Entry, h.inodeOf, h.disk]

theorem SameTree.isDir (h : SameTree s s') (hn : s.IsDir n) : s'.IsDir n := by
  induction hn with
  | root => exact .root
  | entry _ hname hentry hchild ih => exact .entry ih hname (by rwa [h.entry]) hchild

theorem SameTree.canonical (h : SameTree s s') (hn : Canonical s cs n) : Canonical s' cs n := by
  induction hn with
  | root => exact .root
  | @entry cs n m x _ hx hproper hchild hne ih =>
      rw [← h.inodeOf, ← h.disk] at hx hproper hchild ⊢
      exact .entry ih hx hproper hchild hne

theorem SameTree.directoryTree (h : SameTree s s') (hs : DirectoryTree s) : DirectoryTree s' := by
  have hdir := fun {n} (hn : s'.IsDir n) => h.symm.isDir hn
  have hentry := h.entry
  have hinode := h.inodeOf
  have hdisk := h.disk
  have hpart := h.part
  constructor
  · exact ⟨by rw [h.root.1, h.root.2]; exact hs.rootDir,
      fun hn => by rw [hinode]; exact hs.number (hdir hn),
      fun hn => by rw [hentry]; exact hs.unique (hdir hn),
      fun hn => by rw [hentry]; exact hs.typed (hdir hn),
      by rw [hentry]; exact hs.dot, by rw [hentry]; exact hs.dotdot⟩
  · intro n hn
    rw [hinode, hpart]
    exact hs.firstBlock (hdir hn)
  · intro n hn
    rw [hinode, hdisk]
    exact hs.dots (hdir hn)
  · intro n hn
    rw [hinode, hdisk]
    exact hs.dotdots (hdir hn)
  · intro n m x hn
    rw [hinode, hdisk]
    exact hs.parent (hdir hn)
  · intro n m x hn
    rw [hinode, hdisk]
    exact hs.single (hdir hn)
  · intro n x hn
    rw [hinode, hdisk]
    exact hs.names (hdir hn)

theorem Restored.sameTree (ht : Tidy s) (h : Restored s s') :
    SameTree s s' := by
  refine ⟨?_, h.disk, h.part, h.findInode ht 0, h.dir _ ht.rootDir⟩
  funext n
  rw [State.inodeOf, State.inodeOf, h.findInode ht]
  cases hfind : s.findInode n with
  | none =>
      dsimp only
      rw [h.slot]
  | some p => exact h.inode p (ht.listed p (List.mem_of_find?_eq_some hfind)).1

/-- The working directory of the running process is `n`. -/
def State.setCwd (s : State) (n : UInt32) : State :=
  { s with cwdInodeNr := Function.update s.cwdInodeNr s.cur n }

private theorem sameTree_setCwd (s : State) (n : UInt32) : SameTree s (s.setCwd n) :=
  ⟨rfl, rfl, rfl, rfl, rfl⟩

private theorem Framed.setCwd (h : Framed s s₁) (n : UInt32) :
    Framed (s.setCwd n) (s₁.setCwd n) where
  ndebug := h.ndebug
  part := h.part
  disk := h.disk
  blockBitmap := h.blockBitmap
  inodeBitmap := h.inodeBitmap
  fileTable := h.fileTable
  cur := h.cur
  procs := h.procs
  fdTable := h.fdTable
  fdOrigin := h.fdOrigin
  cwdInodeNr := by rw [State.setCwd, State.setCwd, h.cur, h.cwdInodeNr]
  serve := h.serve
  nextInode := h.nextInode
  nextDir := h.nextDir
  dir := h.dir

private theorem Holding.setCwd {d : DirPtr} (h : Holding s s₁ d) (n : UInt32) :
    Holding (s.setCwd n) (s₁.setCwd n) d := by
  rcases h with ⟨hd, h⟩ | ⟨hnew, hlt, h⟩
  · exact Or.inl ⟨hd, h.toFramed.setCwd n, h.openInode, h.inode⟩
  · exact Or.inr ⟨hnew, hlt, h.toFramed.setCwd n, h.others, h.held, h.here⟩

private theorem sysChdir_done (ht : Tidy s) {pathname : Path}
    (h : sysChdir pathname s = .ok (true, s₁)) :
    ∃ r s', searchFile pathname s = .ok (r, s') ∧ r.fileType = ftDirectory ∧
      Restored (s.setCwd r.inodeNo) s₁ := by
  obtain ⟨r, s', hr, hrest⟩ := Code.bind_ok.mp h
  refine ⟨r, s', hr, ?_⟩
  split at hrest
  · rename_i hdir
    rw [Code.modify_bind] at hrest
    obtain ⟨_, s₂, h₂, h₃⟩ := Code.bind_ok.mp hrest
    obtain ⟨-, rfl⟩ := Code.pure_ok.mp h₃
    have ht' : Tidy (s.setCwd r.inodeNo) := ⟨ht.nodup, ht.listed, ht.rootDir⟩
    exact ⟨hdir.2, dirClose_restored ht' ((searchFile_holding ht hr).setCwd r.inodeNo) h₂⟩
  · obtain ⟨_, s₂, -, h₃⟩ := Code.bind_ok.mp hrest
    obtain ⟨hfalse, -⟩ := Code.pure_ok.mp h₃
    cases hfalse

end Search

/-- After `sys_chdir` to a directory, `sys_getcwd` returns the one path of names that leads to it,
and `search_file` finds the directory under that path. -/
theorem getcwd_canonical {s s₁ : State} {pathname : Path} (ht : Tidy s) (hs : DirectoryTree s)
    (hmem : s.Served) (h : sysChdir pathname s = .ok (true, s₁)) :
    ∃ r s', searchFile pathname s = .ok (r, s') ∧ ∃ cs, (∀ ds, Canonical s ds r.inodeNo ↔ ds = cs) ∧
      ((canonicalPath cs).length < 512 → ∀ size : UInt32, (canonicalPath cs).length < size.toNat →
        ∃ s₂, sysGetcwd size s₁ = .ok (some (canonicalPath cs), s₂) ∧
          ∃ r' s₃, searchFile (canonicalPath cs) s₂ = .ok (r', s₃) ∧ r'.inodeNo = r.inodeNo) := by
  obtain ⟨r, s', hr, hdir, hrest⟩ := sysChdir_done ht h
  have hisDir := searchFile_isDir ht hs.toWellFormedTree hmem hr hdir
  obtain ⟨cs, hcs⟩ := hs.canonical hisDir
  refine ⟨r, s', hr, cs, fun ds => ⟨hs.canonical_unique hcs, fun hds => by rwa [hds]⟩, ?_⟩
  intro hlen size hsize
  have ht' : Tidy (s.setCwd r.inodeNo) := ⟨ht.nodup, ht.listed, ht.rootDir⟩
  have hmem' : (s.setCwd r.inodeNo).Served := hmem
  have hsame := sameTree_setCwd s r.inodeNo
  have hs' := hsame.directoryTree hs
  have hcs' := hsame.canonical hcs
  have hcwd : s₁.cwdInodeNr s₁.cur = r.inodeNo := by
    rw [hrest.cwdInodeNr, hrest.cur]
    exact Function.update_self _ _ _
  obtain ⟨s₂, h₂, hr₂⟩ := sysGetcwd_eq ht' hs' hmem' hrest hcs' hcwd hlen hsize
  have hsame₂ := hr₂.sameTree ht'
  exact ⟨s₂, h₂, searchFile_canonical (hr₂.tidy ht') (hsame₂.directoryTree hs')
    (hmem'.framed hr₂.toFramed) (hsame₂.canonical hcs') hlen⟩

/-- A root with the one directory `d`, which is inode 1. -/
def nestedDisk : Bytes :=
  ((((Bytes.zero.blit (512 * 613) 24 (entryImage dot 0 ftDirectory)).blit (512 * 613 + 24) 24
    (entryImage dotdot 0 ftDirectory)).blit (512 * 613 + 48) 24
    (entryImage (path "d") 1 ftDirectory)).blit (512 * 614) 24
    (entryImage dot 1 ftDirectory)).blit (512 * 614 + 24) 24 (entryImage dotdot 0 ftDirectory)

/-- Both directories are open. -/
def nestedState : State :=
  { State.fresh smallPartition nestedDisk with
    inode := fun p => if p = 1 then ⟨1, 48, 1, false, Function.update (fun _ => 0) 0 614⟩
      else ⟨0, 72, 1, false, Function.update (fun _ => 0) 0 613⟩
    openInode := [0, 1]
    nextInode := 2 }

theorem nested_treeOn : nestedState.TreeOn [0, 1] := by
  refine ⟨by decide +kernel, by decide, by decide +kernel, ?_⟩
  have hroot : nestedState.DirectoryIn [0, 1] 0 := ⟨by decide +kernel, by decide +kernel,
    by decide +kernel, by decide +kernel, by decide +kernel⟩
  have hsub : nestedState.DirectoryIn [0, 1] 1 := ⟨by decide +kernel, by decide +kernel,
    by decide +kernel, by decide +kernel, by decide +kernel⟩
  simpa using ⟨hroot, hsub⟩

/-- In the directory `/d` the answer is `/d`. -/
theorem getcwd_canonical_nested : ∃ s₁, sysChdir (path "/d") nestedState = .ok (true, s₁) ∧
    ∃ s₂, sysGetcwd 64 s₁ = .ok (some (path "/d"), s₂) ∧
      ∃ r s₃, searchFile (path "/d") s₂ = .ok (r, s₃) ∧ r.inodeNo = 1 := by
  have hs := nested_treeOn.directoryTree
  have hplay : ∃ out ∈ (searchFile (path "/d") nestedState).toOption, out.1.inodeNo = 1 := by
    decide +kernel
  obtain ⟨⟨r₀, s₀⟩, hout, hno⟩ := hplay
  have hsearch := Code.ok_of_toOption hout
  obtain ⟨s₁, h₁⟩ : ∃ s₁, sysChdir (path "/d") nestedState = .ok (true, s₁) :=
    Code.returns_of_toOption (by decide +kernel)
  have htidy : Tidy nestedState := by decide +kernel
  obtain ⟨r, s', hr, cs, hcs, hget⟩ := getcwd_canonical htidy hs (fun _ => rfl) h₁
  rw [hsearch] at hr
  cases hr
  have hslot : Canonical nestedState [path "d"] 1 := by
    have hname : (nestedState.inodeOf 0).nameIn nestedState.disk (0, 2) = path "d" := by
      decide +kernel
    rw [← hname]
    exact .entry .root (by decide +kernel) (by rw [hname]; exact ⟨by decide, by decide,
      by decide⟩) (by decide +kernel) (by decide)
  have hd : [path "d"] = cs := (hcs _).mp (by rw [hno]; exact hslot)
  subst hd
  obtain ⟨s₂, h₂, r', s₃, h₃, hr'⟩ := hget (by decide) 64 (by decide)
  exact ⟨s₁, h₁, s₂, h₂, r', s₃, h₃, hr'.trans hno⟩

end Aitos.Fs
