import Aitos.Fs.Frame

/-!
# Descriptors and the slots of `file_table`

A process reaches an open file through a descriptor, which indexes a slot of `file_table`, which
refers to an inode.  `Taken` says what `sys_open` does to the three; the invariants over runs of
`sys_open`, `sys_close` and `sys_fork` follow from it.
-/

namespace Aitos.Fs

open Framework

/-- The descriptors of all processes: the tables, and the inode each was opened on. -/
def State.fds (s : State) : (Pid → Nat → Option Nat) × (Pid → Nat → Option Ptr) :=
  (s.fdTable, s.fdOrigin)

/-- Slot `i`, free before, holds `f` now. -/
structure Filled (s s' : State) (i : Nat) (f : File) : Prop extends Steady s s' where
  range : 3 ≤ i ∧ i < maxFileOpen
  free : (s.fileTable i).fdInode = none
  fileTable : s'.fileTable = Function.update s.fileTable i f
  ptr : ∀ p, f.fdInode = some p → p < s'.nextInode ∨ p ∈ s.openInode

/-- The slot is filled, and the running process may have a new descriptor that indexes it. -/
structure Taken (s s' : State) (i : Nat) (f : File) : Prop extends Filled s s' i f where
  fds : s'.fds = s.fds ∨ ∃ fd p, 3 ≤ fd ∧ fd < maxFilesOpenPerProc ∧ f.fdInode = some p ∧
    s'.fds = (s.setFd s.cur fd (some i) (some p)).fds

section Effects

variable {s s' s₁ : State} {i : Nat} {f : File}

theorem Quiet.fds (h : Quiet s s') : s'.fds = s.fds := Prod.ext h.fdTable h.fdOrigin

theorem Filled.of_quiet (h : Quiet s s₁) (h' : Filled s₁ s' i f) : Filled s s' i f where
  toSteady := h.toSteady.trans h'.toSteady
  range := h'.range
  free := h.fileTable ▸ h'.free
  fileTable := h.fileTable ▸ h'.fileTable
  ptr p hp := by
    rcases h'.ptr p hp with hlt | hmem
    · exact .inl hlt
    · exact (h.openInode p hmem).symm.imp_left fun hp => hp.2.trans_le h'.nextInode

theorem Filled.quiet (h : Filled s s₁ i f) (h' : Quiet s₁ s') : Filled s s' i f where
  toSteady := h.toSteady.trans h'.toSteady
  range := h.range
  free := h.free
  fileTable := h'.fileTable.trans h.fileTable
  ptr p hp := (h.ptr p hp).imp_left fun hlt => hlt.trans_le h'.nextInode

theorem Filled.clear (h : Filled s s' i f) :
    Filled s (s'.setFile i ⟨0, 0, none⟩) i ⟨0, 0, none⟩ where
  toSteady := h.toSteady.trans (Steady.setFile s' i _)
  range := h.range
  free := h.free
  fileTable := by simp [h.fileTable]
  ptr p hp := by cases hp

theorem Taken.of_quiet (h : Quiet s s₁) (h' : Taken s₁ s' i f) : Taken s s' i f where
  toFilled := h'.toFilled.of_quiet h
  fds := by
    rcases h'.fds with hfds | ⟨fd, p, h₃, h₈, hf, hfds⟩
    · exact .inl (hfds.trans h.fds)
    · refine .inr ⟨fd, p, h₃, h₈, hf, hfds.trans ?_⟩
      simp [State.fds, h.fdTable, h.fdOrigin, h.cur]

theorem Taken.quiet (h : Taken s s₁ i f) (h' : Quiet s₁ s') : Taken s s' i f where
  toFilled := h.toFilled.quiet h'
  fds := by
    rw [h'.fds]
    exact h.fds

private theorem freeSlot_range (n : Nat) : ∀ i {j : Nat}, s.freeSlot i n = some j →
    i ≤ j ∧ j < i + n ∧ (s.fileTable j).fdInode = none := by
  induction n with
  | zero =>
      intro i j h
      cases h
  | succ n ih =>
      intro i j h
      rw [State.freeSlot] at h
      split at h
      · cases h
        exact ⟨le_rfl, by omega, by assumption⟩
      · obtain ⟨h₁, h₂, h₃⟩ := ih (i + 1) h
        exact ⟨by omega, by omega, h₃⟩

private theorem freeFd_range {fds : Nat → Option Nat} (n : Nat) :
    ∀ i {j : Nat}, freeFd fds i n = some j → i ≤ j ∧ j < i + n := by
  induction n with
  | zero =>
      intro i j h
      cases h
  | succ n ih =>
      intro i j h
      rw [freeFd] at h
      split at h
      · cases h
        omega
      · have := ih (i + 1) h
        omega

private theorem Filled.install {p : Ptr} {r : Option Nat} (h : Filled s s₁ i f)
    (hfds : s₁.fds = s.fds)
    (hf : f.fdInode = some p) (h' : pcbFdInstall i s₁ = .ok (r, s')) : Taken s s' i f := by
  rw [pcbFdInstall, Code.get_bind] at h'
  cases hfd : freeFd (s₁.fdTable s₁.cur) 3 (maxFilesOpenPerProc - 3) with
  | none =>
      rw [hfd] at h'
      obtain ⟨rfl, rfl⟩ := Code.pure_ok.mp h'
      exact ⟨h, .inl hfds⟩
  | some fd =>
      obtain ⟨h₃, h₈⟩ := freeFd_range _ _ hfd
      simp only [hfd, Code.modify_bind, Code.pure_ok] at h'
      obtain ⟨rfl, rfl⟩ := h'
      refine ⟨⟨h.toSteady.trans (Steady.of_eq s₁ rfl rfl rfl rfl rfl), h.range, h.free,
        h.fileTable, h.ptr⟩, .inr ⟨fd, p, h₃, h₈, hf, ?_⟩⟩
      obtain ⟨htable, horigin⟩ := Prod.mk.inj hfds
      simp [State.fds, htable, horigin, h.cur, h.fileTable, hf]

/-- What `sys_open` leaves in the slot it takes: nothing, or the inode `p` with the flags of the
call. -/
def SlotFile (flag : UInt32) (p : Ptr) (f : File) : Prop := f.fdInode = none ∨ f = ⟨0, flag, some p⟩

theorem Filled.list {p : Ptr} (h : Filled s s' i f) (hp : s.nextInode ≤ p)
    (hp' : p < s'.nextInode) : Filled s ((s'.listInode p).setInode p (s'.inode p).opened) i f where
  toSteady := by
    refine ⟨h.cur, h.procs, h.nextInode, fun q hq => ?_, fun q hq => ?_⟩
    · have hne : q ≠ p := Nat.ne_of_lt (hq.trans_le hp)
      simp [hne, h.iNo q hq]
    · rcases List.mem_cons.mp hq with rfl | hq
      · exact .inr ⟨hp, hp'⟩
      · exact h.openInode q hq
  range := h.range
  free := h.free
  fileTable := h.fileTable
  ptr := h.ptr

private theorem createIn_effect {d : DirPtr} {name : List UInt8} {no flag : UInt32} {p : Ptr}
    {ino : Block} {r : Option Nat} (h : Filled s s₁ i ⟨0, flag, some p⟩) (hfds : s₁.fds = s.fds)
    (hp : s.nextInode ≤ p) (hp' : p < s₁.nextInode)
    (h' : createIn d name no p ino i s₁ = .ok (r, s')) : ∃ f, SlotFile flag p f ∧ Taken s s' i f := by
  rw [createIn] at h'
  simp only [Code.bind_ok] at h'
  obtain ⟨de, s₂, h₂, synced, s₃, h₃, h'⟩ := h'
  have hq : Quiet s₁ s₃ :=
    trans_of Quiet (quiet_createDirEntry _ _ _ _ _ _ h₂) (quiet_syncDirEntry _ _ _ _ _ h₃)
  cases synced with
  | true =>
      simp only [↓reduceIte, Code.bind_ok, Code.get_bind, Code.modify_bind] at h'
      obtain ⟨_, s₄, h₄, _, s₅, h₅, _, s₆, h₆, _, s₇, h₇, h'⟩ := h'
      have hq₆ : Quiet s₁ s₆ :=
        trans_of Quiet hq (trans_of Quiet (quiet_inodeSync _ _ _ _ h₄)
          (trans_of Quiet (quiet_inodeSync _ _ _ _ h₅) (quiet_bitmapSync _ _ _ _ _ h₆)))
      have hlist := (h.quiet hq₆).list hp (hp'.trans_le hq₆.nextInode)
      have hq₇ := quiet_sysFree _ _ _ h₇
      have hfds₇ : s₇.fds = s.fds := hq₇.fds.trans (hq₆.fds.trans hfds)
      exact ⟨_, .inr rfl, (hlist.quiet hq₇).install hfds₇ rfl h'⟩
  | false =>
      simp only [Bool.false_eq_true, ↓reduceIte, Code.bind_ok, Code.modify_bind] at h'
      obtain ⟨_, s₄, h₄, _, s₅, h₅, _, s₆, h₆, h'⟩ := h'
      obtain ⟨rfl, rfl⟩ := Code.pure_ok.mp h'
      have hq₆ : Quiet (s₃.setFile i ⟨0, 0, none⟩) s' :=
        trans_of Quiet (quiet_sysFreeBlock _ _ _ _ h₄)
          (trans_of Quiet (quiet_inodeBitmapSet _ _ _ _ _ h₅) (quiet_sysFree _ _ _ h₆))
      refine ⟨_, .inl rfl, (h.quiet hq).clear.quiet hq₆, .inl ?_⟩
      exact hq₆.fds.trans (hq.fds.trans hfds)

theorem getFreeSlot_ok {r : Option Nat} (h : getFreeSlotInGlobal s = .ok (r, s')) :
    s' = s ∧ ∀ i, r = some i → (3 ≤ i ∧ i < maxFileOpen) ∧ (s.fileTable i).fdInode = none := by
  obtain ⟨rfl, rfl⟩ := Code.pure_ok.mp h
  refine ⟨rfl, fun i hi => ?_⟩
  obtain ⟨h₁, h₂, h₃⟩ := freeSlot_range _ _ hi
  exact ⟨⟨h₁, h₂⟩, h₃⟩

/-- `file_create` does nothing to the tables, or takes a slot for a new inode. -/
def Creates (flag : UInt32) (s s' : State) : Prop :=
  Quiet s s' ∨ ∃ i p f, s.nextInode ≤ p ∧ SlotFile flag p f ∧ Taken s s' i f

theorem Creates.of_quiet {flag : UInt32} (h : Quiet s s₁) (h' : Creates flag s₁ s') :
    Creates flag s s' := by
  rcases h' with h' | ⟨i, p, f, hp, hf, h'⟩
  · exact .inl (trans_of Quiet h h')
  · exact .inr ⟨i, p, f, h.nextInode.trans hp, hf, h'.of_quiet h⟩

private theorem createFile_effect (d : DirPtr) (name : List UInt8) (flag no : UInt32)
    (ino : Block) : Keeps (Creates flag) (createFile d name flag no ino) := by
  intro s r s' h
  simp only [createFile, Code.get_bind, Code.modify_bind] at h
  have hnew := Quiet.newInode s (inodeInit no)
  obtain ⟨slot, s₁, h₁, h⟩ := Code.bind_ok.mp h
  obtain ⟨rfl, hslot⟩ := getFreeSlot_ok h₁
  cases slot with
  | none =>
      refine .inl (trans_of Quiet hnew (Keeps.bind (quiet_sysFreeBlock _) (fun _ => ?_) _ _ _ h))
      exact (quiet_inodeBitmapSet _ _).bind fun _ => quiet_sysFree.bind fun _ => Keeps.pure
  | some i =>
      obtain ⟨hrange, hfree⟩ := hslot i rfl
      simp only [Code.modify_bind] at h
      have hfilled : Filled s
          ((s.newInode (inodeInit no)).setFile i ⟨0, flag, some s.nextInode⟩) i
          ⟨0, flag, some s.nextInode⟩ := by
        refine ⟨hnew.toSteady.trans (Steady.setFile _ _ _), hrange, hfree, rfl, ?_⟩
        rintro p hp
        cases hp
        exact .inl (Nat.lt_succ_self _)
      obtain ⟨f, hf, htaken⟩ := createIn_effect hfilled rfl le_rfl (Nat.lt_succ_self _) h
      exact .inr ⟨i, _, f, le_rfl, hf, htaken⟩

private theorem fileCreate_effect (d : DirPtr) (name : List UInt8) (flag : UInt32) :
    Keeps (Creates flag) (fileCreate d name flag) := by
  refine Keeps.get.before (fun s => ?_) Creates.of_quiet
  refine quiet_sysMalloc.before (fun ioBuf => ?_) Creates.of_quiet
  split
  · exact Keeps.pure.weaken Or.inl
  refine quiet_inodeBitmapAlloc.before (fun found => ?_) Creates.of_quiet
  cases found with
  | none => exact Keeps.pure.weaken Or.inl
  | some no =>
      refine Keeps.get.before (fun s => ?_) Creates.of_quiet
      refine (quiet_setPgdir 0).before (fun _ => ?_) Creates.of_quiet
      refine Keeps.get.before (fun s => ?_) Creates.of_quiet
      refine quiet_sysMalloc.before (fun newFileInode => ?_) Creates.of_quiet
      split
      · refine Keeps.weaken ?_ Or.inl
        exact (quiet_inodeBitmapSet _ _).bind fun _ => (quiet_sysFreeBlock _).bind fun _ =>
          Keeps.pure
      exact (quiet_setPgdir _).before (fun _ => createFile_effect _ _ _ _ _) Creates.of_quiet

private theorem inodeOpen_ptr {no : UInt32} {p : Ptr} (h : inodeOpen no s = .ok (p, s')) :
    s.nextInode ≤ p ∧ p < s'.nextInode ∨ p ∈ s.openInode ∧ (s.inode p).iNo = no := by
  rw [inodeOpen, Code.get_bind] at h
  cases hfind : s.findInode no with
  | some q =>
      simp only [hfind, Code.modify_bind, Code.pure_ok] at h
      obtain ⟨rfl, rfl⟩ := h
      have hno := List.find?_some hfind
      exact .inr ⟨List.mem_of_find?_eq_some hfind, by simpa using hno⟩
  | none =>
      simp only [hfind, Code.bind_ok, Code.get_bind, Code.modify_bind] at h
      obtain ⟨_, s₁, h₁, _, s₂, h₂, _, s₃, h₃, _, s₄, h₄, _, s₅, h₅, _, s₆, h₆, _, s₇, h₇, h⟩ := h
      obtain ⟨rfl, rfl⟩ := Code.pure_ok.mp h
      have hq : Quiet s s₆ :=
        trans_of Quiet (quiet_inodeLocate _ _ _ _ h₁)
          (trans_of Quiet (stable_quiet.inKernelHeap quiet_sysMalloc _ _ _ h₂)
          (trans_of Quiet (quiet_sysMalloc _ _ _ h₃) (trans_of Quiet (quiet_require _ _ _ _ _ h₄)
            (trans_of Quiet (quiet_ideRead _ _ _ _ _ _ h₅) (quiet_require _ _ _ _ _ h₆)))))
      refine .inl ⟨hq.nextInode, ?_⟩
      exact (Nat.lt_succ_self _).trans_le (quiet_sysFree _ _ _ h₇).nextInode

/-- `file_open` of inode `no` does nothing to the tables, or takes a slot for an inode that is new
or in `open_inode` under that number. -/
def Reopens (no flag : UInt32) (s s' : State) : Prop :=
  Quiet s s' ∨ ∃ i p, (s.nextInode ≤ p ∨ p ∈ s.openInode ∧ (s.inode p).iNo = no) ∧
    Taken s s' i ⟨0, flag, some p⟩

private theorem fileOpen_effect (no flag : UInt32) :
    Keeps (Reopens no flag) (fileOpen no flag) := by
  intro s r s' h
  obtain ⟨slot, s₁, h₁, h⟩ := Code.bind_ok.mp h
  obtain ⟨rfl, hslot⟩ := getFreeSlot_ok h₁
  cases slot with
  | none =>
      obtain ⟨rfl, rfl⟩ := Code.pure_ok.mp h
      exact .inl (refl_of Quiet _)
  | some i =>
      obtain ⟨hrange, hfree⟩ := hslot i rfl
      obtain ⟨p, s₂, h₂, h⟩ := Code.bind_ok.mp h
      have hq := quiet_inodeOpen _ _ _ _ h₂
      have hptr := inodeOpen_ptr h₂
      have hfilled : Filled s₁ (s₂.setFile i ⟨0, flag, some p⟩) i ⟨0, flag, some p⟩ := by
        refine ⟨hq.toSteady.trans (Steady.setFile _ _ _), hrange, hfree, ?_, ?_⟩
        · rw [State.setFile_fileTable, hq.fileTable]
        · rintro q hq
          cases hq
          exact hptr.imp And.right And.left
      refine .inr ⟨i, p, hptr.imp_left And.left, ?_⟩
      simp only [Code.get_bind, Code.modify_bind] at h
      have hfds : (s₂.setFile i ⟨0, flag, some p⟩).fds = s₁.fds := hq.fds
      split at h
      · split at h
        · obtain ⟨rfl, rfl⟩ := Code.pure_ok.mp h
          exact ⟨hfilled, .inl hfds⟩
        · simp only [Code.modify_bind] at h
          have hdeny : Quiet _ ((s₂.setFile i ⟨0, flag, some p⟩).setDeny p true) :=
            Quiet.setInode _ rfl
          exact (hfilled.quiet hdeny).install (hdeny.fds.trans hfds) rfl h
      · exact hfilled.install hfds rfl h

/-- The path names a file, and an open without `O_CREAT` goes on to open it. -/
def Names (pathname : Path) (s s₁ : State) (no : UInt32) : Prop :=
  ∃ r d, searchFile pathname s = .ok (r, s₁) ∧ r.fileType ≠ ftDirectory ∧ r.inodeNo = no ∧
    no ≠ minusOne ∧ pathDepthCnt pathname s = .ok (d, s) ∧
    pathDepthCnt r.searchedPath s₁ = .ok (d, s₁)

/-- What `sys_open` does to the tables. -/
def Opens (pathname : Path) (flags : UInt32) (s s' : State) : Prop :=
  Creates flags s s' ∨
    ∃ s₁ no, flags &&& oCreat = 0 ∧ Names pathname s s₁ no ∧ Reopens no flags s₁ s'

theorem Creates.quiet {flag : UInt32} (h : Creates flag s s₁) (h' : Quiet s₁ s') :
    Creates flag s s' := by
  rcases h with h | ⟨i, p, f, hp, hf, h⟩
  · exact .inl (trans_of Quiet h h')
  · exact .inr ⟨i, p, f, hp, hf, h.quiet h'⟩

private theorem quiet_refuse {α : Type} (d : DirPtr) (a : α) :
    Keeps Quiet (do dirClose d; return a : FsM α) := (quiet_dirClose d).bind fun _ => Keeps.pure

theorem sysOpen_effect (pathname : Path) (flags : UInt32) :
    Keeps (Opens pathname flags) (sysOpen pathname flags) := by
  intro s₀ fd s' h
  rw [sysOpen] at h
  simp only [Code.bind_ok, require_ok] at h
  obtain ⟨_, s, ⟨rfl, -⟩, h⟩ := h
  split at h
  · obtain ⟨rfl, rfl⟩ := Code.pure_ok.mp h
    exact .inl (.inl (refl_of Quiet _))
  simp only [Code.bind_ok, assert_ok] at h
  obtain ⟨_, s, ⟨rfl, -⟩, d, s₁, hd, r, s₂, hr, h⟩ := h
  obtain rfl := pathDepthCnt_same _ _ _ _ hd
  have hq := quiet_searchFile _ _ _ _ hr
  -- the refusals close the directory and change nothing else
  have hrefuse : Quiet s₂ s' → Opens pathname flags s s' :=
    fun hs => .inl (.inl (trans_of Quiet hq hs))
  rw [openSearched] at h
  split at h
  · exact hrefuse (quiet_refuse _ _ _ _ _ h)
  simp only [Code.bind_ok] at h
  obtain ⟨d', s₃, hd', h⟩ := h
  obtain rfl := pathDepthCnt_same _ _ _ _ hd'
  split at h
  · exact hrefuse (quiet_refuse _ _ _ _ _ h)
  split at h
  · exact hrefuse (quiet_refuse _ _ _ _ _ h)
  split at h
  · exact hrefuse (quiet_refuse _ _ _ _ _ h)
  split at h
  · simp only [Code.bind_ok] at h
    obtain ⟨_, s₃, hcreate, _, s₄, hclosed, h⟩ := h
    obtain ⟨rfl, rfl⟩ := Code.pure_ok.mp h
    have hcreates := (fileCreate_effect _ _ _ _ _ _ hcreate).of_quiet hq
    exact .inl (hcreates.quiet (quiet_dirClose _ _ _ _ hclosed))
  · rename_i hdir hdepth habsent _ hcreat
    obtain rfl : d' = d := by simpa using hdepth
    have hcreat : flags &&& oCreat = 0 := by simpa using hcreat
    refine .inr ⟨s₂, r.inodeNo, hcreat, ⟨r, _, hr, hdir, rfl, ?_, hd, hd'⟩, ?_⟩
    · intro hno
      exact habsent ⟨hno, hcreat⟩
    · exact fileOpen_effect _ _ _ _ _ h

theorem fdLocal2global_ok {fd : Nat} (h : fdLocal2global fd s = .ok (i, s')) :
    s' = s ∧ fd < maxFilesOpenPerProc ∧ s.fdTable s.cur fd = some i := by
  rw [fdLocal2global] at h
  obtain ⟨_, s₁, hreq, h'⟩ := Code.bind_ok.mp h
  obtain ⟨rfl, hfd⟩ := require_ok.mp hreq
  rw [Code.get_bind] at h'
  cases htable : s₁.fdTable s₁.cur fd with
  | none =>
      rw [htable] at h'
      exact (fault_ok.mp h').elim
  | some j =>
      simp only [htable, Code.bind_ok, assert_ok, Code.pure_ok] at h'
      obtain ⟨_, _, ⟨rfl, -⟩, rfl, rfl⟩ := h'
      exact ⟨rfl, hfd, rfl⟩

private theorem fileClose_effect {u : Unit} (h : fileClose i s = .ok (u, s')) :
    ∃ p s₁, (s.fileTable i).fdInode = some p ∧ Quiet s s₁ ∧
      s' = s₁.setFile i { s₁.fileTable i with fdInode := none } := by
  rw [fileClose, Code.get_bind] at h
  cases hslot : (s.fileTable i).fdInode with
  | none =>
      rw [hslot] at h
      exact (fault_ok.mp h).elim
  | some p =>
      simp only [hslot, Code.modify_bind, Code.bind_ok, Code.modify_ok] at h
      obtain ⟨_, s₁, h₁, rfl⟩ := h
      have hdeny : Quiet s (s.setDeny p false) := Quiet.setInode s rfl
      exact ⟨p, s₁, rfl, trans_of Quiet hdeny (quiet_inodeClose _ _ _ _ h₁), rfl⟩

/-- `sys_close` of the descriptor `fd` takes it and its slot away. -/
structure Closed (fd i : Nat) (s s' : State) : Prop extends Steady s s' where
  range : 3 ≤ fd ∧ fd < maxFilesOpenPerProc
  index : s.fdTable s.cur fd = some i
  fileTable : s'.fileTable = Function.update s.fileTable i { s.fileTable i with fdInode := none }
  fds : s'.fds = (s.setFd s.cur fd none none).fds

theorem sysClose_effect {fd : Int} {ok : Bool} (h : sysClose fd s = .ok (ok, s')) :
    s' = s ∨ ∃ i, Closed fd.toNat i s s' := by
  rw [sysClose] at h
  split at h
  · rename_i hfd
    simp only [Code.bind_ok, Code.modify_bind, Code.pure_ok] at h
    obtain ⟨i, s₁, hlocal, _, s₂, hclose, -, rfl⟩ := h
    obtain ⟨rfl, hrange, htable⟩ := fdLocal2global_ok hlocal
    obtain ⟨p, s₃, -, hq, rfl⟩ := fileClose_effect hclose
    refine .inr ⟨i, ⟨?_, ⟨by omega, hrange⟩, htable, ?_, ?_⟩⟩
    · exact hq.toSteady.trans (Steady.of_eq s₃ rfl rfl rfl rfl rfl)
    · simp [hq.fileTable]
    · simp [State.fds, hq.fdTable, hq.fdOrigin, hq.cur]
  · exact .inl (Code.pure_ok.mp h).2

private theorem updateInodeOpenCnts_effect (fds : Nat → Option Nat) (n : Nat) : ∀ fd,
    Keeps Quiet (updateInodeOpenCnts fds fd n) := by
  induction n with
  | zero =>
      intro fd
      exact Keeps.pure
  | succ n ih =>
      intro fd
      rw [updateInodeOpenCnts]
      split
      · exact ih (fd + 1)
      · refine (quiet_assert _).bind fun _ => Keeps.get.bind fun s => ?_
        split
        · exact quiet_fault _
        · exact (Keeps.modify fun s => Quiet.countUp s _).bind fun _ => ih (fd + 1)

theorem sysFork_effect {child : Pid} {u : Unit} (h : sysFork child s = .ok (u, s')) :
    Quiet (s.forked child) s' := by
  rw [sysFork, Code.modify_bind, Code.get_bind] at h
  exact updateInodeOpenCnts_effect _ _ _ _ _ _ h

end Effects

section Pointers

variable {s s' : State}

/-- The pointers in `file_table` and `open_inode` were given out. -/
structure GivenOut (s : State) : Prop where
  slots : ∀ i p, (s.fileTable i).fdInode = some p → p < s.nextInode
  listed : ∀ p ∈ s.openInode, p < s.nextInode

private theorem GivenOut.steady (hs : GivenOut s) (h : Steady s s')
    (hslots : ∀ i p, (s'.fileTable i).fdInode = some p →
      (s.fileTable i).fdInode = some p ∨ p < s'.nextInode) : GivenOut s' where
  slots i p hp := by
    rcases hslots i p hp with hp | hp
    · exact (hs.slots i p hp).trans_le h.nextInode
    · exact hp
  listed p hp := by
    rcases h.openInode p hp with hp | hp
    · exact (hs.listed p hp).trans_le h.nextInode
    · exact hp.2

theorem GivenOut.quiet (hs : GivenOut s) (h : Quiet s s') : GivenOut s' := by
  apply hs.steady h.toSteady
  intro i p hp
  rw [h.fileTable] at hp
  exact Or.inl hp

theorem GivenOut.filled {i : Nat} {f : File} (hs : GivenOut s) (h : Filled s s' i f) :
    GivenOut s' := by
  apply hs.steady h.toSteady
  intro j p hp
  rw [h.fileTable] at hp
  by_cases hji : j = i
  · subst j
    rw [Function.update_self] at hp
    rcases h.ptr p hp with hlt | hmem
    · exact Or.inr hlt
    · exact Or.inr ((hs.listed p hmem).trans_le h.nextInode)
  · rw [Function.update_of_ne hji] at hp
    exact Or.inl hp

theorem GivenOut.opens {pathname : Path} {flags : UInt32} (hs : GivenOut s)
    (h : Opens pathname flags s s') : GivenOut s' := by
  rcases h with (h | ⟨i, p, f, -, -, h⟩) | ⟨s₁, no, -, ⟨r, d, hr, -⟩, h⟩
  · exact hs.quiet h
  · exact hs.filled h.toFilled
  · have hs₁ := hs.quiet (quiet_searchFile _ _ _ _ hr)
    rcases h with h | ⟨i, p, -, h⟩
    · exact hs₁.quiet h
    · exact hs₁.filled h.toFilled

theorem Closed.slot {fd i j : Nat} {p : Ptr} (h : Closed fd i s s')
    (hp : (s'.fileTable j).fdInode = some p) : s'.fileTable j = s.fileTable j := by
  rw [h.fileTable] at hp ⊢
  by_cases hji : j = i
  · subst j
    rw [Function.update_self] at hp
    cases hp
  · rw [Function.update_of_ne hji]

theorem GivenOut.closed {fd i : Nat} (hs : GivenOut s) (h : Closed fd i s s') : GivenOut s' := by
  apply hs.steady h.toSteady
  intro j p hp
  rw [h.slot hp] at hp
  exact Or.inl hp

private theorem quiet_openRootDir : Keeps Quiet openRootDir :=
  (quiet_inodeOpen 0).bind fun _ => Keeps.modify fun s =>
    ⟨Steady.of_eq s rfl rfl rfl rfl rfl, rfl, rfl, rfl⟩

theorem AnyMounted.quiet (h : AnyMounted s) :
    ∃ part disk s₀ procs, Quiet (mountPartition part disk) s₀ ∧ s = { s₀ with procs := procs } := by
  obtain ⟨part, disk, s₀, procs, hopen, rfl⟩ := h
  exact ⟨part, disk, s₀, procs, quiet_openRootDir _ _ _ hopen, rfl⟩

theorem GivenOut.mounted (h : AnyMounted s) : GivenOut s := by
  obtain ⟨part, disk, s₀, procs, hq, rfl⟩ := h.quiet
  have hfresh : GivenOut (mountPartition part disk) := by
    refine ⟨fun i p hp => ?_, fun p hp => ?_⟩
    · cases hp
    · cases hp
  have hs₀ := hfresh.quiet hq
  exact ⟨hs₀.slots, hs₀.listed⟩

end Pointers

section Descriptors

variable {s s' : State}

private theorem setEntry_self {α : Type} (t : Pid → Nat → α) (pid : Pid) (k : Nat) (v : α) :
    Function.update t pid (Function.update (t pid) k v) pid k = v := by
  simp

private theorem setEntry_of_ne {α : Type} (t : Pid → Nat → α) {pid pid' : Pid} {k k' : Nat} (v : α)
    (h : ¬ (pid' = pid ∧ k' = k)) :
    Function.update t pid (Function.update (t pid) k v) pid' k' = t pid' k' := by
  by_cases hpid : pid' = pid
  · subst pid'
    have hk : k' ≠ k := fun hk => h ⟨rfl, hk⟩
    rw [Function.update_self, Function.update_of_ne hk]
  · rw [Function.update_of_ne hpid]

/-- Process `pid` is live, and its descriptor `k` indexes slot `i`. -/
def State.Indexes (s : State) (pid : Pid) (k i : Nat) : Prop :=
  pid ∈ s.procs ∧ 3 ≤ k ∧ k < maxFilesOpenPerProc ∧ s.fdTable pid k = some i

/-- The descriptor `k` of `pid` still reaches the inode it was opened on through slot `i`. -/
def State.Backed (s : State) (pid : Pid) (k i : Nat) : Prop :=
  i < maxFileOpen ∧ ∃ p, (s.fileTable i).fdInode = some p ∧ s.fdOrigin pid k = some p

/-- Every descriptor reaches the inode it was opened on. -/
def State.AllBacked (s : State) : Prop := ∀ pid k i, s.Indexes pid k i → s.Backed pid k i

theorem AllBacked.quiet (h : Quiet s s') (hs : s.AllBacked) : s'.AllBacked := by
  intro pid k i hi
  rw [State.Indexes, h.procs, h.fdTable] at hi
  have hb := hs pid k i hi
  rw [State.Backed, ← h.fileTable, ← h.fdOrigin] at hb
  exact hb

theorem AllBacked.taken {i : Nat} {f : File} (h : Taken s s' i f) (hs : s.AllBacked) :
    s'.AllBacked := by
  have hold : ∀ pid k j, s.Indexes pid k j → j ≠ i ∧ s.Backed pid k j := by
    intro pid k j hj
    obtain ⟨hlt, p, hp, horigin⟩ := hs pid k j hj
    refine ⟨?_, hlt, p, hp, horigin⟩
    rintro rfl
    rw [h.free] at hp
    cases hp
  have hkeep : ∀ pid k j, s.Indexes pid k j → s'.fdOrigin pid k = s.fdOrigin pid k →
      s'.Backed pid k j := by
    intro pid k j hj horigin
    obtain ⟨hne, hlt, p, hp, hp'⟩ := hold pid k j hj
    refine ⟨hlt, p, ?_, horigin.trans hp'⟩
    rw [h.fileTable, Function.update_of_ne hne]
    exact hp
  intro pid k j hj
  rw [State.Indexes, h.procs] at hj
  rcases h.fds with hfds | ⟨fd, p, h₃, h₈, hf, hfds⟩
  · obtain ⟨htable, horigin⟩ := Prod.mk.inj hfds
    rw [htable] at hj
    exact hkeep pid k j hj (by rw [horigin])
  · obtain ⟨htable, horigin⟩ := Prod.mk.inj hfds
    rw [State.setFd_fdTable] at htable
    rw [State.setFd_fdOrigin] at horigin
    by_cases hnew : pid = s.cur ∧ k = fd
    · obtain ⟨rfl, rfl⟩ := hnew
      rw [htable, setEntry_self] at hj
      obtain rfl : i = j := Option.some.inj hj.2.2.2
      refine ⟨h.range.2, p, ?_, ?_⟩
      · rw [h.fileTable, Function.update_self, hf]
      · rw [horigin, setEntry_self]
    · rw [htable, setEntry_of_ne _ _ hnew] at hj
      exact hkeep pid k j hj (by rw [horigin, setEntry_of_ne _ _ hnew])

theorem AllBacked.opens {pathname : Path} {flags : UInt32} (hs : s.AllBacked)
    (h : Opens pathname flags s s') : s'.AllBacked := by
  rcases h with (h | ⟨i, p, f, -, -, h⟩) | ⟨s₁, no, -, ⟨r, d, hr, -⟩, h⟩
  · exact AllBacked.quiet h hs
  · exact AllBacked.taken h hs
  · have hs₁ := AllBacked.quiet (quiet_searchFile _ _ _ _ hr) hs
    rcases h with h | ⟨i, p, -, h⟩
    · exact AllBacked.quiet h hs₁
    · exact AllBacked.taken h hs₁

/-- A descriptor can be closed when no other one indexes its slot. -/
def State.SoleIndex (s : State) (fd : Nat) : Prop :=
  ∀ i, s.fdTable s.cur fd = some i → ∀ pid k, s.Indexes pid k i → pid = s.cur ∧ k = fd

theorem AllBacked.closed {fd i : Nat} (h : Closed fd i s s') (hsole : s.SoleIndex fd)
    (hs : s.AllBacked) : s'.AllBacked := by
  obtain ⟨htable, horigin⟩ := Prod.mk.inj h.fds
  rw [State.setFd_fdTable] at htable
  rw [State.setFd_fdOrigin] at horigin
  intro pid k j hj
  rw [State.Indexes, h.procs] at hj
  by_cases hnew : pid = s.cur ∧ k = fd
  · obtain ⟨rfl, rfl⟩ := hnew
    rw [htable, setEntry_self] at hj
    cases hj.2.2.2
  · rw [htable, setEntry_of_ne _ _ hnew] at hj
    obtain ⟨hlt, p, hp, hp'⟩ := hs pid k j hj
    have hne : j ≠ i := by
      rintro rfl
      exact hnew (hsole j h.index pid k hj)
    refine ⟨hlt, p, ?_, ?_⟩
    · rw [h.fileTable, Function.update_of_ne hne, hp]
    · rw [horigin, setEntry_of_ne _ _ hnew, hp']

theorem AllBacked.forked {child : Pid} (hcur : s.cur ∈ s.procs) (hs : s.AllBacked) :
    (s.forked child).AllBacked := by
  intro pid k i hi
  by_cases hpid : pid = child
  · subst pid
    have hparent : s.Indexes s.cur k i := by
      obtain ⟨-, h₃, h₈, htable⟩ := hi
      rw [State.forked_fdTable, Function.update_self] at htable
      exact ⟨hcur, h₃, h₈, htable⟩
    obtain ⟨hlt, p, hp, hp'⟩ := hs s.cur k i hparent
    refine ⟨hlt, p, hp, ?_⟩
    rw [State.forked_fdOrigin, Function.update_self, hp']
  · have hold : s.Indexes pid k i := by
      obtain ⟨hmem, h₃, h₈, htable⟩ := hi
      rw [State.forked_fdTable, Function.update_of_ne hpid] at htable
      exact ⟨(List.mem_cons.mp hmem).resolve_left hpid, h₃, h₈, htable⟩
    obtain ⟨hlt, p, hp, hp'⟩ := hs pid k i hold
    refine ⟨hlt, p, hp, ?_⟩
    rw [State.forked_fdOrigin, Function.update_of_ne hpid, hp']

theorem AllBacked.mounted (h : AnyMounted s) : s.AllBacked := by
  obtain ⟨part, disk, s₀, procs, hq, rfl⟩ := h.quiet
  rintro pid k i ⟨-, h₃, -, htable⟩
  have hnone : s₀.fdTable pid k = none := by
    rw [hq.fdTable]
    exact if_neg (by omega)
  exact absurd (hnone.symm.trans htable) (Option.some_ne_none i).symm

end Descriptors

/-- `sys_open`, `sys_close` and `sys_fork` -/
def descriptorCall : Call → Prop
  | .sysOpen _ _ | .sysClose _ | .sysFork _ => True
  | _ => False

/-- No other live descriptor indexes the slot of a descriptor that is closed. -/
def closesSoleIndex (s : State) (e : Event) : Prop :=
  ∀ fd, e.call = .sysClose fd → (s.switchTo e.pid).SoleIndex fd.toNat

theorem descriptors_backed {s : State}
    (h : ((calls AnyMounted descriptorCall).restrict closesSoleIndex).Reachable s) :
    s.AllBacked := by
  apply h.invariant
  · intro s hs
    exact AllBacked.mounted (s := s) hs
  intro s e s' hs hstep
  obtain ⟨hsole, hallowed, hpid, -, hrun⟩ := hstep
  have hs' : (s.switchTo e.pid).AllBacked := hs
  cases hcall : e.call with
  | sysOpen pathname flags =>
      rw [hcall] at hrun
      obtain ⟨fd, hopen, -⟩ := Code.map_ok.mp hrun
      exact AllBacked.opens hs' (sysOpen_effect _ _ _ _ _ hopen)
  | sysClose fd =>
      rw [hcall] at hrun
      obtain ⟨ok, hclose, -⟩ := Code.map_ok.mp hrun
      rcases sysClose_effect hclose with rfl | ⟨i, hclosed⟩
      · exact hs'
      · exact AllBacked.closed hclosed (hsole fd hcall) hs'
  | sysFork child =>
      rw [hcall] at hrun
      obtain ⟨u, hfork, -⟩ := Code.map_ok.mp hrun
      exact AllBacked.quiet (sysFork_effect hfork) (AllBacked.forked hpid hs')
  | _ =>
      rw [hcall] at hallowed
      cases hallowed


/-- `open("/f", O_CREAT | O_RDWR)` by process `0` -/
def createF : Pid × Call := (0, .sysOpen (path "/f") (oCreat ||| oRdwr))

/-- After an open, descriptor 3 indexes slot 3 and is backed. -/
theorem descriptors_backed_created :
    ∃ s, ((calls AnyMounted descriptorCall).restrict closesSoleIndex).Reachable s ∧
      s.Indexes 0 3 3 ∧ s.AllBacked := by
  have hplay : ∃ s₀ ∈ smallSystem, ∃ s ∈ s₀.playOne createF.1 createF.2,
      0 ∈ s.procs ∧ s.fdTable 0 3 = some 3 := by decide +kernel
  obtain ⟨s₀, hs₀, s, hs, hprocs, hfd⟩ := hplay
  have hallowed : descriptorCall createF.2 := trivial
  obtain ⟨r, hstep⟩ := playOne_step AnyMounted hallowed hs
  have hreach : ((calls AnyMounted descriptorCall).restrict closesSoleIndex).Reachable s := by
    refine .step (.init ⟨_, _, smallSystem_mounted hs₀⟩) ⟨?_, hstep⟩
    intro fd hfd
    cases hfd
  exact ⟨s, hreach, ⟨hprocs, by decide, by decide, hfd⟩, descriptors_backed hreach⟩

/-- The child of a fork keeps a descriptor whose slot the parent's close has emptied. -/
theorem fork_close_leaves_descriptor :
    ∃ s, (calls AnyMounted descriptorCall).Reachable s ∧ ¬ s.AllBacked := by
  apply smallSystem_reachable (fun s hs => ⟨_, _, hs⟩) [createF, (0, .sysFork 1), (0, .sysClose 3)]
  · simp [createF, descriptorCall]
  have hplay : ∃ s ∈ smallSystem.bind (State.play · [createF, (0, .sysFork 1), (0, .sysClose 3)]),
      1 ∈ s.procs ∧ s.fdTable 1 3 = some 3 ∧ (s.fileTable 3).fdInode = none := by
    decide +kernel
  obtain ⟨s, hs, hprocs, hfd, hslot⟩ := hplay
  refine ⟨s, hs, fun hbacked => ?_⟩
  obtain ⟨-, p, hp, -⟩ := hbacked 1 3 3 ⟨hprocs, by decide, by decide, hfd⟩
  rw [hslot] at hp
  cases hp

end Aitos.Fs
