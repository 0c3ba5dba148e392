import Aitos.Fs.Transfer

/-!
# The position of an open file

Four calls move `fd_pos`: `sys_open` starts it at the beginning, `sys_write` puts it behind the last
byte written less one, `sys_read` and `sys_lseek` put it where they end.
-/

namespace Aitos.Fs

open Framework

inductive FileCall where
  | sysOpen (pathname : Path) (flags : UInt32)
  | sysRead (fd : Int) (hasBuf : Bool) (typed : Nat → UInt8) (count : UInt32)
  | sysWrite (fd : Int) (src : Bytes) (count : UInt32)
  | sysLseek (fd : Int) (offset : Int32) (whence : UInt8)
  | sysClose (fd : Int)

inductive FileReply where
  | fd (r : Option Nat)
  | read (r : Option UInt32) (stored : List UInt8)
  | count (r : Option UInt32)
  | done (ok : Bool)

def FileCall.run : FileCall → FsM FileReply
  | .sysOpen pathname flags => FileReply.fd <$> Fs.sysOpen pathname flags
  | .sysRead fd hasBuf typed count =>
      (fun r => FileReply.read r.1 r.2) <$> Fs.sysRead fd hasBuf typed count
  | .sysWrite fd src count => FileReply.count <$> Fs.sysWrite fd src count
  | .sysLseek fd offset whence => FileReply.count <$> Fs.sysLseek fd offset whence
  | .sysClose fd => FileReply.done <$> Fs.sysClose fd

structure FileEvent where
  pid : Pid
  call : FileCall
  reply : FileReply

/-- Runs of the five calls by any processes from any mounted partition, with any heap. -/
def fileCalls : System State FileEvent where
  init s := ∃ s₀ m, AnyMounted s₀ ∧ s = s₀.setMem m
  step s e s' := e.pid ∈ s.procs ∧ e.call.run (s.switchTo e.pid) = .ok (e.reply, s')

/-- Some open file has a size to which the size of another directory entry cannot be added. -/
def State.NearlyWraps (s : State) : Prop :=
  ∃ i p, (s.fileTable i).fdInode = some p ∧ 2 ^ 32 ≤ (s.inode p).iSize.toNat + 24

/-- The call does not take a position out of its file. -/
def FileCall.StaysInFile (s : State) : FileCall → Prop
  | .sysOpen _ flags => flags &&& oCreat ≠ 0 → ¬ s.NearlyWraps
  | .sysWrite fd _ count => ¬ s.EmptyWrite fd count
  | .sysLseek fd offset whence => ¬ s.PastEnd fd offset whence
  | .sysRead _ _ _ _ => True
  | .sysClose _ => True

section Sizes

/-- The sizes of inodes in memory stay. -/
structure Sized (s s' : State) : Prop where
  nextInode : s.nextInode ≤ s'.nextInode
  size : ∀ p < s.nextInode, (s'.inode p).iSize = (s.inode p).iSize

instance : IsPreorder State Sized where
  refl _ := ⟨le_rfl, fun _ _ => rfl⟩
  trans _ _ _ h h' := ⟨h.nextInode.trans h'.nextInode,
    fun p hp => (h'.size p (hp.trans_le h.nextInode)).trans (h.size p hp)⟩

/-- One directory entry may be added to an inode. -/
structure Grown (s s' : State) : Prop where
  nextInode : s.nextInode ≤ s'.nextInode
  size : ∀ p < s.nextInode, (s'.inode p).iSize = (s.inode p).iSize ∨
    (s'.inode p).iSize = (s.inode p).iSize + 24

private theorem absorbs_grown : Absorbs Sized Grown where
  of h := ⟨h.nextInode, fun p hp => Or.inl (h.size p hp)⟩
  before h h' := by
    refine ⟨h.nextInode.trans h'.nextInode, fun p hp => ?_⟩
    rw [← h.size p hp]
    exact h'.size p (hp.trans_le h.nextInode)
  after h h' := by
    refine ⟨h.nextInode.trans h'.nextInode, fun p hp => ?_⟩
    rw [h'.size p (hp.trans_le h.nextInode)]
    exact h.size p hp

theorem Sized.setInode (s : State) {p : Ptr} {ino : Inode} (h : ino.iSize = (s.inode p).iSize) :
    Sized s (s.setInode p ino) := by
  refine ⟨le_rfl, fun q _ => ?_⟩
  by_cases hq : q = p
  · subst hq
    simpa using h
  · simp [hq]

theorem Sized.countUp (s : State) (p : Ptr) : Sized s (s.countUp p) := Sized.setInode s rfl

theorem Sized.listInode (s : State) (p : Ptr) :
    Sized s ((s.listInode p).setInode p (s.inode p).opened) := by
  have hlist : Sized s (s.listInode p) := ⟨le_rfl, fun _ _ => rfl⟩
  exact trans_of Sized hlist (Sized.setInode (s.listInode p) (by rfl))

theorem Sized.newInode (s : State) (ino : Inode) : Sized s (s.newInode ino) := by
  refine ⟨Nat.le_succ _, fun q hq => ?_⟩
  simp [Nat.ne_of_lt hq]

theorem Sized.pushInode (s : State) (ino : Inode) : Sized s (s.pushInode ino) := by
  refine ⟨Nat.le_succ _, fun q hq => ?_⟩
  simp [Nat.ne_of_lt hq]

private theorem stable_sized : Stable Sized where
  mem _ _ _ := ⟨le_rfl, fun _ _ => rfl⟩
  disk _ _ _ _ := ⟨le_rfl, fun _ _ => rfl⟩
  blockBit _ _ _ := ⟨le_rfl, fun _ _ => rfl⟩
  inodeBit _ _ _ := ⟨le_rfl, fun _ _ => rfl⟩
  sector s _ _ _ := Sized.setInode s rfl

private theorem stableFiles_sized : StableFiles Sized where
  toStable := stable_sized
  inodeOpen := stable_sized.inodeOpen Sized.countUp Sized.pushInode
  inodeClose := stable_sized.inodeClose (fun s _ => Sized.setInode s rfl)
    fun _ _ => ⟨le_rfl, fun _ _ => rfl⟩
  pushDir _ _ := ⟨le_rfl, fun _ _ => rfl⟩
  setFile _ _ _ := ⟨le_rfl, fun _ _ => rfl⟩
  setFd _ _ _ _ _ := ⟨le_rfl, fun _ _ => rfl⟩
  setDeny s _ _ := Sized.setInode s rfl
  newInode := Sized.newInode
  listInode := Sized.listInode

private theorem grown_setSize (s : State) (p : Ptr) :
    Grown s (s.setSize p ((s.inode p).iSize + 24)) := by
  refine ⟨le_rfl, fun q _ => ?_⟩
  by_cases hq : q = p
  · subst hq
    exact Or.inr (by simp [State.setSize])
  · exact Or.inl (by simp [State.setSize, hq])

private theorem grown_writeEntry (p : Ptr) (lba : UInt32) (buf : Bytes) (k : Nat) (de : Bytes) :
    Keeps Grown (writeEntry p lba buf k de) :=
  (stable_sized.ideWrite _ _ _).before (fun _ => Keeps.modify fun s => grown_setSize s p)
    absorbs_grown.before

private theorem sysOpen_grown (pathname : Path) (flags : UInt32) :
    Keeps Grown (sysOpen pathname flags) :=
  stableFiles_sized.sysOpen absorbs_grown fun _ _ _ =>
    stableFiles_sized.fileCreate absorbs_grown grown_writeEntry _ _ _

private theorem sysOpen_sized {pathname : Path} {flags : UInt32} (hflags : flags &&& oCreat = 0) :
    Keeps Sized (sysOpen pathname flags) :=
  stableFiles_sized.sysOpen (.self _) fun h => absurd hflags h

end Sizes

section Open

variable {s s₁ s' : State} {i : Nat}

/-- What is open after a call was open before, or starts at its beginning. -/
def OpensAtStart (s s' : State) : Prop :=
  ∀ i p, (s'.fileTable i).fdInode = some p →
    s'.fileTable i = s.fileTable i ∨ (s'.fileTable i).fdPos = 0

theorem OpensAtStart.quiet (h : Quiet s s') : OpensAtStart s s' := by
  intro i p _
  rw [h.fileTable]
  exact Or.inl rfl

theorem OpensAtStart.taken {flag : UInt32} {p : Ptr} {f : File} (hf : SlotFile flag p f)
    (h : Taken s s' i f) : OpensAtStart s s' := by
  intro j q hq
  rw [h.fileTable] at hq ⊢
  by_cases hj : j = i
  · subst hj
    rw [Function.update_self] at hq ⊢
    rcases hf with hf | rfl
    · rw [hf] at hq
      cases hq
    · exact Or.inr rfl
  · rw [Function.update_of_ne hj]
    exact Or.inl rfl

theorem OpensAtStart.of_quiet (h : Quiet s s₁) (h' : OpensAtStart s₁ s') : OpensAtStart s s' := by
  intro i p hp
  rw [← h.fileTable]
  exact h' i p hp

private theorem Opens.atStart {pathname : Path} {flags : UInt32} (h : Opens pathname flags s s') :
    OpensAtStart s s' := by
  rcases h with (h | ⟨i, p, f, -, hf, h⟩) | ⟨s₁, no, -, ⟨r, d, hr, -⟩, h⟩
  · exact .quiet h
  · exact .taken hf h
  · apply OpensAtStart.of_quiet (quiet_searchFile _ _ _ _ hr)
    rcases h with h | ⟨i, p, -, h⟩
    · exact .quiet h
    · exact .taken (Or.inr rfl) h

theorem State.InFile.opens (hin : s.InFile) (h : OpensAtStart s s')
    (hsize : ∀ i p, (s.fileTable i).fdInode = some p → (s.inode p).iSize ≤ (s'.inode p).iSize) :
    s'.InFile := by
  intro i p hp
  rcases h i p hp with hold | hzero
  · rw [hold] at hp ⊢
    exact UInt32.le_trans (hin i p hp) (hsize i p hp)
  · rw [hzero]
    exact UInt32.zero_le

private theorem sysOpen_size {pathname : Path} {flags : UInt32} {r : Option Nat} (hs : GivenOut s)
    (hwrap : flags &&& oCreat ≠ 0 → ¬ s.NearlyWraps) (h : sysOpen pathname flags s = .ok (r, s'))
    (i : Nat) (p : Ptr) (hp : (s.fileTable i).fdInode = some p) :
    (s.inode p).iSize ≤ (s'.inode p).iSize := by
  by_cases hflags : flags &&& oCreat = 0
  · rw [(sysOpen_sized hflags _ _ _ h).size p (hs.slots i p hp)]
    exact UInt32.le_refl _
  · rcases (sysOpen_grown _ _ _ _ _ h).size p (hs.slots i p hp) with hsize | hsize
    · rw [hsize]
      exact UInt32.le_refl _
    · have hlt : (s.inode p).iSize.toNat + 24 < 2 ^ 32 :=
        Nat.not_le.mp fun hle => hwrap hflags ⟨i, p, hp, hle⟩
      have htwentyfour : (24 : UInt32).toNat = 24 := rfl
      rw [hsize, UInt32.le_iff_toNat_le, UInt32.toNat_add, htwentyfour, Nat.mod_eq_of_lt hlt]
      omega

end Open

private theorem FileCall.inFile {s s' : State} {c : FileCall} {r : FileReply} (hs : GivenOut s)
    (hin : s.InFile) (hstay : c.StaysInFile s) (h : c.run s = .ok (r, s')) :
    GivenOut s' ∧ s'.InFile := by
  cases c with
  | sysOpen pathname flags =>
      obtain ⟨fd, hopen, -⟩ := Code.map_ok.mp h
      have hopens := sysOpen_effect _ _ _ _ _ hopen
      exact ⟨hs.opens hopens, hin.opens hopens.atStart (sysOpen_size hs hstay hopen)⟩
  | sysRead fd hasBuf typed count =>
      obtain ⟨r, hread, -⟩ := Code.map_ok.mp h
      obtain ⟨-, i, hmove⟩ := sysRead_ok hin hread
      exact ⟨hs.positioned hmove, hin.positioned hmove⟩
  | sysWrite fd src count =>
      obtain ⟨r, hwrite, -⟩ := Code.map_ok.mp h
      obtain ⟨i, hmove⟩ := sysWrite_ok hin hstay hwrite
      exact ⟨hs.positioned hmove, hin.positioned hmove⟩
  | sysLseek fd offset whence =>
      obtain ⟨r, hseek, -⟩ := Code.map_ok.mp h
      obtain ⟨i, hmove⟩ := sysLseek_ok hin hstay hseek
      exact ⟨hs.positioned hmove, hin.positioned hmove⟩
  | sysClose fd =>
      obtain ⟨ok, hclose, -⟩ := Code.map_ok.mp h
      have hsized := stableFiles_sized.sysClose fd _ _ _ hclose
      rcases sysClose_effect hclose with rfl | ⟨i, hclosed⟩
      · exact ⟨hs, hin⟩
      · refine ⟨hs.closed hclosed, fun j p hp => ?_⟩
        have hold := hclosed.slot hp
        rw [hold] at hp ⊢
        rw [hsized.size p (hs.slots j p hp)]
        exact hin j p hp

/-- The steps that meet their condition. -/
def staysInFile (s : State) (e : FileEvent) : Prop := e.call.StaysInFile (s.switchTo e.pid)

/-- In every state that is reached each open file is positioned inside itself, and a read stores no
more than it was asked for. -/
theorem positions_in_file {s : State} (h : (fileCalls.restrict staysInFile).Reachable s) :
    s.InFile ∧ ∀ pid ∈ s.procs, ∀ fd hasBuf typed count r stored s',
      sysRead fd hasBuf typed count (s.switchTo pid) = .ok ((r, stored), s') →
        stored.length ≤ count.toNat := by
  have hinv : GivenOut s ∧ s.InFile := by
    apply h.invariant
    · rintro s ⟨s₀, m, hmounted, rfl⟩
      have hgiven := GivenOut.mounted hmounted
      obtain ⟨part, disk, s₁, procs, hq, rfl⟩ := hmounted.quiet
      refine ⟨⟨hgiven.slots, hgiven.listed⟩, fun i p hp => ?_⟩
      have hslot : (s₁.fileTable i).fdInode = some p := hp
      rw [hq.fileTable] at hslot
      cases hslot
    · rintro s e s' ⟨hs, hin⟩ ⟨hstay, -, hrun⟩
      have hs' : GivenOut (s.switchTo e.pid) := ⟨hs.slots, hs.listed⟩
      exact FileCall.inFile hs' hin hstay hrun
  refine ⟨hinv.2, fun pid _ fd _ typed count r stored s' hread => ?_⟩
  have hin : (s.switchTo pid).InFile := hinv.2
  exact (sysRead_ok hin hread).1

/-- The state after one call, if the process is there and the call returns. -/
def State.playFile (s : State) (pid : Pid) (c : FileCall) : Option State :=
  if pid ∈ s.procs then
    match c.run (s.switchTo pid) with
    | .ok (_, s') => some s'
    | .error _ => none
  else none

private theorem playFile_step {s s' : State} {pid : Pid} {c : FileCall}
    (h : s.playFile pid c = some s') : ∃ r, fileCalls.step s ⟨pid, c, r⟩ s' := by
  rw [State.playFile] at h
  split at h
  · rename_i hpid
    split at h
    · rename_i r s₁ hrun
      obtain rfl := Option.some.inj h
      exact ⟨r, hpid, hrun⟩
    · cases h
  · cases h

theorem smallSystem_fileCalls {s : State} (h : smallSystem = some s) : fileCalls.init s :=
  ⟨s, s.mem, ⟨_, _, smallSystem_mounted h⟩, rfl⟩

/-- `open("/f", O_CREAT | O_RDWR)` -/
def openF : FileCall := .sysOpen (path "/f") (oCreat ||| oRdwr)

/-- Three bytes are written to a new file; the position is that of the last one. -/
theorem positions_in_file_written :
    ∃ s, (fileCalls.restrict staysInFile).Reachable s ∧ (s.fileTable 3).fdInode = some 2 ∧
      (s.fileTable 3).fdPos = 2 ∧ (s.inode 2).iSize = 3 ∧ s.InFile := by
  have hplay : ∃ s₀ ∈ smallSystem, ∃ s₁ ∈ s₀.playFile 0 openF,
      ∃ s ∈ s₁.playFile 0 (.sysWrite 3 (fun _ => 65) 3), (s.fileTable 3).fdInode = some 2 ∧
        (s.fileTable 3).fdPos = 2 ∧ (s.inode 2).iSize = 3 := by
    decide +kernel
  obtain ⟨s₀, h₀, s₁, h₁, s, h₂, hslot, hpos, hsize⟩ := hplay
  obtain ⟨r₁, hstep₁⟩ := playFile_step h₁
  obtain ⟨r₂, hstep₂⟩ := playFile_step h₂
  have hok₁ : staysInFile s₀ ⟨0, openF, r₁⟩ := by
    have hmounted : AnyMounted s₀ := ⟨_, _, smallSystem_mounted h₀⟩
    obtain ⟨part, disk, s', procs, hq, rfl⟩ := hmounted.quiet
    rintro - ⟨i, p, hp, -⟩
    have hslot : (s'.fileTable i).fdInode = some p := hp
    rw [hq.fileTable] at hslot
    cases hslot
  have hok₂ : staysInFile s₁ ⟨0, .sysWrite 3 (fun _ => 65) 3, r₂⟩ := by
    rintro ⟨f, ino, -, -, -, hcount, -⟩
    cases hcount
  have hreach₁ : (fileCalls.restrict staysInFile).Reachable s₁ :=
    .step (.init (smallSystem_fileCalls h₀)) ⟨hok₁, hstep₁⟩
  have hreach : (fileCalls.restrict staysInFile).Reachable s := hreach₁.step ⟨hok₂, hstep₂⟩
  exact ⟨s, hreach, hslot, hpos, hsize, (positions_in_file hreach).1⟩

/-- Writing nothing to an empty file puts its position at 2^32 - 1; `sys_lseek` also accepts the
position one behind the end. -/
theorem position_leaves_file :
    (∃ s, fileCalls.Reachable s ∧ (s.fileTable 3).fdInode = some 2 ∧
      (s.fileTable 3).fdPos = 0xFFFFFFFF ∧ (s.inode 2).iSize = 0 ∧ ¬ s.InFile) ∧
    ∃ s, fileCalls.Reachable s ∧ (s.fileTable 3).fdInode = some 2 ∧
      (s.fileTable 3).fdPos = 1 ∧ (s.inode 2).iSize = 0 ∧ ¬ s.InFile := by
  have hplay : ∃ s₀ ∈ smallSystem, ∃ s₁ ∈ s₀.playFile 0 openF,
      (∃ s ∈ s₁.playFile 0 (.sysWrite 3 (fun _ => 65) 0), (s.fileTable 3).fdInode = some 2 ∧
        (s.fileTable 3).fdPos = 0xFFFFFFFF ∧ (s.inode 2).iSize = 0) ∧
      ∃ s ∈ s₁.playFile 0 (.sysLseek 3 1 seekEnd), (s.fileTable 3).fdInode = some 2 ∧
        (s.fileTable 3).fdPos = 1 ∧ (s.inode 2).iSize = 0 := by
    decide +kernel
  obtain ⟨s₀, h₀, s₁, h₁, ⟨s, h, hslot, hpos, hsize⟩, s', h', hslot', hpos', hsize'⟩ := hplay
  obtain ⟨r₁, hstep₁⟩ := playFile_step h₁
  obtain ⟨r, hstep⟩ := playFile_step h
  obtain ⟨r', hstep'⟩ := playFile_step h'
  have hreach := (System.Reachable.init (smallSystem_fileCalls h₀)).step hstep₁
  refine ⟨⟨s, hreach.step hstep, hslot, hpos, hsize, fun hin => ?_⟩,
    ⟨s', hreach.step hstep', hslot', hpos', hsize', fun hin => ?_⟩⟩
  · have hle := hin 3 2 hslot
    rw [hpos, hsize] at hle
    exact absurd hle (by decide)
  · have hle := hin 3 2 hslot'
    rw [hpos', hsize'] at hle
    exact absurd hle (by decide)

end Aitos.Fs
