import Aitos.Fs.Position

/-!
# Descriptors that are not open

`sys_read`, `sys_write`, `sys_lseek` and `sys_close` of `fs/fs.c` with a descriptor that the process
does not have.  Each checks some of the bad numbers itself; the rest go to `fd_local2global`, which
has an assertion and no bound.
-/

namespace Aitos.Fs

open Framework

/-- A call on a descriptor. -/
inductive FdCall where
  | sysRead (hasBuf : Bool) (typed : Nat → UInt8) (count : UInt32)
  | sysWrite (src : Bytes) (count : UInt32)
  | sysLseek (offset : Int32) (whence : UInt8)
  | sysClose

/-- What the call returns; `none` is -1. -/
def FdCall.run (fd : Int) : FdCall → FsM (Option UInt32)
  | .sysRead hasBuf typed count => Prod.fst <$> Fs.sysRead fd hasBuf typed count
  | .sysWrite src count => Fs.sysWrite fd src count
  | .sysLseek offset whence => Fs.sysLseek fd offset whence
  | .sysClose => (fun ok => if ok = true then some 0 else none) <$> Fs.sysClose fd

/-- `stdin` is read or `stdout` written. -/
def FdCall.Serves (fd : Int) : FdCall → Prop
  | .sysRead _ _ _ => fd = 0
  | .sysWrite _ _ => fd = 1
  | .sysLseek _ _ => False
  | .sysClose => False

/-- The call returns, serves a standard stream or answers -1, and changes nothing. -/
def FdCall.Harmless (s : State) (fd : Int) (c : FdCall) : Prop :=
  ∃ r, c.run fd s = .ok (r, s) ∧ (r = none ∨ c.Serves fd)

/-- The running process has no file open under `fd`. -/
def State.NotOpen (s : State) (fd : Int) : Prop :=
  fd < 3 ∨ (maxFilesOpenPerProc : Int) ≤ fd ∨ s.fdTable s.cur fd.toNat = none

/-- The call itself refuses the descriptor, or serves it: it is negative, or a standard stream that
is not positioned; a buffer to read to is given, if that is asserted; a text for `stdout` fits its
buffer. -/
def FdCall.Checked (s : State) (fd : Int) : FdCall → Prop
  | .sysRead hasBuf _ _ => fd < 3 ∧ (s.ndebug = true ∨ hasBuf = true)
  | .sysWrite _ count => fd < 3 ∧ (fd = 1 → count ≤ 1024)
  | .sysLseek _ _ => fd < 0
  | .sysClose => fd < 3

/-- The first three descriptors are the standard streams, which have no file, and no other
descriptor is. -/
structure Streams (s : State) : Prop where
  fds : ∀ pid, ∀ k < 3, s.fdTable pid k = some k
  slots : ∀ i < 3, (s.fileTable i).fdInode = none ∧ writing (s.fileTable i).fdFlag = false
  others : ∀ pid k i, 3 ≤ k → s.fdTable pid k = some i → 3 ≤ i

section Runs

variable {s s' : State}

theorem Streams.quiet (hs : Streams s) (h : Quiet s s') : Streams s' := by
  refine ⟨?_, ?_, ?_⟩
  · rw [h.fdTable]
    exact hs.fds
  · rw [h.fileTable]
    exact hs.slots
  · rw [h.fdTable]
    exact hs.others

private theorem stableDirs_quiet : StableDirs Quiet where
  toStableRefs := stableRefs_quiet
  size s _ _ := Quiet.setInode s rfl

theorem Streams.setFd {fd i : Nat} {slot : Option Nat} {f : File} (hs : Streams s) (pid : Pid)
    (hfd : 3 ≤ fd) (hi : 3 ≤ i) (hslot : ∀ j, slot = some j → 3 ≤ j)
    (hfile : s'.fileTable = Function.update s.fileTable i f)
    (htable : s'.fdTable = Function.update s.fdTable pid
      (Function.update (s.fdTable pid) fd slot)) : Streams s' := by
  refine ⟨fun pid' k hk => ?_, fun j hj => ?_, fun pid' k j hk hj => ?_⟩
  · rw [htable]
    by_cases hpid : pid' = pid
    · rw [hpid, Function.update_self, Function.update_of_ne (by omega)]
      exact hs.fds pid k hk
    · rw [Function.update_of_ne hpid]
      exact hs.fds pid' k hk
  · rw [hfile, Function.update_of_ne (by omega)]
    exact hs.slots j hj
  · rw [htable] at hj
    by_cases hpid : pid' = pid
    · rw [hpid, Function.update_self] at hj
      by_cases hk' : k = fd
      · rw [hk', Function.update_self] at hj
        exact hslot j hj
      · rw [Function.update_of_ne hk'] at hj
        exact hs.others pid k j hk hj
    · rw [Function.update_of_ne hpid] at hj
      exact hs.others pid' k j hk hj

theorem Streams.taken {i : Nat} {f : File} (hs : Streams s) (h : Taken s s' i f) : Streams s' := by
  rcases h.fds with hfds | ⟨fd, p, hfd, -, -, hfds⟩
  · have htable : s'.fdTable = s.fdTable := congrArg Prod.fst hfds
    refine ⟨?_, fun j hj => ?_, ?_⟩
    · rw [htable]
      exact hs.fds
    · have := h.range.1
      rw [h.fileTable, Function.update_of_ne (by omega)]
      exact hs.slots j hj
    · rw [htable]
      exact hs.others
  · apply hs.setFd s.cur hfd h.range.1 _ h.fileTable (congrArg Prod.fst hfds)
    intro j hj
    cases hj
    exact h.range.1

theorem Streams.opens {pathname : Path} {flags : UInt32} (hs : Streams s)
    (h : Opens pathname flags s s') : Streams s' := by
  rcases h with (hq | ⟨i, p, f, -, -, htaken⟩) | ⟨s₁, no, -, ⟨r, d, hr, -⟩, hopen⟩
  · exact hs.quiet hq
  · exact hs.taken htaken
  · have hs₁ := hs.quiet (quiet_searchFile _ _ _ _ hr)
    rcases hopen with hq | ⟨i, p, -, htaken⟩
    · exact hs₁.quiet hq
    · exact hs₁.taken htaken

theorem Streams.closed {fd i : Nat} (hs : Streams s) (h : Closed fd i s s') : Streams s' := by
  have hi := hs.others s.cur fd i h.range.1 h.index
  exact hs.setFd s.cur h.range.1 hi (fun j hj => by cases hj) h.fileTable
    (congrArg Prod.fst h.fds)

theorem Streams.forked {child : Pid} (hs : Streams s) : Streams (s.forked child) := by
  have hcopy : ∀ pid, ∃ pid', (s.forked child).fdTable pid = s.fdTable pid' := by
    intro pid
    by_cases hpid : pid = child
    · exact ⟨s.cur, by rw [hpid, State.forked_fdTable, Function.update_self]⟩
    · exact ⟨pid, by rw [State.forked_fdTable, Function.update_of_ne hpid]⟩
  refine ⟨fun pid k hk => ?_, hs.slots, fun pid k i hk hi => ?_⟩
  · obtain ⟨pid', hpid'⟩ := hcopy pid
    rw [hpid']
    exact hs.fds pid' k hk
  · obtain ⟨pid', hpid'⟩ := hcopy pid
    rw [hpid'] at hi
    exact hs.others pid' k i hk hi

/-- The descriptors, and all slots but slot `i`, are as before. -/
structure ThroughSlot (i : Nat) (s s' : State) : Prop where
  fdTable : s'.fdTable = s.fdTable
  fileTable : ∀ j, j ≠ i → s'.fileTable j = s.fileTable j

instance (i : Nat) : IsPreorder State (ThroughSlot i) where
  refl _ := ⟨rfl, fun _ _ => rfl⟩
  trans _ _ _ h h' := ⟨h'.fdTable.trans h.fdTable,
    fun j hj => (h'.fileTable j hj).trans (h.fileTable j hj)⟩

private theorem stable_throughSlot (i : Nat) : Stable (ThroughSlot i) where
  mem _ _ _ := ⟨rfl, fun _ _ => rfl⟩
  disk _ _ _ _ := ⟨rfl, fun _ _ => rfl⟩
  blockBit _ _ _ := ⟨rfl, fun _ _ => rfl⟩
  inodeBit _ _ _ := ⟨rfl, fun _ _ => rfl⟩
  sector _ _ _ _ := ⟨rfl, fun _ _ => rfl⟩

private theorem throughSlot_setFile (s : State) (i : Nat) (f : File) :
    ThroughSlot i s (s.setFile i f) :=
  ⟨rfl, fun _ hj => Function.update_of_ne hj _ _⟩

private theorem throughSlot_fileWrite (i : Nat) (src : Bytes) (count : UInt32) :
    Keeps (ThroughSlot i) (fileWrite i src count) := by
  have hst := stable_throughSlot i
  refine Keeps.get.bind fun s => ?_
  cases (s.fileTable i).fdInode with
  | none => exact Keeps.throw
  | some p =>
      refine Keeps.ite Keeps.pure (hst.sysMalloc.bind fun _ => Keeps.ite Keeps.pure
        (hst.sysMalloc.bind fun _ => Keeps.ite Keeps.pure ?_))
      rw [writeFile]
      refine (hst.firstBlock p).bind fun ok => Keeps.ite (Keeps.get.bind fun _ =>
        (keeps_assert _).bind fun _ => Keeps.bind (Keeps.ite (StableDisk.sameBlocks p _ _)
          (hst.moreBlocks p _ _)) fun r => ?_) Keeps.pure
      cases r with
      | none => exact Keeps.pure
      | some blocks =>
          refine (Keeps.modify fun s => throughSlot_setFile s i _).bind fun _ =>
            (hst.writeLoop (fun _ _ _ => ⟨rfl, fun _ hj => Function.update_of_ne hj _ _⟩)
              _ _ _ _ _ _).bind fun _ => hst.sysMalloc.bind fun _ =>
            Keeps.ite Keeps.pure ?_
          exact Keeps.get.bind fun _ => (hst.inodeSync _).bind fun _ => hst.sysFree.bind fun _ =>
            hst.sysFree.bind fun _ => hst.sysFree.bind fun _ => Keeps.pure

private theorem throughSlot_readLoop (i : Nat) (blocks : Nat → UInt32) (size : UInt32) (n : Nat) :
    ∀ stored bytesRead, Keeps (ThroughSlot i) (readLoop i blocks size n stored bytesRead) := by
  induction n with
  | zero =>
      intro stored bytesRead
      exact Keeps.throw
  | succ n ih =>
      intro stored bytesRead
      rw [readLoop]
      exact Keeps.ite Keeps.pure (Keeps.get.bind fun s => (keeps_require _ _).bind fun _ =>
        (keeps_ideRead _ _ _).bind fun _ =>
        (Keeps.modify fun s => throughSlot_setFile s i _).bind fun _ => ih _ _)

private theorem throughSlot_fileRead (i : Nat) (count : UInt32) :
    Keeps (ThroughSlot i) (fileRead i count) := by
  have hst := stable_throughSlot i
  have hread : ∀ p size, Keeps (ThroughSlot i) (readSize i p size) := by
    intro p size
    refine hst.sysMalloc.bind fun _ => Keeps.ite Keeps.pure (hst.sysMalloc.bind fun _ =>
      Keeps.ite Keeps.pure (Keeps.get.bind fun _ => (keeps_assert _).bind fun _ =>
        Keeps.bind ?_ fun _ => (throughSlot_readLoop i _ _ _ _ _).bind fun _ =>
        hst.sysFree.bind fun _ => hst.sysFree.bind fun _ => Keeps.pure))
    exact (readBlocks_same _ _ _ _).weaken fun h => h ▸ refl_of (ThroughSlot i) _
  refine Keeps.get.bind fun s => ?_
  cases (s.fileTable i).fdInode with
  | none => exact Keeps.throw
  | some p => exact Keeps.ite (Keeps.ite Keeps.pure (hread _ _)) (hread _ _)

private theorem Streams.throughSlot {i : Nat} (hs : Streams s) (hi : 3 ≤ i)
    (h : ThroughSlot i s s') : Streams s' := by
  refine ⟨?_, fun j hj => ?_, ?_⟩
  · rw [h.fdTable]
    exact hs.fds
  · rw [h.fileTable j (by omega)]
    exact hs.slots j hj
  · rw [h.fdTable]
    exact hs.others

theorem Streams.lookup {fd : Int} {i : Nat} (hs : Streams s) (hfd : 3 ≤ fd)
    (h : fdLocal2global fd.toNat s = .ok (i, s')) : s' = s ∧ 3 ≤ i := by
  obtain ⟨rfl, -, hi⟩ := fdLocal2global_ok h
  exact ⟨rfl, hs.others _ _ i (by omega) hi⟩

theorem Streams.sysWrite {fd : Int} {src : Bytes} {count : UInt32} {r : Option UInt32}
    (hs : Streams s) (h : sysWrite fd src count s = .ok (r, s')) : Streams s' := by
  rw [Fs.sysWrite] at h
  split at h
  · obtain ⟨-, rfl⟩ := Code.pure_ok.mp h
    exact hs
  split at h
  · obtain ⟨_, s₁, hreq, hpure⟩ := Code.bind_ok.mp h
    obtain ⟨rfl, -⟩ := require_ok.mp hreq
    obtain ⟨-, rfl⟩ := Code.pure_ok.mp hpure
    exact hs
  rename_i hneg hone
  obtain ⟨i, s₁, hlocal, hrest⟩ := Code.bind_ok.mp h
  obtain ⟨rfl, -, hi⟩ := fdLocal2global_ok hlocal
  rw [Code.get_bind] at hrest
  by_cases hfd : 3 ≤ fd
  · split at hrest
    · exact hs.throughSlot (hs.lookup hfd hlocal).2 (throughSlot_fileWrite i _ _ _ _ _ hrest)
    · obtain ⟨-, rfl⟩ := Code.pure_ok.mp hrest
      exact hs
  · -- the slots of the standard streams are not open for writing
    rw [hs.fds _ _ (by omega)] at hi
    obtain rfl := Option.some.inj hi
    rw [(hs.slots _ (by omega)).2] at hrest
    obtain ⟨-, rfl⟩ := Code.pure_ok.mp hrest
    exact hs

theorem Streams.sysRead {fd : Int} {hasBuf : Bool} {typed : Nat → UInt8} {count : UInt32}
    {r : Option UInt32 × List UInt8} (hs : Streams s)
    (h : sysRead fd hasBuf typed count s = .ok (r, s')) : Streams s' := by
  rw [Fs.sysRead] at h
  obtain ⟨_, s₀, hbuf, hcall⟩ := Code.bind_ok.mp h
  obtain ⟨rfl, -⟩ := assert_ok.mp hbuf
  split at hcall
  · obtain ⟨-, rfl⟩ := Code.pure_ok.mp hcall
    exact hs
  split at hcall
  · obtain ⟨-, rfl⟩ := Code.pure_ok.mp hcall
    exact hs
  rename_i hbad hzero
  obtain ⟨i, s₁, hlocal, hread⟩ := Code.bind_ok.mp hcall
  obtain ⟨rfl, hi⟩ := hs.lookup (by omega) hlocal
  exact hs.throughSlot hi (throughSlot_fileRead i _ _ _ _ hread)

theorem Streams.sysLseek {fd : Int} {offset : Int32} {whence : UInt8} {r : Option UInt32}
    (hs : Streams s) (h : sysLseek fd offset whence s = .ok (r, s')) : Streams s' := by
  rw [Fs.sysLseek] at h
  split at h
  · obtain ⟨-, rfl⟩ := Code.pure_ok.mp h
    exact hs
  rename_i hneg
  obtain ⟨_, s₁, hassert, hrest⟩ := Code.bind_ok.mp h
  obtain ⟨rfl, -⟩ := assert_ok.mp hassert
  obtain ⟨i, s₂, hlocal, hseek⟩ := Code.bind_ok.mp hrest
  obtain ⟨rfl, -, hi⟩ := fdLocal2global_ok hlocal
  rw [Code.get_bind] at hseek
  cases hslot : (s₂.fileTable i).fdInode with
  | none =>
      rw [hslot] at hseek
      exact (fault_ok.mp hseek).elim
  | some p =>
      have hfd : 3 ≤ fd := by
        by_contra hfd
        rw [hs.fds _ _ (by omega)] at hi
        obtain rfl := Option.some.inj hi
        rw [(hs.slots _ (by omega)).1] at hslot
        cases hslot
      rw [hslot] at hseek
      dsimp only at hseek
      split at hseek
      · obtain ⟨-, rfl⟩ := Code.pure_ok.mp hseek
        exact hs
      · rw [Code.modify_bind] at hseek
        obtain ⟨-, rfl⟩ := Code.pure_ok.mp hseek
        exact hs.throughSlot (hs.lookup hfd hlocal).2 (throughSlot_setFile _ i _)

theorem Streams.mounted (h : AnyMounted s) : Streams s := by
  obtain ⟨part, disk, s₀, procs, hq, rfl⟩ := h.quiet
  have hflag : writing 0 = false := by decide
  have hfresh : Streams (mountPartition part disk) := by
    refine ⟨fun pid k hk => if_pos hk, fun i _ => ⟨rfl, hflag⟩, fun pid k i hk hi => ?_⟩
    have hnone : (mountPartition part disk).fdTable pid k = none := if_neg (by omega)
    rw [hnone] at hi
    cases hi
  have hs₀ := hfresh.quiet hq
  exact ⟨hs₀.fds, hs₀.slots, hs₀.others⟩

/-- Runs of all calls on files and directories by any processes. -/
def fsCalls : System State (Event ⊕ FileEvent) where
  init := fileCalls.init
  step s e s' :=
    match e with
    | .inl e => (calls AnyMounted fun _ => True).step s e s'
    | .inr e => fileCalls.step s e s'

theorem Streams.call {c : Call} {r : Reply} (hs : Streams s) (h : c.run s = .ok (r, s')) :
    Streams s' := by
  cases c with
  | sysOpen pathname flags =>
      obtain ⟨fd, hopen, -⟩ := Code.map_ok.mp h
      exact hs.opens (sysOpen_effect _ _ _ _ _ hopen)
  | sysClose fd =>
      obtain ⟨ok, hclose, -⟩ := Code.map_ok.mp h
      rcases sysClose_effect hclose with rfl | ⟨i, hclosed⟩
      · exact hs
      · exact hs.closed hclosed
  | sysWrite fd src count =>
      obtain ⟨n, hwrite, -⟩ := Code.map_ok.mp h
      exact hs.sysWrite hwrite
  | sysMkdir pathname =>
      obtain ⟨ok, hrun, -⟩ := Code.map_ok.mp h
      exact hs.quiet (stableDirs_quiet.sysMkdir _ _ _ _ hrun)
  | sysUnlink pathname =>
      obtain ⟨ok, hrun, -⟩ := Code.map_ok.mp h
      exact hs.quiet (stableDirs_quiet.sysUnlink _ _ _ _ hrun)
  | sysRmdir pathname =>
      obtain ⟨ok, hrun, -⟩ := Code.map_ok.mp h
      exact hs.quiet (stableDirs_quiet.sysRmdir _ _ _ _ hrun)
  | sysOpendir name =>
      obtain ⟨d, hrun, -⟩ := Code.map_ok.mp h
      exact hs.quiet (stableRefs_quiet.sysOpendir _ _ _ _ hrun)
  | sysClosedir d =>
      obtain ⟨ok, hrun, -⟩ := Code.map_ok.mp h
      exact hs.quiet (((quiet_dirClose d).bind fun _ => Keeps.pure) _ _ _ hrun)
  | sysChdir pathname =>
      obtain ⟨ok, hrun, -⟩ := Code.map_ok.mp h
      refine hs.quiet (Keeps.bind (quiet_searchFile _) (fun r => Keeps.ite ?_ ?_) _ _ _ hrun)
      · exact (Keeps.modify fun s => ⟨Steady.of_eq s rfl rfl rfl rfl rfl, rfl, rfl, rfl⟩).bind
          fun _ => (quiet_dirClose _).bind fun _ => Keeps.pure
      · exact (quiet_dirClose _).bind fun _ => Keeps.pure
  | sysStat pathname =>
      obtain ⟨st, hrun, -⟩ := Code.map_ok.mp h
      exact hs.quiet (stableRefs_quiet.sysStat _ _ _ _ hrun)
  | sysFork child =>
      obtain ⟨u, hrun, -⟩ := Code.map_ok.mp h
      exact hs.forked.quiet (sysFork_effect hrun)

private theorem Streams.fileCall {c : FileCall} {r : FileReply} (hs : Streams s)
    (h : c.run s = .ok (r, s')) : Streams s' := by
  cases c with
  | sysOpen pathname flags =>
      obtain ⟨fd, hopen, -⟩ := Code.map_ok.mp h
      exact hs.opens (sysOpen_effect _ _ _ _ _ hopen)
  | sysRead fd hasBuf typed count =>
      obtain ⟨n, hread, -⟩ := Code.map_ok.mp h
      exact hs.sysRead hread
  | sysWrite fd src count =>
      obtain ⟨n, hwrite, -⟩ := Code.map_ok.mp h
      exact hs.sysWrite hwrite
  | sysLseek fd offset whence =>
      obtain ⟨n, hseek, -⟩ := Code.map_ok.mp h
      exact hs.sysLseek hseek
  | sysClose fd =>
      obtain ⟨ok, hclose, -⟩ := Code.map_ok.mp h
      rcases sysClose_effect hclose with rfl | ⟨i, hclosed⟩
      · exact hs
      · exact hs.closed hclosed

private theorem streams_reachable (h : fsCalls.Reachable s) : Streams s := by
  apply h.invariant
  · rintro s ⟨s₀, m, hmounted, rfl⟩
    have hs₀ := Streams.mounted hmounted
    exact ⟨hs₀.fds, hs₀.slots, hs₀.others⟩
  · intro s e s' hs hstep
    have hswitch : ∀ pid, Streams (s.switchTo pid) := fun pid => ⟨hs.fds, hs.slots, hs.others⟩
    cases e with
    | inl e => exact (hswitch e.pid).call hstep.2.2.2
    | inr e => exact (hswitch e.pid).fileCall hstep.2

end Runs

section Calls

variable {s : State} {fd : Int} {c : FdCall}

/-- The look-up of a descriptor that is not open does not return. -/
private theorem fdLocal2global_notOpen {i : Nat} {s' : State} (hno : s.NotOpen fd) (hfd : 3 ≤ fd)
    (h : fdLocal2global fd.toNat s = .ok (i, s')) : False := by
  obtain ⟨rfl, hlt, hi⟩ := fdLocal2global_ok h
  rw [maxFilesOpenPerProc] at hlt
  rcases hno with hsmall | hlarge | hnone
  · omega
  · rw [maxFilesOpenPerProc] at hlarge
    omega
  · rw [hnone] at hi
    cases hi

private theorem FdCall.harmless_of_checked (hs : Streams s) (h : c.Checked s fd) :
    c.Harmless s fd := by
  cases c with
  | sysRead hasBuf typed count =>
      obtain ⟨hfd, hbuf⟩ := h
      have hassert : assert (hasBuf = true) s = .ok ((), s) := assert_ok.mpr ⟨rfl, hbuf⟩
      by_cases hzero : fd = 0
      · subst hzero
        refine ⟨if count = 0 then none else some count, ?_, Or.inr rfl⟩
        rw [run, Fs.sysRead]
        exact Code.map_ok.mpr ⟨_, Code.bind_ok.mpr ⟨_, _, hassert, rfl⟩, rfl⟩
      · refine ⟨none, ?_, Or.inl rfl⟩
        rw [run, Fs.sysRead, if_pos (by omega)]
        exact Code.map_ok.mpr ⟨_, Code.bind_ok.mpr ⟨_, _, hassert, rfl⟩, rfl⟩
  | sysWrite src count =>
      obtain ⟨hfd, hcount⟩ := h
      by_cases hneg : fd < 0
      · refine ⟨none, ?_, Or.inl rfl⟩
        rw [run, Fs.sysWrite, if_pos hneg]
        rfl
      · by_cases hone : fd = 1
        · refine ⟨some count, ?_, Or.inr hone⟩
          have hfits : require (count ≤ 1024) .outOfBounds s = .ok ((), s) :=
            require_ok.mpr ⟨rfl, hcount hone⟩
          rw [run, Fs.sysWrite, if_neg hneg, if_pos hone, Code.bind_of_ok hfits]
          rfl
        · refine ⟨none, ?_, Or.inl rfl⟩
          have hlocal : fdLocal2global fd.toNat s = .ok (fd.toNat, s) := by
            have hin : require (fd.toNat < maxFilesOpenPerProc) .outOfBounds s = .ok ((), s) :=
              require_ok.mpr ⟨rfl, by rw [maxFilesOpenPerProc]; omega⟩
            have hslot : assert (fd.toNat < maxFileOpen) s = .ok ((), s) :=
              assert_ok.mpr ⟨rfl, Or.inr (by rw [maxFileOpen]; omega)⟩
            rw [fdLocal2global, Code.bind_of_ok hin, Code.get_bind, hs.fds _ _ (by omega)]
            dsimp only
            rw [Code.bind_of_ok hslot]
            rfl
          rw [run, Fs.sysWrite, if_neg hneg, if_neg hone, Code.bind_of_ok hlocal, Code.get_bind,
            (hs.slots _ (by omega)).2]
          rfl
  | sysLseek offset whence =>
      have hfd : fd < 0 := h
      refine ⟨none, ?_, Or.inl rfl⟩
      rw [run, Fs.sysLseek, if_pos hfd]
      rfl
  | sysClose =>
      have hfd : fd < 3 := h
      refine ⟨none, ?_, Or.inl rfl⟩
      rw [run, Fs.sysClose, if_neg (by omega)]
      rfl

private theorem FdCall.checked_of_harmless (hs : Streams s) (hno : s.NotOpen fd)
    (h : c.Harmless s fd) : c.Checked s fd := by
  obtain ⟨r, hrun, -⟩ := h
  cases c with
  | sysRead hasBuf typed count =>
      obtain ⟨⟨r', stored⟩, hread, -⟩ := Code.map_ok.mp hrun
      rw [Fs.sysRead] at hread
      obtain ⟨_, s₀, hassert, hrest⟩ := Code.bind_ok.mp hread
      obtain ⟨rfl, hbuf⟩ := assert_ok.mp hassert
      refine ⟨?_, hbuf⟩
      by_contra hfd
      have hfd : 3 ≤ fd := not_lt.mp hfd
      rw [if_neg (by omega), if_neg (by omega)] at hrest
      obtain ⟨i, s₁, hlocal, -⟩ := Code.bind_ok.mp hrest
      exact fdLocal2global_notOpen hno hfd hlocal
  | sysWrite src count =>
      have hwrite : Fs.sysWrite fd src count s = .ok (r, s) := hrun
      rw [Fs.sysWrite] at hwrite
      by_cases hone : fd = 1
      · subst hone
        rw [if_neg (by decide), if_pos rfl] at hwrite
        obtain ⟨_, s₁, hreq, -⟩ := Code.bind_ok.mp hwrite
        exact ⟨by decide, fun _ => (require_ok.mp hreq).2⟩
      · refine ⟨?_, fun h => absurd h hone⟩
        by_contra hfd
        have hfd : 3 ≤ fd := not_lt.mp hfd
        rw [if_neg (by omega), if_neg hone] at hwrite
        obtain ⟨i, s₁, hlocal, -⟩ := Code.bind_ok.mp hwrite
        exact fdLocal2global_notOpen hno hfd hlocal
  | sysLseek offset whence =>
      have hseek : Fs.sysLseek fd offset whence s = .ok (r, s) := hrun
      show fd < 0
      by_contra hneg
      rw [Fs.sysLseek, if_neg hneg] at hseek
      obtain ⟨_, s₁, hassert, hrest⟩ := Code.bind_ok.mp hseek
      obtain ⟨rfl, -⟩ := assert_ok.mp hassert
      obtain ⟨i, s₂, hlocal, hrest⟩ := Code.bind_ok.mp hrest
      by_cases hfd : 3 ≤ fd
      · exact fdLocal2global_notOpen hno hfd hlocal
      · -- a standard stream has no inode
        obtain ⟨rfl, -, hi⟩ := fdLocal2global_ok hlocal
        rw [hs.fds _ _ (by omega)] at hi
        obtain rfl := Option.some.inj hi
        rw [Code.get_bind, (hs.slots _ (by omega)).1] at hrest
        exact fault_ok.mp hrest
  | sysClose =>
      by_contra hfd
      have hfd : 3 ≤ fd := not_lt.mp hfd
      obtain ⟨ok, hclose, -⟩ := Code.map_ok.mp hrun
      rw [Fs.sysClose, if_pos (by omega)] at hclose
      obtain ⟨i, s₁, hlocal, -⟩ := Code.bind_ok.mp hclose
      exact fdLocal2global_notOpen hno hfd hlocal

end Calls

/-- In any state that runs reach, a call on a descriptor that is not open is harmless exactly when it
is one of those the call checks itself. -/
theorem bad_descriptor_harmless_iff {s : State} (h : fsCalls.Reachable s) (pid : Pid) {fd : Int}
    (hno : (s.switchTo pid).NotOpen fd) (c : FdCall) :
    c.Harmless (s.switchTo pid) fd ↔ c.Checked (s.switchTo pid) fd := by
  have hs := streams_reachable h
  have hs : Streams (s.switchTo pid) := ⟨hs.fds, hs.slots, hs.others⟩
  exact ⟨FdCall.checked_of_harmless hs hno, FdCall.harmless_of_checked hs⟩

private theorem smallSystem_some : ∃ s, s ∈ smallSystem := by
  have hsome : smallSystem.isSome = true := by decide +kernel
  exact ⟨_, Option.get_mem hsome⟩

/-- On a new partition `sys_close(-1)` is harmless. -/
theorem bad_descriptor_negative : ∃ s ∈ smallSystem,
    FdCall.sysClose.Harmless (s.switchTo 0) (-1) := by
  obtain ⟨s, hs⟩ := smallSystem_some
  have hreach : fsCalls.Reachable s := .init (smallSystem_fileCalls hs)
  have hchecked : FdCall.sysClose.Checked (s.switchTo 0) (-1) := by
    show (-1 : Int) < 3
    decide
  exact ⟨s, hs, (bad_descriptor_harmless_iff hreach 0 (Or.inl (by decide)) _).mpr hchecked⟩

/-- On a new partition no file is open, and `sys_close(3)` (the assertion), `sys_read(9)` (behind the
descriptor table) and `sys_lseek(0)` (a null pointer) stop the machine. -/
theorem bad_descriptor_stops : ∃ s ∈ smallSystem, fsCalls.Reachable s ∧
    s.NotOpen 3 ∧ ¬ FdCall.sysClose.Harmless s 3 ∧
    s.NotOpen 9 ∧ ¬ (FdCall.sysRead true (fun _ => 0) 1).Harmless s 9 ∧
    s.NotOpen 0 ∧ ¬ (FdCall.sysLseek 0 seekSet).Harmless s 0 := by
  have hplay : ∃ s ∈ smallSystem, s.fdTable s.cur 3 = none := by decide +kernel
  obtain ⟨s, hs, hthree⟩ := hplay
  have hreach : fsCalls.Reachable s := .init (smallSystem_fileCalls hs)
  have hstreams := streams_reachable hreach
  have h₃ : s.NotOpen 3 := Or.inr (Or.inr hthree)
  have h₉ : s.NotOpen 9 := Or.inr (Or.inl (by decide))
  have h₀ : s.NotOpen 0 := Or.inl (by decide)
  refine ⟨s, hs, hreach, h₃, fun h => ?_, h₉, fun h => ?_, h₀, fun h => ?_⟩
  · have hlt : (3 : Int) < 3 := FdCall.checked_of_harmless hstreams h₃ h
    omega
  · have hlt : (9 : Int) < 3 := (FdCall.checked_of_harmless hstreams h₉ h).1
    omega
  · have hlt : (0 : Int) < 0 := FdCall.checked_of_harmless hstreams h₀ h
    omega

end Aitos.Fs
