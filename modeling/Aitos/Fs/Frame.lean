import Aitos.Fs.Stable
import Aitos.Fs.System

/-!
# What the lower layers leave alone

Everything below `file_create` and `file_open` leaves `file_table` and the descriptors alone,
keeps the number of every in-memory inode and lists only new pointers.
-/

namespace Aitos.Fs

open Framework

/-- No process, inode number or pointer in `open_inode` is lost or changed, apart from inodes that
are new or closed. -/
structure Steady (s s' : State) : Prop where
  cur : s'.cur = s.cur
  procs : s'.procs = s.procs
  nextInode : s.nextInode ≤ s'.nextInode
  iNo : ∀ p < s.nextInode, (s'.inode p).iNo = (s.inode p).iNo
  openInode : ∀ p ∈ s'.openInode, p ∈ s.openInode ∨ s.nextInode ≤ p ∧ p < s'.nextInode

/-- The tables stay as they are too. -/
structure Quiet (s s' : State) : Prop extends Steady s s' where
  fileTable : s'.fileTable = s.fileTable
  fdTable : s'.fdTable = s.fdTable
  fdOrigin : s'.fdOrigin = s.fdOrigin

theorem Steady.refl (s : State) : Steady s s :=
  ⟨rfl, rfl, le_rfl, fun _ _ => rfl, fun _ hp => .inl hp⟩

theorem Steady.trans {s₁ s₂ s₃ : State} (h : Steady s₁ s₂) (h' : Steady s₂ s₃) :
    Steady s₁ s₃ where
  cur := h'.cur.trans h.cur
  procs := h'.procs.trans h.procs
  nextInode := h.nextInode.trans h'.nextInode
  iNo p hp := (h'.iNo p (hp.trans_le h.nextInode)).trans (h.iNo p hp)
  openInode p hp := by
    rcases h'.openInode p hp with hp | hp
    · exact (h.openInode p hp).imp_right fun hp => ⟨hp.1, hp.2.trans_le h'.nextInode⟩
    · exact .inr ⟨h.nextInode.trans hp.1, hp.2⟩

instance : IsPreorder State Quiet where
  refl s := ⟨Steady.refl s, rfl, rfl, rfl⟩
  trans _ _ _ h h' :=
    ⟨h.toSteady.trans h'.toSteady, h'.fileTable.trans h.fileTable, h'.fdTable.trans h.fdTable,
      h'.fdOrigin.trans h.fdOrigin⟩

section Changes

variable (s : State)

theorem Steady.of_eq {s' : State} (hc : s'.cur = s.cur) (hp : s'.procs = s.procs)
    (hi : s'.inode = s.inode) (hn : s'.nextInode = s.nextInode)
    (ho : s'.openInode = s.openInode) : Steady s s' :=
  ⟨hc, hp, hn.ge, fun p _ => by rw [hi], fun p hp => .inl (ho ▸ hp)⟩

theorem Steady.setFile (i : Nat) (f : File) : Steady s (s.setFile i f) :=
  Steady.of_eq s rfl rfl rfl rfl rfl

theorem Steady.setInode {p : Ptr} {ino : Inode} (h : ino.iNo = (s.inode p).iNo) :
    Steady s (s.setInode p ino) := by
  refine ⟨rfl, rfl, le_rfl, fun q _ => ?_, fun _ hq => .inl hq⟩
  by_cases hq : q = p
  · subst q
    simpa using h
  · simp [hq]

theorem Quiet.setInode {p : Ptr} {ino : Inode} (h : ino.iNo = (s.inode p).iNo) :
    Quiet s (s.setInode p ino) := ⟨Steady.setInode s h, rfl, rfl, rfl⟩

theorem Quiet.countUp (p : Ptr) : Quiet s (s.countUp p) := Quiet.setInode s rfl

theorem Quiet.newInode (ino : Inode) : Quiet s (s.newInode ino) := by
  refine ⟨⟨rfl, rfl, Nat.le_succ _, fun q hq => ?_, fun _ hq => .inl hq⟩, rfl, rfl, rfl⟩
  simp [Nat.ne_of_lt hq]

theorem Quiet.pushInode (ino : Inode) : Quiet s (s.pushInode ino) := by
  refine ⟨⟨rfl, rfl, Nat.le_succ _, fun q hq => ?_, fun q hq => ?_⟩, rfl, rfl, rfl⟩
  · simp [Nat.ne_of_lt hq]
  · rcases List.mem_cons.mp hq with rfl | hq
    · exact .inr ⟨le_rfl, Nat.lt_succ_self _⟩
    · exact .inl hq

end Changes

section Functions

theorem quiet_fault {α : Type} (h : Halt) : Keeps Quiet (fault h : FsM α) := Keeps.throw

theorem quiet_assert (c : Prop) [Decidable c] : Keeps Quiet (assert c) := keeps_assert c

theorem quiet_require (c : Prop) [Decidable c] (h : Halt) : Keeps Quiet (require c h) :=
  keeps_require c h

theorem quiet_ideRead (lba : UInt32) (buf : Bytes) (n : Nat) : Keeps Quiet (ideRead lba buf n) :=
  keeps_ideRead lba buf n

theorem quiet_inodeLocate (n : UInt32) : Keeps Quiet (inodeLocate n) := keeps_inodeLocate n

theorem quiet_createDirEntry (name : List UInt8) (no t : UInt32) :
    Keeps Quiet (createDirEntry name no t) := keeps_createDirEntry name no t

theorem pathDepthCnt_same (p : Path) : Keeps Eq (pathDepthCnt p) := keeps_pathDepthCnt p

theorem stable_quiet : Stable Quiet where
  mem s _ _ := ⟨Steady.of_eq s rfl rfl rfl rfl rfl, rfl, rfl, rfl⟩
  disk s _ _ _ := ⟨Steady.of_eq s rfl rfl rfl rfl rfl, rfl, rfl, rfl⟩
  blockBit s _ _ := ⟨Steady.of_eq s rfl rfl rfl rfl rfl, rfl, rfl, rfl⟩
  inodeBit s _ _ := ⟨Steady.of_eq s rfl rfl rfl rfl rfl, rfl, rfl, rfl⟩
  sector s _ _ _ := Quiet.setInode s rfl

theorem quiet_sysMalloc : Keeps Quiet sysMalloc := stable_quiet |>.sysMalloc

theorem quiet_sysFree : Keeps Quiet sysFree := stable_quiet |>.sysFree

theorem quiet_sysFreeBlock (b : Block) :
    Keeps Quiet (sysFreeBlock b) := stable_quiet |>.sysFreeBlock b

theorem quiet_setPgdir (pgdir : Nat) :
    Keeps Quiet (modify fun s => s.setPgdir pgdir : FsM Unit) := stable_quiet |>.setPgdir pgdir

theorem quiet_inodeSync (ino : Inode) : Keeps Quiet (inodeSync ino) := stable_quiet |>.inodeSync ino

theorem quiet_inodeBitmapSet (i : Nat) (v : Bool) : Keeps Quiet (inodeBitmapSet i v) :=
  stable_quiet |>.inodeBitmapSet i v

theorem quiet_inodeBitmapAlloc : Keeps Quiet inodeBitmapAlloc := stable_quiet |>.inodeBitmapAlloc

theorem quiet_bitmapSync (i : Nat) (btmp : BitmapType) : Keeps Quiet (bitmapSync i btmp) :=
  stable_quiet |>.bitmapSync i btmp

theorem quiet_inodeOpen (n : UInt32) : Keeps Quiet (inodeOpen n) :=
  stable_quiet.inodeOpen Quiet.countUp Quiet.pushInode n

theorem quiet_inodeClose (p : Ptr) : Keeps Quiet (inodeClose p) := by
  refine stable_quiet.inodeClose (fun s p => Quiet.setInode s rfl) (fun s p => ?_) p
  exact ⟨⟨rfl, rfl, le_rfl, fun _ _ => rfl, fun q hq => .inl (List.mem_of_mem_erase hq)⟩, rfl,
    rfl, rfl⟩

theorem stableRefs_quiet : StableRefs Quiet where
  toStable := stable_quiet
  inodeOpen := quiet_inodeOpen
  inodeClose := quiet_inodeClose
  pushDir s _ := ⟨Steady.of_eq s rfl rfl rfl rfl rfl, rfl, rfl, rfl⟩

theorem quiet_dirClose (d : DirPtr) : Keeps Quiet (dirClose d) := stableRefs_quiet |>.dirClose d

theorem quiet_searchFile (p : Path) : Keeps Quiet (searchFile p) := stableRefs_quiet |>.searchFile p

private theorem quiet_writeEntry (p : Ptr) (lba : UInt32) (buf : Bytes) (k : Nat) (de : Bytes) :
    Keeps Quiet (writeEntry p lba buf k de) :=
  (stable_quiet |>.ideWrite _ _ _).bind fun _ => Keeps.modify fun s => Quiet.setInode s rfl

theorem quiet_syncDirEntry (d : DirPtr) (de : Bytes) : Keeps Quiet (syncDirEntry d de) :=
  stable_quiet |>.syncDirEntry (.self _) (fun p lba buf k => quiet_writeEntry p lba buf k de) d

end Functions

end Aitos.Fs
