import Aitos.Fs.State

/-!
# Inodes

`fs/inode.c` up to `inode_delete`.  An inode is 76 bytes, nineteen words; the inode table packs
them without regard to sector boundaries.
-/

namespace Aitos.Fs

open Framework

/-- `sizeof(struct inode)` -/
def inodeSize : Nat := 76

/-- `struct inode_position` -/
structure InodePosition where
  twoSec : Bool
  secLba : UInt32
  offSize : UInt32

/-- Where the inode is, and whether it reaches the end of its first sector. -/
def inodePosition (sb : SuperBlock) (inodeNo : UInt32) : InodePosition :=
  let offSize := inodeNo * 76
  let offSec := offSize / 512
  let offSizeInSec := offSize % 512
  let leftInSector := 512 - offSizeInSec
  ⟨if leftInSector > 76 then false else true, sb.inodeTableLba + offSec, offSizeInSec⟩

def inodeLocate (inodeNo : UInt32) : FsM InodePosition := do
  assert (inodeNo < 4096)
  let s ← get
  return inodePosition s.part.sb inodeNo

def InodePosition.sectors (pos : InodePosition) : Nat := if pos.twoSec then 2 else 1

/-- The words of the inode as they go to the disk, `i_open_cnts`, `write_deny` and the two
pointers of `inode_tag` cleared. -/
def Inode.words (ino : Inode) (k : Nat) : UInt32 :=
  if k = 0 then ino.iNo
  else if k = 1 then ino.iSize
  else if 4 ≤ k ∧ k < 17 then ino.iSectors (k - 4)
  else 0

def Inode.pureImage (ino : Inode) : Bytes := Bytes.ofWords ino.words

/-- The `struct inode` at the start of a buffer. -/
def Inode.ofBytes (b : Bytes) : Inode where
  iNo := b.word 0
  iSize := b.word 4
  iOpenCnts := (b.word 8).toNat
  writeDeny := b.word 12 ≠ 0
  iSectors j := if j < 13 then b.word (16 + 4 * j) else 0

/-- `inode_sync`.  The number is kept in a `uint8_t`. -/
def inodeSync (ino : Inode) : FsM Unit := do
  let inodeNo := ino.iNo.toUInt8.toUInt32
  let pos ← inodeLocate inodeNo
  let s ← get
  assert (pos.secLba ≤ s.part.startLba + s.part.secCnt)
  let inodeBuf ← ideRead pos.secLba Bytes.zero pos.sectors
  ideWrite pos.secLba (inodeBuf.blit pos.offSize.toNat inodeSize ino.pureImage) pos.sectors

@[simps -fullyApplied]
def State.setInode (s : State) (p : Ptr) (ino : Inode) : State :=
  { s with inode := Function.update s.inode p ino }

/-- A new in-memory inode at the head of `open_inode`. -/
@[simps -fullyApplied]
def State.pushInode (s : State) (ino : Inode) : State :=
  { s with
    inode := Function.update s.inode s.nextInode ino
    nextInode := s.nextInode + 1
    openInode := s.nextInode :: s.openInode }

def State.findInode (s : State) (inodeNo : UInt32) : Option Ptr :=
  s.openInode.find? fun p => (s.inode p).iNo = inodeNo

def State.countUp (s : State) (p : Ptr) : State :=
  s.setInode p { s.inode p with iOpenCnts := (s.inode p).iOpenCnts + 1 }

/-- The first reference to an inode read from the disk. -/
def Inode.opened (ino : Inode) : Inode := { ino with iOpenCnts := 1 }

def inodeOpen (inodeNo : UInt32) : FsM Ptr := do
  let s ← get
  match s.findInode inodeNo with
  | some p =>
      modify fun s => s.countUp p
      return p
  | none =>
      let pos ← inodeLocate inodeNo
      let inodeFound ← inKernelHeap sysMalloc
      let inodeBuf ← sysMalloc
      require (inodeBuf = true) .nullDeref
      let buf ← ideRead pos.secLba Bytes.zero pos.sectors
      require (inodeFound = true) .nullDeref
      let p := (← get).nextInode
      modify fun s => s.pushInode (Inode.ofBytes (buf.drop pos.offSize.toNat)).opened
      sysFree
      return p

/-- `--i_open_cnts` on an unsigned counter -/
def Inode.countDown (ino : Inode) : Inode :=
  { ino with iOpenCnts := if ino.iOpenCnts = 0 then 2 ^ 32 - 1 else ino.iOpenCnts - 1 }

def inodeClose (p : Ptr) : FsM Unit := do
  modify fun s => s.setInode p (s.inode p).countDown
  let s ← get
  if (s.inode p).iOpenCnts = 0 then
    modify fun s => { s with openInode := s.openInode.erase p }
    inKernelHeap sysFree

def inodeInit (inodeNo : UInt32) : Inode where
  iNo := inodeNo
  iSize := 0
  iOpenCnts := 0
  writeDeny := false
  iSectors _ := 0

def inodeDelete (inodeNo : UInt32) : FsM Unit := do
  assert (inodeNo < 4096)
  let pos ← inodeLocate inodeNo
  let s ← get
  assert (pos.secLba ≤ s.part.startLba + s.part.secCnt)
  let inodeBuf ← ideRead pos.secLba Bytes.zero pos.sectors
  ideWrite pos.secLba (inodeBuf.fill pos.offSize.toNat inodeSize 0) pos.sectors

end Aitos.Fs
