import Aitos.Framework.Bytes
import Aitos.Framework.Hoare

/-!
# The state of the file system

The mounted partition with its two bitmaps, the in-memory inodes and the list `open_inode`, the
`struct dir` handles, `file_table` and what each process keeps of them.  In-memory objects are
named by pointers that are never given out twice.  The disk is a map from addresses to bytes;
sector `lba` is the 512 bytes from `512 * lba` on.
-/

namespace Aitos.Fs

open Framework

abbrev Ptr := Nat
abbrev DirPtr := Nat
abbrev Pid := Nat

/-- How a call can stop instead of returning. -/
inductive Halt where
  | assertion
  | nullDeref
  | outOfBounds
  | uninitialised
  | diverge
  deriving DecidableEq, Repr

/-- `max_lba` of the disk driver -/
def maxLba : UInt32 := 80 * 1024 * 1024 / 512 - 1

theorem toNat_maxLba : maxLba.toNat = 163839 := by decide

/-- The places of `struct super_block`. -/
structure SuperBlock where
  blockBitmapLba : UInt32
  blockBitmapSects : UInt32
  inodeBitmapLba : UInt32
  inodeBitmapSects : UInt32
  inodeTableLba : UInt32
  dataStartLba : UInt32
  deriving DecidableEq, Repr

/-- The regions of a partition: boot sector, super block, the two bitmaps, the inode table and
the data, in this order and inside the partition, which lies on the disk.  Every bit of the block
bitmap denotes a 32-bit sector number. -/
structure Layout (startLba secCnt : UInt32) (sb : SuperBlock) : Prop where
  start : 0 < startLba.toNat
  fits : startLba.toNat + secCnt.toNat ≤ maxLba.toNat + 1
  blockBitmap : startLba.toNat + 2 ≤ sb.blockBitmapLba.toNat
  inodeBitmap : sb.blockBitmapLba.toNat + sb.blockBitmapSects.toNat ≤ sb.inodeBitmapLba.toNat
  inodeBits : sb.inodeBitmapSects.toNat = 1
  inodeTable : sb.inodeBitmapLba.toNat + 1 ≤ sb.inodeTableLba.toNat
  tableFits : sb.inodeTableLba.toNat + 608 ≤ startLba.toNat + secCnt.toNat
  data : sb.inodeTableLba.toNat + 608 ≤ sb.dataStartLba.toNat
  blocks : sb.dataStartLba.toNat + 4096 * sb.blockBitmapSects.toNat < 2 ^ 32

theorem Layout.small {startLba secCnt : UInt32} {sb : SuperBlock} (h : Layout startLba secCnt sb) :
    startLba.toNat + secCnt.toNat < 2 ^ 32 := by
  have hfits := h.fits
  have hmax := toNat_maxLba
  omega

/-- `struct partition` with its super block. -/
structure Partition where
  startLba : UInt32
  secCnt : UInt32
  sb : SuperBlock
  layout : Layout startLba secCnt sb

/-- `struct inode`.  `inode_tag` is the place in the list `open_inode`.  Each count of
`i_open_cnts` is a reference held by an object in memory, so it does not overflow. -/
structure Inode where
  iNo : UInt32
  iSize : UInt32
  iOpenCnts : Nat
  writeDeny : Bool
  /-- `i_sectors[13]` -/
  iSectors : Nat → UInt32

/-- `struct file` -/
structure File where
  fdPos : UInt32
  fdFlag : UInt32
  fdInode : Option Ptr
  deriving DecidableEq, Repr

/-- `struct dir`; `root_dir` is the handle `0`. -/
structure Dir where
  inode : Ptr
  dirPos : UInt32

/-- The heaps as the file system sees them.  `sys_malloc` and `sys_free` work on the kernel's heap
when `pgdir` of the running thread is `NULL`, and on that of its process otherwise. -/
structure Memory where
  /-- which calls of `sys_malloc` succeed -/
  serve : Nat → Bool
  /-- which of them make an arena for their block -/
  fresh : Nat → Bool
  /-- `pgdir` of the threads, 0 for `NULL` -/
  pgdir : Pid → Nat
  calls : Nat
  /-- the live blocks of all heaps -/
  live : Nat
  /-- those of the kernel's heap -/
  kernel : Nat
  /-- pages of one heap that were given back as the other's: the frame is free, the bit of the page
  in its bitmap of addresses stays -/
  lost : Nat

/-- What `sys_free` depends on: the heap of the block, and whether it is alone in its arena. -/
structure Block where
  kernel : Bool
  alone : Bool

structure State where
  /-- the build leaves the assertions out -/
  ndebug : Bool
  part : Partition
  disk : Bytes
  blockBitmap : Nat → Bool
  inodeBitmap : Nat → Bool
  /-- the in-memory inodes, live or freed -/
  inode : Ptr → Inode
  nextInode : Ptr
  openInode : List Ptr
  dir : DirPtr → Dir
  nextDir : DirPtr
  fileTable : Nat → File
  cur : Pid
  procs : List Pid
  fdTable : Pid → Nat → Option Nat
  cwdInodeNr : Pid → UInt32
  mem : Memory
  /-- the inode a descriptor was opened on -/
  fdOrigin : Pid → Nat → Option Ptr

abbrev FsM := Code State Halt

def maxFileOpen : Nat := 32
def maxFilesOpenPerProc : Nat := 8

def fault {α : Type} (h : Halt) : FsM α := throw h

/-- `ASSERT` -/
def assert (c : Prop) [Decidable c] : FsM Unit := do
  let s ← get
  if s.ndebug = true ∨ c then pure () else fault .assertion

/-- What the next statement relies on without checking it. -/
def require (c : Prop) [Decidable c] (h : Halt) : FsM Unit := if c then pure () else fault h

/-- The assertion with which the driver starts each transfer. -/
def assertLba (lba : UInt32) : FsM Unit := assert (lba ≤ maxLba)

/-- Read `n` sectors into a buffer.  The partition lies on the disk and so do the blocks in use, so
the assertion of the driver is left to `file_write`, where blocks come into use. -/
def ideRead (lba : UInt32) (buf : Bytes) (n : Nat) : FsM Bytes := do
  let s ← get
  return buf.blit 0 (512 * n) (s.disk.drop (512 * lba.toNat))

@[simps -fullyApplied]
def State.writeSectors (s : State) (lba : UInt32) (buf : Bytes) (n : Nat) : State :=
  { s with disk := s.disk.blit (512 * lba.toNat) (512 * n) buf }

/-- Write `n` sectors from a buffer, with the assertion left to `file_write` as above. -/
def ideWrite (lba : UInt32) (buf : Bytes) (n : Nat) : FsM Unit :=
  modify fun s => s.writeSectors lba buf n

@[simps -fullyApplied]
def State.setMem (s : State) (m : Memory) : State := { s with mem := m }

/-- The heaps after one more request to the kernel's or to a process's. -/
def Memory.malloc (m : Memory) (kernel : Bool) : Memory :=
  { m with
    calls := m.calls + 1
    live := if m.serve m.calls then m.live + 1 else m.live
    kernel := if m.serve m.calls && kernel then m.kernel + 1 else m.kernel }

/-- The heaps after `b` was given back to the kernel's or to a process's. -/
def Memory.free (m : Memory) (kernel : Bool) (b : Block) : Memory :=
  { m with
    live := m.live - 1
    kernel := if b.kernel then m.kernel - 1 else m.kernel
    lost := if b.alone && b.kernel ≠ kernel then m.lost + 1 else m.lost }

/-- The running thread is served from the kernel's heap. -/
def State.kernelHeap (s : State) : Bool := s.mem.pgdir s.cur = 0

/-- The block that the next request returns. -/
def State.heapBlock (s : State) : Block := ⟨s.kernelHeap, s.mem.fresh s.mem.calls⟩

def State.malloc (s : State) : Memory := s.mem.malloc s.kernelHeap

def State.free (s : State) : Memory := s.mem.free s.kernelHeap ⟨s.kernelHeap, false⟩

/-- Whether `sys_malloc` returned a block. -/
def sysMalloc : FsM Bool := do
  let s ← get
  set (s.setMem s.malloc)
  return s.mem.serve s.mem.calls

/-- `sys_free` of a block of the heap that serves the running thread -/
def sysFree : FsM Unit := modify fun s => s.setMem s.free

/-- `sys_free` of any block.  Without `pgdir` it asserts that the block is the kernel's. -/
def sysFreeBlock (b : Block) : FsM Unit := do
  let s ← get
  assert (s.kernelHeap = true → b.kernel = true)
  modify fun s => s.setMem (s.mem.free s.kernelHeap b)

def State.setPgdir (s : State) (pgdir : Nat) : State :=
  s.setMem { s.mem with pgdir := Function.update s.mem.pgdir s.cur pgdir }

/-- A call for the kernel's heap: `pgdir` is saved, `NULL` during the call and restored. -/
def inKernelHeap {α : Type} (c : FsM α) : FsM α := do
  let pgdirBak := (← get).mem.pgdir (← get).cur
  modify fun s => s.setPgdir 0
  let a ← c
  modify fun s => s.setPgdir pgdirBak
  return a

/-- The smallest partitions in use here: 700 sectors, 88 of them for data. -/
def smallPartition : Partition where
  startLba := 1
  secCnt := 700
  sb := ⟨3, 1, 4, 1, 5, 613⟩
  layout := ⟨by decide, by decide, by decide, by decide, by decide, by decide, by decide, by decide,
    by decide⟩

/-- A partition in memory before anything was opened; process `0` runs. -/
def State.fresh (part : Partition) (disk : Bytes) : State where
  ndebug := false
  part := part
  disk := disk
  blockBitmap := fun _ => false
  inodeBitmap := fun _ => false
  inode := fun _ => ⟨0, 0, 0, false, fun _ => 0⟩
  nextInode := 1
  openInode := []
  dir := fun _ => ⟨0, 0⟩
  nextDir := 1
  fileTable := fun _ => ⟨0, 0, none⟩
  cur := 0
  procs := [0]
  fdTable := fun _ fd => if fd < 3 then some fd else none
  cwdInodeNr := fun _ => 0
  mem :=
    { serve := fun _ => true
      fresh := fun _ => false
      pgdir := fun _ => 0
      calls := 0
      live := 0
      kernel := 0
      lost := 0 }
  fdOrigin := fun _ _ => none

section Inversion

variable {s s' : State}

@[simp]
theorem fault_ok {α : Type} {h : Halt} {a : α} : fault h s = .ok (a, s') ↔ False := Code.throw_ok

@[simp]
theorem assert_ok {c : Prop} [Decidable c] {u : Unit} :
    assert c s = .ok (u, s') ↔ s' = s ∧ (s.ndebug = true ∨ c) := by
  by_cases hc : s.ndebug = true ∨ c <;> simp [assert, hc]

@[simp]
theorem assertLba_ok {lba : UInt32} {u : Unit} :
    assertLba lba s = .ok (u, s') ↔ s' = s ∧ (s.ndebug = true ∨ lba ≤ maxLba) := assert_ok

@[simp]
theorem require_ok {c : Prop} [Decidable c] {h : Halt} {u : Unit} :
    require c h s = .ok (u, s') ↔ s' = s ∧ c := by
  rw [require]
  by_cases hc : c <;> simp [hc]

@[simp]
theorem ideRead_ok {lba : UInt32} {buf b : Bytes} {n : Nat} :
    ideRead lba buf n s = .ok (b, s') ↔
      b = buf.blit 0 (512 * n) (s.disk.drop (512 * lba.toNat)) ∧ s' = s := by
  simp [ideRead, and_comm]

@[simp]
theorem ideWrite_ok {lba : UInt32} {buf : Bytes} {n : Nat} {u : Unit} :
    ideWrite lba buf n s = .ok (u, s') ↔ s' = s.writeSectors lba buf n := Code.modify_ok

@[simp]
theorem sysFree_ok {u : Unit} : sysFree s = .ok (u, s') ↔ s' = s.setMem s.free := Code.modify_ok

@[simp]
theorem sysMalloc_ok {ok : Bool} :
    sysMalloc s = .ok (ok, s') ↔ ok = s.mem.serve s.mem.calls ∧ s' = s.setMem s.malloc := by
  constructor
  · intro h
    cases h
    exact ⟨rfl, rfl⟩
  · rintro ⟨rfl, rfl⟩
    rfl

@[simp]
theorem sysFreeBlock_ok {b : Block} {u : Unit} : sysFreeBlock b s = .ok (u, s') ↔
    s' = s.setMem (s.mem.free s.kernelHeap b) ∧
      (s.ndebug = true ∨ (s.kernelHeap = true → b.kernel = true)) := by
  simp only [sysFreeBlock, Code.get_bind, Code.bind_ok, assert_ok, Code.modify_ok]
  constructor
  · rintro ⟨_, _, ⟨rfl, h⟩, rfl⟩
    exact ⟨rfl, h⟩
  · rintro ⟨rfl, h⟩
    exact ⟨(), s, ⟨rfl, h⟩, rfl⟩

theorem setPgdir_malloc (s : State) :
    ((s.setPgdir 0).setMem (s.setPgdir 0).malloc).setPgdir (s.mem.pgdir s.cur) =
      s.setMem (s.mem.malloc true) := by
  simp [State.setPgdir, State.setMem, State.malloc, State.kernelHeap, Memory.malloc]
  rfl

private theorem setPgdir_free (s : State) :
    ((s.setPgdir 0).setMem (s.setPgdir 0).free).setPgdir (s.mem.pgdir s.cur) =
      s.setMem (s.mem.free true ⟨true, false⟩) := by
  simp [State.setPgdir, State.setMem, State.free, State.kernelHeap, Memory.free]

@[simp]
theorem inKernelHeap_sysMalloc_ok {ok : Bool} : inKernelHeap sysMalloc s = .ok (ok, s') ↔
    ok = s.mem.serve s.mem.calls ∧ s' = s.setMem (s.mem.malloc true) := by
  simp only [inKernelHeap, Code.get_bind, Code.modify_bind, Code.bind_ok, sysMalloc_ok,
    Code.pure_ok]
  constructor
  · rintro ⟨_, _, ⟨rfl, rfl⟩, rfl, rfl⟩
    exact ⟨rfl, setPgdir_malloc s⟩
  · rintro ⟨rfl, rfl⟩
    exact ⟨_, _, ⟨rfl, rfl⟩, rfl, (setPgdir_malloc s).symm⟩

@[simp]
theorem inKernelHeap_sysFree_ok {u : Unit} : inKernelHeap sysFree s = .ok (u, s') ↔
    s' = s.setMem (s.mem.free true ⟨true, false⟩) := by
  simp only [inKernelHeap, Code.get_bind, Code.modify_bind, Code.bind_ok, sysFree_ok, Code.pure_ok]
  constructor
  · rintro ⟨_, _, rfl, -, rfl⟩
    exact setPgdir_free s
  · rintro rfl
    exact ⟨(), _, rfl, trivial, (setPgdir_free s).symm⟩

end Inversion

end Aitos.Fs
