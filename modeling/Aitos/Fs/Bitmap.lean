import Aitos.Framework.Bits
import Aitos.Fs.Inode

/-!
# The two bitmaps and `inode_release`

A bitmap is kept as its bits.  `bitmap_sync` packs the sector a bit lies in and writes it.
-/

namespace Aitos.Fs

open Framework

/-- `bitmap_scan` for one bit of a bitmap of `n` bits -/
def bitmapScan (b : Nat → Bool) (n : Nat) : FsM (Option Nat) := do
  let r := firstClear b 0 n
  assert (r.isSome = true)
  return r

def State.blockBits (s : State) : Nat := 4096 * s.part.sb.blockBitmapSects.toNat

def State.inodeBits (s : State) : Nat := 4096 * s.part.sb.inodeBitmapSects.toNat

@[simps -fullyApplied]
def State.setBlockBit (s : State) (i : Nat) (v : Bool) : State :=
  { s with blockBitmap := Function.update s.blockBitmap i v }

@[simps -fullyApplied]
def State.setInodeBit (s : State) (i : Nat) (v : Bool) : State :=
  { s with inodeBitmap := Function.update s.inodeBitmap i v }

/-- `bitmap_set` on `block_bitmap`; a bit beyond the bitmap is other memory. -/
def blockBitmapSet (i : Nat) (v : Bool) : FsM Unit := do
  let s ← get
  require (i < s.blockBits) .outOfBounds
  modify fun s => s.setBlockBit i v

/-- `bitmap_set` on `inode_bitmap` -/
def inodeBitmapSet (i : Nat) (v : Bool) : FsM Unit := do
  let s ← get
  require (i < s.inodeBits) .outOfBounds
  modify fun s => s.setInodeBit i v

def inodeBitmapAlloc : FsM (Option UInt32) := do
  let s ← get
  match ← bitmapScan s.inodeBitmap s.inodeBits with
  | none => return none
  | some index =>
      inodeBitmapSet index true
      return some (UInt32.ofNat index)

def blockBitmapAlloc : FsM (Option UInt32) := do
  let s ← get
  match ← bitmapScan s.blockBitmap s.blockBits with
  | none => return none
  | some index =>
      blockBitmapSet index true
      return some (s.part.sb.dataStartLba + UInt32.ofNat index)

/-- Byte `i` of a bitmap -/
def packByte (b : Nat → Bool) (i : Nat) : UInt8 :=
  UInt8.ofNat ((List.range 8).foldl (fun n k => if b (8 * i + k) then n + 2 ^ k else n) 0)

inductive BitmapType where
  | inodeBitmap
  | blockBitmap

/-- The sector of the bitmap that bit `bitIdx` lies in goes to the disk. -/
def bitmapSync (bitIdx : Nat) (btmp : BitmapType) : FsM Unit := do
  let s ← get
  let offSec := bitIdx / 4096
  let offSize := 512 * offSec
  match btmp with
  | .inodeBitmap =>
      ideWrite (s.part.sb.inodeBitmapLba + UInt32.ofNat offSec)
        (fun i => packByte s.inodeBitmap (offSize + i)) 1
  | .blockBitmap =>
      ideWrite (s.part.sb.blockBitmapLba + UInt32.ofNat offSec)
        (fun i => packByte s.blockBitmap (offSize + i)) 1

/-- `block_bitmap_idx` of a sector -/
def State.blockIdx (s : State) (lba : UInt32) : Nat := (lba - s.part.sb.dataStartLba).toNat

/-- Give a block back, in memory and on the disk. -/
def releaseBlock (lba : UInt32) : FsM Unit := do
  let s ← get
  blockBitmapSet (s.blockIdx lba) false
  bitmapSync (s.blockIdx lba) .blockBitmap

/-- `all_blocks`: the twelve direct blocks and, if there is a table, the blocks it lists -/
def Inode.allBlocks (ino : Inode) (disk : Bytes) (i : Nat) : UInt32 :=
  if i < 12 then ino.iSectors i
  else if i < 140 ∧ ino.iSectors 12 ≠ 0 then
    disk.word (512 * (ino.iSectors 12).toNat + 4 * (i - 12))
  else 0

/-- Release the blocks from index `i` on. -/
def releaseBlocks (blocks : Nat → UInt32) (i : Nat) : Nat → FsM Unit
  | 0 => return
  | n + 1 => do
      if blocks i ≠ 0 then
        let s ← get
        assert (0 < s.blockIdx (blocks i))
        releaseBlock (blocks i)
        releaseBlocks blocks (i + 1) n
      else
        releaseBlocks blocks (i + 1) n

/-- Release the blocks of an inode, its indirect table first. -/
def Inode.releaseAll (ino : Inode) : FsM Unit := do
  let s ← get
  let blocks := ino.allBlocks s.disk
  if ino.iSectors 12 ≠ 0 then
    releaseBlock (ino.iSectors 12)
    releaseBlocks blocks 0 140
  else
    releaseBlocks blocks 0 12

def inodeRelease (inodeNo : UInt32) : FsM Unit := do
  let p ← inodeOpen inodeNo
  let s ← get
  assert ((s.inode p).iNo = inodeNo)
  (s.inode p).releaseAll
  inodeBitmapSet inodeNo.toNat false
  bitmapSync inodeNo.toNat .inodeBitmap
  let ioBuf ← sysMalloc
  require (ioBuf = true) .nullDeref
  inodeDelete inodeNo
  sysFree
  inodeClose p

end Aitos.Fs
