import Aitos.Fs.Syscall

/-!
# Reading and positioning

`file_read` of `fs/file.c`, `sys_read` and `sys_lseek` of `fs/fs.c`.  A read returns its result
together with the bytes it has stored into the caller's buffer.
-/

namespace Aitos.Fs

open Framework

/-- `all_blocks` of `file_read`, for the blocks from `start` to `stop`. -/
def readBlocks (ino : Inode) (disk : Bytes) (start stop : Nat) : FsM (Nat → UInt32) :=
  let direct (last : Nat) : Nat → UInt32 :=
    fun i => if start ≤ i ∧ i ≤ last then ino.iSectors i else 0
  if stop = start then
    if stop < 12 then return direct start
    else return tableBlocks disk (ino.iSectors 12) noBlocks
  else if stop < 12 then return direct stop
  else do
    assert (ino.iSectors 12 ≠ 0)
    if start < 12 ∧ 12 < stop then
      return tableBlocks disk (ino.iSectors 12) (direct 12)
    else return tableBlocks disk (ino.iSectors 12) noBlocks

/-- The bytes `memcpy` takes from a buffer. -/
def takeBytes (buf : Bytes) (off n : Nat) : List UInt8 := (List.range n).map fun i => buf (off + i)

/-- The loop that reads the data, sector by sector; `all_blocks` has 140 entries. -/
def readLoop (fd : Nat) (blocks : Nat → UInt32) (size : UInt32) :
    Nat → List UInt8 → UInt32 → FsM (UInt32 × List UInt8)
  | 0, _, _ => fault .diverge
  | n + 1, stored, bytesRead =>
      if size ≤ bytesRead then return (bytesRead, stored)
      else do
        let s ← get
        let pos := (s.fileTable fd).fdPos
        let secIdx := (pos / 512).toNat
        require (secIdx < 140) .outOfBounds
        let secOffBytes := pos % 512
        let secLeftBytes := 512 - secOffBytes
        let sizeLeft := size - bytesRead
        let chunk := if sizeLeft > secLeftBytes then secLeftBytes else sizeLeft
        let ioBuf ← ideRead (blocks secIdx) Bytes.zero 1
        modify fun s => s.setFile fd { s.fileTable fd with fdPos := (s.fileTable fd).fdPos + chunk }
        readLoop fd blocks size n (stored ++ takeBytes ioBuf secOffBytes.toNat chunk.toNat)
          (bytesRead + chunk)

/-- `file_read` from the point where the size is settled -/
def readSize (fd : Nat) (p : Ptr) (size : UInt32) : FsM (Option UInt32 × List UInt8) := do
  let ioBuf ← sysMalloc
  if ioBuf = false then return (none, [])
  else
    let allBlocks ← sysMalloc
    if allBlocks = false then return (none, [])
    else
      let s ← get
      let pos := (s.fileTable fd).fdPos
      let start := (pos / 512).toNat
      let stop := ((pos + size) / 512).toNat
      assert (start < 139 ∧ stop < 139)
      let blocks ← readBlocks (s.inode p) s.disk start stop
      let (bytesRead, stored) ← readLoop fd blocks size 142 [] 0
      sysFree
      sysFree
      return (some bytesRead, stored)

def fileRead (fd : Nat) (count : UInt32) : FsM (Option UInt32 × List UInt8) := do
  let s ← get
  match (s.fileTable fd).fdInode with
  | none => fault .nullDeref
  | some p =>
      let pos := (s.fileTable fd).fdPos
      if pos + count > (s.inode p).iSize then
        if (s.inode p).iSize - pos = 0 then return (none, [])
        else readSize fd p ((s.inode p).iSize - pos)
      else readSize fd p count

/-- `sys_read`; `hasBuf` says that `buf` is not `NULL`, and `typed` is what `ioq_getchar` will return
from the keyboard. -/
def sysRead (fd : Int) (hasBuf : Bool) (typed : Nat → UInt8) (count : UInt32) :
    FsM (Option UInt32 × List UInt8) := do
  assert (hasBuf = true)
  if fd < 0 ∨ fd = 1 ∨ fd = 2 then return (none, [])
  else if fd = 0 then
    return (if count = 0 then none else some count, (List.range count.toNat).map typed)
  else do
    let i ← fdLocal2global fd.toNat
    fileRead i count

def seekSet : UInt8 := 1
def seekCur : UInt8 := 2
def seekEnd : UInt8 := 3

/-- `new_pos` of `sys_lseek`, in 32-bit signed arithmetic -/
def seekTarget (fdPos fileSize : UInt32) (offset : Int32) (whence : UInt8) : Int32 :=
  if whence = seekSet then offset
  else if whence = seekCur then fdPos.toInt32 + offset
  else if whence = seekEnd then fileSize.toInt32 + offset
  else 0

def sysLseek (fd : Int) (offset : Int32) (whence : UInt8) : FsM (Option UInt32) :=
  if fd < 0 then return none
  else do
    assert (0 < whence ∧ whence < 4)
    let i ← fdLocal2global fd.toNat
    let s ← get
    match (s.fileTable i).fdInode with
    | none => fault .nullDeref
    | some p =>
        let fileSize := (s.inode p).iSize
        let newPos := seekTarget (s.fileTable i).fdPos fileSize offset whence
        if newPos < 0 ∨ fileSize.toInt32 + 1 < newPos then return none
        else
          modify fun s => s.setFile i { s.fileTable i with fdPos := newPos.toUInt32 }
          return some newPos.toUInt32

end Aitos.Fs
