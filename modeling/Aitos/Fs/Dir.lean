import Aitos.Fs.Path

/-!
# Directories

`fs/dir.c`.  A directory is the sequence of its blocks, each with 21 entries of 24 bytes.
-/

namespace Aitos.Fs

open Framework

def ftUnknown : UInt32 := 0
def ftRegular : UInt32 := 1
def ftDirectory : UInt32 := 2

/-- `struct dir_entry` without the name -/
structure DirEntry where
  iNo : UInt32
  fType : UInt32
  deriving DecidableEq, Repr

/-- `SECTOR_SIZE / dir_entry_size` -/
def entriesPerSec : Nat := 21

/-- The name of entry `k` of a sector, as `strcmp` reads it: sixteen characters and what follows
when none of them is NUL. -/
def entryName (buf : Bytes) (k : Nat) : List UInt8 := cstr (buf.drop (24 * k)) (512 - 24 * k)

def entryAt (buf : Bytes) (k : Nat) : DirEntry := ⟨buf.word (24 * k + 16), buf.word (24 * k + 20)⟩

/-- The entry as it is written: the name, padded, the number and the type. -/
def entryImage (filename : List UInt8) (iNo fType : UInt32) : Bytes :=
  ((storeName Bytes.zero filename).blit 16 4 (Bytes.ofWord iNo)).blit 20 4 (Bytes.ofWord fType)

def createDirEntry (filename : List UInt8) (inodeNo fType : UInt32) : FsM Bytes := do
  assert (filename.length ≤ 16)
  return entryImage filename inodeNo fType

@[simps -fullyApplied]
def State.pushDir (s : State) (p : Ptr) : State :=
  { s with dir := Function.update s.dir s.nextDir ⟨p, 0⟩, nextDir := s.nextDir + 1 }

def rootDir : DirPtr := 0

def dirOpen (inodeNo : UInt32) : FsM DirPtr := do
  let pdir ← sysMalloc
  let p ← inodeOpen inodeNo
  require (pdir = true) .nullDeref
  let d := (← get).nextDir
  modify fun s => s.pushDir p
  return d

def dirClose (d : DirPtr) : FsM Unit :=
  if d = rootDir then return
  else do
    let s ← get
    inodeClose (s.dir d).inode
    sysFree

/-- The entry called `name` among the `n` entries of a sector from entry `k` on. -/
def findEntry (buf : Bytes) (name : List UInt8) (k : Nat) : Nat → Option DirEntry
  | 0 => none
  | n + 1 => if entryName buf k = name then some (entryAt buf k) else findEntry buf name (k + 1) n

/-- Look for `name` in the blocks from index `i` on. -/
def searchBlocks (disk : Bytes) (blocks : Nat → UInt32) (name : List UInt8) (i : Nat) :
    Nat → Option DirEntry
  | 0 => none
  | n + 1 =>
      if blocks i = 0 then searchBlocks disk blocks name (i + 1) n
      else
        match findEntry (Bytes.zero.blit 0 512 (disk.drop (512 * (blocks i).toNat))) name 0
            entriesPerSec with
        | some e => some e
        | none => searchBlocks disk blocks name (i + 1) n

/-- The search of `search_dir_entry` in the directory inode `ino` -/
def Inode.lookup (ino : Inode) (disk : Bytes) (name : List UInt8) : Option DirEntry :=
  searchBlocks disk (ino.allBlocks disk) name 0 140

def searchDirEntry (pdir : DirPtr) (name : List UInt8) : FsM (Option DirEntry) := do
  let allBlocks ← sysMalloc
  if allBlocks = false then return none
  else
    let buf ← sysMalloc
    require (buf = true) .nullDeref
    let s ← get
    sysFree
    sysFree
    return (s.inode (s.dir pdir).inode).lookup s.disk name

def State.setSector (s : State) (p : Ptr) (i : Nat) (lba : UInt32) : State :=
  s.setInode p { s.inode p with iSectors := Function.update (s.inode p).iSectors i lba }

def State.setSize (s : State) (p : Ptr) (n : UInt32) : State :=
  s.setInode p { s.inode p with iSize := n }

/-- Entry `de` goes to the sector `lba`, whose other bytes are `buf`, at entry `k`. -/
def writeEntry (p : Ptr) (lba : UInt32) (buf : Bytes) (k : Nat) (de : Bytes) : FsM Unit := do
  ideWrite lba (buf.blit (24 * k) 24 de) 1
  modify fun s => s.setSize p ((s.inode p).iSize + 24)

/-- A new block for the entry, at index `i` of the directory. -/
def growDir (p : Ptr) (de : Bytes) (blocks : Nat → UInt32) (i : Nat) : FsM Bool := do
  match ← blockBitmapAlloc with
  | none => return false
  | some lba =>
      let s ← get
      assert (s.blockIdx lba ≠ 2 ^ 32 - 1)
      bitmapSync (s.blockIdx lba) .blockBitmap
      if i < 12 then
        modify fun s => s.setSector p i lba
        writeEntry p lba Bytes.zero 0 de
        return true
      else if i = 12 then
        modify fun s => s.setSector p 12 lba
        match ← blockBitmapAlloc with
        | none =>
            blockBitmapSet (s.blockIdx lba) false
            modify fun s => s.setSector p 12 0
            return false
        | some lba' =>
            assert (s.blockIdx lba' ≠ 2 ^ 32 - 1)
            bitmapSync (s.blockIdx lba') .blockBitmap
            ideWrite lba (Bytes.ofWords fun k => Function.update blocks i lba' (12 + k)) 1
            writeEntry p lba' Bytes.zero 0 de
            return true
      else
        ideWrite ((s.inode p).iSectors 12)
          (Bytes.ofWords fun k => Function.update blocks i lba (12 + k)) 1
        writeEntry p lba Bytes.zero 0 de
        return true

/-- The first free entry of a sector. -/
def freeEntry (buf : Bytes) (k : Nat) : Nat → Option Nat
  | 0 => none
  | n + 1 => if (entryAt buf k).fType = ftUnknown then some k else freeEntry buf (k + 1) n

/-- The loop of `sync_dir_entry` from block `i` on. -/
def syncLoop (p : Ptr) (de : Bytes) (blocks : Nat → UInt32) (i : Nat) : Nat → FsM Bool
  | 0 => return false
  | n + 1 =>
      if blocks i = 0 then growDir p de blocks i
      else do
        let buf ← ideRead (blocks i) Bytes.zero 1
        match freeEntry buf 0 entriesPerSec with
        | some k =>
            writeEntry p (blocks i) buf k de
            return true
        | none => syncLoop p de blocks (i + 1) n

/-- `sync_dir_entry`.  Of the blocks it collects the direct ones only. -/
def syncDirEntry (parentDir : DirPtr) (de : Bytes) : FsM Bool := do
  let s ← get
  let p := (s.dir parentDir).inode
  assert ((s.inode p).iSize % 24 = 0)
  syncLoop p de (fun i => if i < 12 then (s.inode p).iSectors i else 0) 0 140

/-- What `delete_dir_entry` learns from one sector. -/
structure Scan where
  isDirFirstBlock : Bool
  dirEntryCnt : Nat
  found : Option Nat
  /-- two entries name the inode -/
  twice : Bool
  deriving DecidableEq, Repr

def dot : List UInt8 := [46]
def dotdot : List UInt8 := [46, 46]

def Scan.entry (sc : Scan) (buf : Bytes) (inodeNo : UInt32) (k : Nat) : Scan :=
  if (entryAt buf k).fType = ftUnknown then sc
  else if entryName buf k = dot then { sc with isDirFirstBlock := true }
  else if entryName buf k = dotdot then sc
  else if (entryAt buf k).iNo = inodeNo then
    { sc with
      dirEntryCnt := sc.dirEntryCnt + 1, found := some k, twice := sc.twice || sc.found.isSome }
  else { sc with dirEntryCnt := sc.dirEntryCnt + 1 }

def scanSector (buf : Bytes) (inodeNo : UInt32) : Scan :=
  (List.range entriesPerSec).foldl (fun sc k => sc.entry buf inodeNo k) ⟨false, 0, none, false⟩

/-- The sector holds one entry apart from `.` and `..` and is not the first of its directory. -/
def Scan.lastEntry (sc : Scan) : Bool := sc.dirEntryCnt = 1 && !sc.isDirFirstBlock

/-- Take the found entry out of block `i`.  When it is the last one the block is given back; the
loop that counts the indirect blocks never advances its index. -/
def clearEntry (blocks : Nat → UInt32) (i : Nat) (buf : Bytes) (k : Nat) (sc : Scan) : FsM Unit :=
  if sc.lastEntry then do
    releaseBlock (blocks i)
    require (i < 12) .diverge
  else ideWrite (blocks i) (buf.fill (24 * k) 24 0) 1

def deleteLoop (p : Ptr) (inodeNo : UInt32) (blocks : Nat → UInt32) (i : Nat) : Nat → FsM Bool
  | 0 => return false
  | n + 1 =>
      if blocks i = 0 then deleteLoop p inodeNo blocks (i + 1) n
      else do
        let buf ← ideRead (blocks i) Bytes.zero 1
        let sc := scanSector buf inodeNo
        assert (sc.twice = false)
        match sc.found with
        | none => deleteLoop p inodeNo blocks (i + 1) n
        | some k =>
            clearEntry blocks i buf k sc
            let s ← get
            assert (24 ≤ (s.inode p).iSize)
            modify fun s => s.setSize p ((s.inode p).iSize - 24)
            inodeSync ((← get).inode p)
            return true

def deleteDirEntry (pdir : DirPtr) (inodeNo : UInt32) : FsM Bool := do
  let s ← get
  let p := (s.dir pdir).inode
  deleteLoop p inodeNo ((s.inode p).allBlocks s.disk) 0 140

def dirIsEmpty (d : DirPtr) : FsM Bool := do
  let s ← get
  return (s.inode (s.dir d).inode).iSize = 48

/-- `dir_remove`; its return value, 0 or -1, as success -/
def dirRemove (parentDir childDir : DirPtr) : FsM Bool := do
  let s ← get
  let child := s.inode (s.dir childDir).inode
  assert (∀ i ∈ List.range' 1 12, child.iSectors i = 0)
  let ioBuf ← sysMalloc
  if ioBuf = false then return false
  else
    let _ ← deleteDirEntry parentDir child.iNo
    inodeRelease child.iNo
    sysFree
    return true

end Aitos.Fs
