import Aitos.Fs.Dir

/-!
# Open files

`fs/file.c`: the slots of `file_table`, creating, opening, closing and writing files.  The
functions return `none` where the source returns -1.
-/

namespace Aitos.Fs

open Framework

def oWronly : UInt32 := 1
def oRdwr : UInt32 := 2
def oCreat : UInt32 := 4

/-- `flag & O_WRONLY || flag & O_RDWR` -/
def writing (flag : UInt32) : Bool := flag &&& oWronly ≠ 0 || flag &&& oRdwr ≠ 0

@[simps -fullyApplied]
def State.setFile (s : State) (i : Nat) (f : File) : State :=
  { s with fileTable := Function.update s.fileTable i f }

/-- The first free slot of `file_table` from `i` on. -/
def State.freeSlot (s : State) (i : Nat) : Nat → Option Nat
  | 0 => none
  | n + 1 => if (s.fileTable i).fdInode = none then some i else s.freeSlot (i + 1) n

def getFreeSlotInGlobal : FsM (Option Nat) := do
  let s ← get
  return s.freeSlot 3 (maxFileOpen - 3)

/-- The first free entry of a descriptor table from `i` on. -/
def freeFd (fds : Nat → Option Nat) (i : Nat) : Nat → Option Nat
  | 0 => none
  | n + 1 => if fds i = none then some i else freeFd fds (i + 1) n

/-- Descriptor `fd` of process `pid` indexes slot `slot`, opened on inode `origin`. -/
@[simps -fullyApplied]
def State.setFd (s : State) (pid : Pid) (fd : Nat) (slot : Option Nat) (origin : Option Ptr) :
    State :=
  { s with
    fdTable := Function.update s.fdTable pid (Function.update (s.fdTable pid) fd slot)
    fdOrigin := Function.update s.fdOrigin pid (Function.update (s.fdOrigin pid) fd origin) }

def pcbFdInstall (globalFdIndex : Nat) : FsM (Option Nat) := do
  let s ← get
  match freeFd (s.fdTable s.cur) 3 (maxFilesOpenPerProc - 3) with
  | none => return none
  | some fd =>
      modify fun s => s.setFd s.cur fd (some globalFdIndex) (s.fileTable globalFdIndex).fdInode
      return some fd

/-- `new_file_inode` gets an address and is in no list yet. -/
@[simps -fullyApplied]
def State.newInode (s : State) (ino : Inode) : State :=
  { s with inode := Function.update s.inode s.nextInode ino, nextInode := s.nextInode + 1 }

@[simps -fullyApplied]
def State.listInode (s : State) (p : Ptr) : State := { s with openInode := p :: s.openInode }

/-- `file_create` from the point where the inode and the slot are there; `ino` is the block of the
inode, which is the kernel's. -/
def createIn (parentDir : DirPtr) (filename : List UInt8) (inodeNo : UInt32) (p : Ptr)
    (ino : Block) (fdIdx : Nat) : FsM (Option Nat) := do
  let de ← createDirEntry filename inodeNo ftRegular
  if ← syncDirEntry parentDir de then
    let s ← get
    inodeSync (s.inode (s.dir parentDir).inode)
    inodeSync ((← get).inode p)
    bitmapSync inodeNo.toNat .inodeBitmap
    modify fun s => (s.listInode p).setInode p (s.inode p).opened
    sysFree
    pcbFdInstall fdIdx
  else
    modify fun s => s.setFile fdIdx ⟨0, 0, none⟩
    sysFreeBlock ino
    inodeBitmapSet inodeNo.toNat false
    sysFree
    return none

/-- `file_create` from the point where `new_file_inode` is there -/
def createFile (parentDir : DirPtr) (filename : List UInt8) (flag : UInt32) (inodeNo : UInt32)
    (ino : Block) : FsM (Option Nat) := do
  let p := (← get).nextInode
  modify fun s => s.newInode (inodeInit inodeNo)
  match ← getFreeSlotInGlobal with
  | none =>
      sysFreeBlock ino
      inodeBitmapSet inodeNo.toNat false
      sysFree
      return none
  | some fdIdx =>
      modify fun s => s.setFile fdIdx ⟨0, flag, some p⟩
      createIn parentDir filename inodeNo p ino fdIdx

/-- `pgdir` is set back before the inode is freed in the rollback, and not at all when there was no
memory for it. -/
def fileCreate (parentDir : DirPtr) (filename : List UInt8) (flag : UInt32) :
    FsM (Option Nat) := do
  let ioBlock := (← get).heapBlock
  let ioBuf ← sysMalloc
  if ioBuf = false then return none
  else
    match ← inodeBitmapAlloc with
    | none => return none
    | some inodeNo =>
        let s ← get
        modify fun s => s.setPgdir 0
        let ino := (← get).heapBlock
        let newFileInode ← sysMalloc
        if newFileInode = false then
          inodeBitmapSet inodeNo.toNat false
          sysFreeBlock ioBlock
          return none
        else
          modify fun t => t.setPgdir (s.mem.pgdir s.cur)
          createFile parentDir filename flag inodeNo ino

def State.setDeny (s : State) (p : Ptr) (v : Bool) : State :=
  s.setInode p { s.inode p with writeDeny := v }

def fileOpen (inodeNo : UInt32) (flag : UInt32) : FsM (Option Nat) := do
  match ← getFreeSlotInGlobal with
  | none => return none
  | some fdIndex =>
      let p ← inodeOpen inodeNo
      modify fun s => s.setFile fdIndex ⟨0, flag, some p⟩
      let s ← get
      if writing flag then
        if (s.inode p).writeDeny then return none
        else
          modify fun s => s.setDeny p true
          pcbFdInstall fdIndex
      else pcbFdInstall fdIndex

/-- `file_close` of slot `i` -/
def fileClose (i : Nat) : FsM Unit := do
  let s ← get
  match (s.fileTable i).fdInode with
  | none => fault .nullDeref
  | some p =>
      modify fun s => s.setDeny p false
      inodeClose p
      modify fun s => s.setFile i { s.fileTable i with fdInode := none }

/-- One of the three loops of `file_write` that allocate blocks: indices below `direct` go into
`i_sectors` too.  `all_blocks` has 140 entries. -/
def allocBlocks (p : Ptr) (direct : Nat) (checkIdx : Bool) (blocks : Nat → UInt32) (i : Nat) :
    Nat → FsM (Option (Nat → UInt32))
  | 0 => return some blocks
  | n + 1 => do
      match ← blockBitmapAlloc with
      | none => return none
      | some lba =>
          let s ← get
          if i < direct then
            assert ((s.inode p).iSectors i = 0)
            modify fun s => s.setSector p i lba
            assert (checkIdx = true → s.blockIdx lba ≠ 0)
            bitmapSync (s.blockIdx lba) .blockBitmap
            allocBlocks p direct checkIdx (Function.update blocks i lba) (i + 1) n
          else
            require (i < 140) .outOfBounds
            bitmapSync (s.blockIdx lba) .blockBitmap
            allocBlocks p direct checkIdx (Function.update blocks i lba) (i + 1) n

/-- The entries of the indirect table at `lba`, from index 12 on. -/
def tableBlocks (disk : Bytes) (lba : UInt32) (blocks : Nat → UInt32) : Nat → UInt32 :=
  fun i => if 12 ≤ i ∧ i < 140 then disk.word (512 * lba.toNat + 4 * (i - 12)) else blocks i

def noBlocks : Nat → UInt32 := fun _ => 0

/-- `all_blocks + 12` goes to the sector `lba`. -/
def writeTable (lba : UInt32) (blocks : Nat → UInt32) : FsM Unit := do
  assertLba lba
  ideWrite lba (Bytes.ofWords fun k => blocks (12 + k)) 1

/-- The indirect table of inode `p` is read to `all_blocks + 12`. -/
def readTable (p : Ptr) : FsM (Nat → UInt32) := do
  let s ← get
  assert ((s.inode p).iSectors 12 ≠ 0)
  assertLba ((s.inode p).iSectors 12)
  return tableBlocks s.disk ((s.inode p).iSectors 12) noBlocks

section Table

variable {s s' : State} {p : Ptr} {lba : UInt32} {blocks : Nat → UInt32}

@[simp]
theorem writeTable_ok {u : Unit} : writeTable lba blocks s = .ok (u, s') ↔
    (s.ndebug = true ∨ lba ≤ maxLba) ∧
      s' = s.writeSectors lba (Bytes.ofWords fun k => blocks (12 + k)) 1 := by
  simp only [writeTable, Code.bind_ok, assertLba_ok, ideWrite_ok]
  constructor
  · rintro ⟨_, _, ⟨rfl, h⟩, rfl⟩
    exact ⟨h, rfl⟩
  · rintro ⟨h, rfl⟩
    exact ⟨(), s, ⟨rfl, h⟩, rfl⟩

@[simp]
theorem readTable_ok : readTable p s = .ok (blocks, s') ↔
    ((s.ndebug = true ∨ (s.inode p).iSectors 12 ≠ 0) ∧
      (s.ndebug = true ∨ (s.inode p).iSectors 12 ≤ maxLba)) ∧
      blocks = tableBlocks s.disk ((s.inode p).iSectors 12) noBlocks ∧ s' = s := by
  simp only [readTable, Code.get_bind, Code.bind_ok, assert_ok, assertLba_ok, Code.pure_ok]
  constructor
  · rintro ⟨_, _, ⟨rfl, h⟩, _, _, ⟨rfl, h'⟩, rfl, rfl⟩
    exact ⟨⟨h, h'⟩, rfl, rfl⟩
  · rintro ⟨⟨h, h'⟩, rfl, rfl⟩
    exact ⟨(), s', ⟨rfl, h⟩, (), s', ⟨rfl, h'⟩, rfl, rfl⟩

end Table

/-- `all_blocks` when no block is added -/
def sameBlocks (p : Ptr) (has will : Nat) : FsM (Option (Nat → UInt32)) := do
  let s ← get
  if will ≤ 12 then
    return some (Function.update noBlocks (has - 1) ((s.inode p).iSectors (has - 1)))
  else
    let blocks ← readTable p
    return some blocks

/-- `all_blocks` when blocks are added: within the direct ones, across to a new table, or in the
table -/
def moreBlocks (p : Ptr) (has will : Nat) : FsM (Option (Nat → UInt32)) := do
  let s ← get
  if will ≤ 12 then
    require (has ≤ 13) .outOfBounds
    assert ((s.inode p).iSectors (has - 1) ≠ 0)
    allocBlocks p 12 true
      (Function.update noBlocks (has - 1) ((s.inode p).iSectors (has - 1))) has (will - has)
  else if has ≤ 12 then
    match ← blockBitmapAlloc with
    | none => return none
    | some table =>
        assert ((s.inode p).iSectors 12 = 0)
        modify fun s => s.setSector p 12 table
        match ← allocBlocks p 12 false
            (Function.update noBlocks (has - 1) ((s.inode p).iSectors (has - 1))) has
            (will - has) with
        | none => return none
        | some blocks =>
            writeTable table blocks
            return some blocks
  else
    let table ← readTable p
    match ← allocBlocks p 0 false table has (will - has) with
    | none => return none
    | some blocks =>
        writeTable ((s.inode p).iSectors 12) blocks
        return some blocks

/-- The first block of a file that has none. -/
def firstBlock (p : Ptr) : FsM Bool := do
  let s ← get
  if (s.inode p).iSectors 0 = 0 then
    match ← blockBitmapAlloc with
    | none => return false
    | some lba =>
        modify fun s => s.setSector p 0 lba
        assert (s.blockIdx lba ≠ 0)
        bitmapSync (s.blockIdx lba) .blockBitmap
        return true
  else return true

/-- The loop that writes the data, sector by sector; `all_blocks` has 140 entries.
Reading and writing a sector make the same assertion. -/
def writeLoop (fd : Nat) (p : Ptr) (blocks : Nat → UInt32) (count : UInt32) :
    Nat → Bool → Bytes → UInt32 → FsM UInt32
  | 0, _, _, _ => fault .diverge
  | n + 1, first, src, written =>
      if count ≤ written then return written
      else do
        let s ← get
        let size := (s.inode p).iSize
        let secIdx := (size / 512).toNat
        require (secIdx < 140) .outOfBounds
        let secOffBytes := size % 512
        let secLeftBytes := 512 - secOffBytes
        let sizeLeft := count - written
        let chunk := if sizeLeft > secLeftBytes then secLeftBytes else sizeLeft
        assertLba (blocks secIdx)
        let ioBuf ← if first then ideRead (blocks secIdx) Bytes.zero 1 else pure Bytes.zero
        ideWrite (blocks secIdx) (ioBuf.blit secOffBytes.toNat chunk.toNat src) 1
        modify fun s => (s.setSize p (size + chunk)).setFile fd
          { s.fileTable fd with fdPos := (s.fileTable fd).fdPos + chunk }
        writeLoop fd p blocks count n false (src.drop chunk.toNat) (written + chunk)

/-- `all_blocks` of a write -/
def writeBlocks (p : Ptr) (has will : Nat) : FsM (Option (Nat → UInt32)) :=
  if will = has then sameBlocks p has will else moreBlocks p has will

/-- The end of `file_write`: the data goes to its blocks and the inode to the table. -/
def writeData (fd : Nat) (p : Ptr) (src : Bytes) (count : UInt32) (blocks : Nat → UInt32) :
    FsM (Option UInt32) := do
  modify fun s => s.setFile fd { s.fileTable fd with fdPos := (s.inode p).iSize - 1 }
  let written ← writeLoop fd p blocks count 142 true src 0
  let syncBuf ← sysMalloc
  if syncBuf = false then return none
  else
    inodeSync ((← get).inode p)
    sysFree
    sysFree
    sysFree
    return some written

/-- `file_write` from the point where the buffers are there -/
def writeFile (fd : Nat) (p : Ptr) (src : Bytes) (count : UInt32) : FsM (Option UInt32) := do
  if ← firstBlock p then
    let size := ((← get).inode p).iSize
    let has := (size / 512 + 1).toNat
    let will := ((size + count) / 512 + 1).toNat
    assert (will < 140)
    match ← writeBlocks p has will with
    | none => return none
    | some blocks => writeData fd p src count blocks
  else return none

def fileWrite (fd : Nat) (src : Bytes) (count : UInt32) : FsM (Option UInt32) := do
  let s ← get
  match (s.fileTable fd).fdInode with
  | none => fault .nullDeref
  | some p =>
      if (s.inode p).iSize + count > 71680 then return none
      else
        let ioBuf ← sysMalloc
        if ioBuf = false then return none
        else
          let allBlocks ← sysMalloc
          if allBlocks = false then return none
          else writeFile fd p src count

end Aitos.Fs
