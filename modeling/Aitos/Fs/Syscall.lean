import Aitos.Fs.File
import Aitos.Framework.Run

/-!
# The system calls of the file system

`fs/fs.c` from `search_file` on, and what `fork` does with descriptors.  An inode number or an
`int` result of -1 is the word `minusOne`.
-/

namespace Aitos.Fs

open Framework

def minusOne : UInt32 := 0xFFFFFFFF

/-- The result of `search_file` with its `struct path_search_record` -/
structure Searched where
  inodeNo : UInt32
  searchedPath : Path
  parentDir : DirPtr
  fileType : UInt32

def State.dirInode (s : State) (d : DirPtr) : Inode := s.inode (s.dir d).inode

/-- The loop of `search_file`.  `name` is the component buffer of 512 bytes, of which 16 are
cleared between components; `dirE` is the entry found last. -/
def searchLoop : Nat → Option Path → Bytes → DirPtr → UInt32 → Option DirEntry → Path →
    FsM Searched
  | 0, _, _, _, _, _, _ => fault .diverge
  | n + 1, subPath, name, parentDir, parentInodeNo, dirE, searched =>
      if name 0 = 0 then do
        dirClose parentDir
        let d ← dirOpen parentInodeNo
        match dirE with
        | none => fault .uninitialised
        | some e => return ⟨e.iNo, searched, d, ftDirectory⟩
      else do
        assert (searched.length < 512)
        let searched := searched ++ slash :: cstr name 512
        require (searched.length < 512) .outOfBounds
        match ← searchDirEntry parentDir (cstr name 512) with
        | none => return ⟨minusOne, searched, parentDir, ftUnknown⟩
        | some e =>
            let name := name.fill 0 16 0
            let parsed := subPath.elim ⟨[], none⟩ pathParse
            let name := storeName name parsed.component
            if e.fType = ftDirectory then
              let parentNo := ((← get).dirInode parentDir).iNo
              dirClose parentDir
              let d ← dirOpen e.iNo
              searchLoop n parsed.rest name d parentNo (some e) searched
            else if e.fType = ftRegular then return ⟨e.iNo, searched, parentDir, ftRegular⟩
            else searchLoop n parsed.rest name parentDir parentInodeNo (some e) searched

/-- `/`, `/.` and `/..` -/
def isRootPath (pathname : Path) : Bool :=
  pathname = [slash] || pathname = slash :: dot || pathname = slash :: dotdot

def searchFile (pathname : Path) : FsM Searched :=
  if isRootPath pathname then return ⟨0, [], rootDir, ftDirectory⟩
  else do
    assert (pathname.head? = some slash ∧ 1 < pathname.length ∧ pathname.length < 512)
    let parsed := pathParse pathname
    searchLoop (pathname.length + 1) parsed.rest (storeName Bytes.zero parsed.component) rootDir 0
      none []

/-- `sys_open` from the point where the search is done -/
def openSearched (pathname : Path) (flags : UInt32) (pathDepth : Nat) (r : Searched) :
    FsM (Option Nat) :=
  if r.fileType = ftDirectory then do
    dirClose r.parentDir
    return none
  else do
    let searchedDepth ← pathDepthCnt r.searchedPath
    if searchedDepth ≠ pathDepth then
      dirClose r.parentDir
      return none
    else if r.inodeNo = minusOne ∧ flags &&& oCreat = 0 then
      dirClose r.parentDir
      return none
    else if r.inodeNo ≠ minusOne ∧ flags &&& oCreat ≠ 0 then
      dirClose r.parentDir
      return none
    else if flags &&& oCreat ≠ 0 then
      let fd ← fileCreate r.parentDir (afterLastSlash pathname) flags
      dirClose r.parentDir
      return fd
    else fileOpen r.inodeNo flags

def sysOpen (pathname : Path) (flags : UInt32) : FsM (Option Nat) := do
  require (pathname ≠ []) .outOfBounds
  if pathname.getLast? = some slash then return none
  else
    assert (flags ≤ 7)
    let pathDepth ← pathDepthCnt pathname
    let r ← searchFile pathname
    openSearched pathname flags pathDepth r

/-- `fd_local2global`; the descriptor table has eight entries. -/
def fdLocal2global (fd : Nat) : FsM Nat := do
  require (fd < maxFilesOpenPerProc) .outOfBounds
  let s ← get
  match s.fdTable s.cur fd with
  | none => fault .assertion
  | some i =>
      assert (i < maxFileOpen)
      return i

/-- `sys_close`; whether it returned 0 -/
def sysClose (fd : Int) : FsM Bool :=
  if 2 < fd then do
    let i ← fdLocal2global fd.toNat
    fileClose i
    modify fun s => s.setFd s.cur fd.toNat none none
    return true
  else return false

/-- `sys_write`; the text for `stdout` is copied to a buffer of 1024 bytes. -/
def sysWrite (fd : Int) (src : Bytes) (count : UInt32) : FsM (Option UInt32) :=
  if fd < 0 then return none
  else if fd = 1 then do
    require (count ≤ 1024) .outOfBounds
    return some count
  else do
    let i ← fdLocal2global fd.toNat
    let s ← get
    if writing (s.fileTable i).fdFlag then fileWrite i src count else return none

/-- Some slot of `file_table` from `i` on is open on inode `inodeNo`. -/
def State.inUse (s : State) (inodeNo : UInt32) (i : Nat) : Nat → Bool
  | 0 => false
  | n + 1 =>
      ((s.fileTable i).fdInode.any fun p => (s.inode p).iNo = inodeNo) ||
        s.inUse inodeNo (i + 1) n

def sysUnlink (pathname : Path) : FsM Bool := do
  let r ← searchFile pathname
  assert (r.inodeNo ≠ 0)
  if r.inodeNo = minusOne then
    dirClose r.parentDir
    return false
  else if r.fileType = ftDirectory then
    dirClose r.parentDir
    return false
  else
    let s ← get
    if s.inUse r.inodeNo 0 maxFileOpen then
      dirClose r.parentDir
      return false
    else
      let ioBuf ← sysMalloc
      require (ioBuf = true) .nullDeref
      let _ ← deleteDirEntry r.parentDir r.inodeNo
      inodeRelease r.inodeNo
      sysFree
      dirClose r.parentDir
      return true

/-- The first block of a new directory: its entries `.` and `..` -/
def dirBlock (inodeNo parentNo : UInt32) : Bytes :=
  (Bytes.zero.blit 0 24 (entryImage dot inodeNo ftDirectory)).blit 24 24
    (entryImage dotdot parentNo ftDirectory)

/-- `rollback` of `sys_mkdir` after step 2 -/
def mkdirRollback (inodeNo : UInt32) (parentDir : DirPtr) : FsM Bool := do
  inodeBitmapSet inodeNo.toNat false
  dirClose parentDir
  sysFree
  return false

/-- `sys_mkdir` from the point where the inode is there -/
def mkdirIn (parentDir : DirPtr) (dirName : List UInt8) (inodeNo : UInt32) : FsM Bool := do
  match ← blockBitmapAlloc with
  | none => mkdirRollback inodeNo parentDir
  | some lba =>
      let s ← get
      bitmapSync (s.blockIdx lba) .blockBitmap
      ideWrite lba (dirBlock inodeNo (s.dirInode parentDir).iNo) 1
      let newDirInode : Inode :=
        { inodeInit inodeNo with iSize := 48, iSectors := Function.update (fun _ => 0) 0 lba }
      let de ← createDirEntry dirName inodeNo ftDirectory
      if ← syncDirEntry parentDir de then
        inodeSync ((← get).dirInode parentDir)
        inodeSync newDirInode
        bitmapSync inodeNo.toNat .inodeBitmap
        sysFree
        dirClose parentDir
        return true
      else mkdirRollback inodeNo parentDir

/-- The depth test of `sys_mkdir` -/
def samePathDepth (pathname : Path) (r : Searched) : FsM Bool := do
  let pathnameDepth ← pathDepthCnt pathname
  let searchedDepth ← pathDepthCnt r.searchedPath
  return pathnameDepth = searchedDepth

def sysMkdir (pathname : Path) : FsM Bool := do
  let ioBuf ← sysMalloc
  if ioBuf = false then return false
  else
    let r ← searchFile pathname
    if r.inodeNo ≠ minusOne then
      dirClose r.parentDir
      sysFree
      return false
    else if ← samePathDepth pathname r then
      match ← inodeBitmapAlloc with
      | none =>
          dirClose r.parentDir
          sysFree
          return false
      | some inodeNo => mkdirIn r.parentDir (afterLastSlash r.searchedPath) inodeNo
    else
      dirClose r.parentDir
      sysFree
      return false

/-- `sys_opendir`; every path that starts with `/.` gives the root. -/
def sysOpendir (name : Path) : FsM (Option DirPtr) := do
  assert (name.length < 512)
  if name.head? = some slash ∧ (name.length = 1 ∨ name[1]? = some 46) then return some rootDir
  else
    let r ← searchFile name
    if r.inodeNo ≠ minusOne ∧ r.fileType = ftDirectory then
      let d ← dirOpen r.inodeNo
      dirClose r.parentDir
      return some d
    else
      dirClose r.parentDir
      return none

/-- `sys_closedir` of a handle that is not `NULL` -/
def sysClosedir (d : DirPtr) : FsM Bool := do
  dirClose d
  return true

/-- `sys_rmdir` from the point where the directory is open -/
def rmdirOpen (parentDir d : DirPtr) : FsM Bool := do
  if ← dirIsEmpty d then
    let ok ← dirRemove parentDir d
    dirClose d
    return ok
  else
    dirClose d
    return false

def sysRmdir (pathname : Path) : FsM Bool := do
  let r ← searchFile pathname
  assert (r.inodeNo ≠ 0)
  if r.inodeNo ≠ minusOne ∧ r.fileType ≠ ftRegular then
    let d ← dirOpen r.inodeNo
    let ok ← rmdirOpen r.parentDir d
    dirClose r.parentDir
    return ok
  else
    dirClose r.parentDir
    return false

def sysChdir (pathname : Path) : FsM Bool := do
  let r ← searchFile pathname
  if r.inodeNo ≠ minusOne ∧ r.fileType = ftDirectory then
    modify fun s => { s with cwdInodeNr := Function.update s.cwdInodeNr s.cur r.inodeNo }
    dirClose r.parentDir
    return true
  else
    dirClose r.parentDir
    return false

/-- `struct stat` -/
structure Stat where
  stIno : UInt32
  stSize : UInt32
  stFiletype : UInt32

def sysStat (pathname : Path) : FsM (Option Stat) := do
  if isRootPath pathname then
    let s ← get
    return some ⟨0, (s.dirInode rootDir).iSize, ftDirectory⟩
  else
    let r ← searchFile pathname
    if r.inodeNo ≠ minusOne then
      let p ← inodeOpen r.inodeNo
      let size := ((← get).inode p).iSize
      inodeClose p
      return some ⟨r.inodeNo, size, r.fileType⟩
    else return none

/-- `update_inode_open_cnts` from descriptor `fd` on -/
def updateInodeOpenCnts (fds : Nat → Option Nat) (fd : Nat) : Nat → FsM Unit
  | 0 => return
  | n + 1 =>
      match fds fd with
      | none => updateInodeOpenCnts fds (fd + 1) n
      | some i => do
          assert (i < maxFileOpen)
          let s ← get
          match (s.fileTable i).fdInode with
          | none => fault .nullDeref
          | some p =>
              modify fun s => s.countUp p
              updateInodeOpenCnts fds (fd + 1) n

/-- The descriptors of a new process are those of its parent. -/
@[simps -fullyApplied]
def State.forked (s : State) (child : Pid) : State :=
  { s with
    procs := child :: s.procs
    fdTable := Function.update s.fdTable child (s.fdTable s.cur)
    fdOrigin := Function.update s.fdOrigin child (s.fdOrigin s.cur)
    cwdInodeNr := Function.update s.cwdInodeNr child (s.cwdInodeNr s.cur) }

/-- What `sys_fork` does with the file system: the page of the PCB is copied. -/
def sysFork (child : Pid) : FsM Unit := do
  modify fun s => s.forked child
  let s ← get
  updateInodeOpenCnts (s.fdTable child) 3 (maxFilesOpenPerProc - 3)

end Aitos.Fs
