import Aitos.Fs.Read
import Aitos.Mm.UserPage

/-!
# Exec

`proc/exec.c` on the file system and on page tables that lie in memory.  A system call that reads
into the process's memory stores its bytes through the page tables; a page that is not mapped is a
page fault, from which the kernel does not come back.  Of the PCB there are the name and the four
registers of the interrupt stack that `sys_execv` writes.
-/

namespace Aitos.Proc.Exec

open Framework Proc.Fork Paging

structure IntrStack where
  ebx : UInt32
  ecx : UInt32
  eip : UInt32
  esp : UInt32
  deriving DecidableEq, Repr

/-- How a call can stop instead of returning. -/
inductive Halt where
  | fs (h : Fs.Halt)
  | mem (h : Stop)
  /-- a string or an array without its end in reach -/
  | diverge
  deriving DecidableEq, Repr

structure State where
  fs : Fs.State
  mem : Machine
  name : List UInt8
  frame : IntrStack

abbrev ExecM := Code State Halt

def onFs {α : Type} (c : Fs.FsM α) : ExecM α := fun s =>
  match c s.fs with
  | .ok (a, t) => .ok (a, { s with fs := t })
  | .error e => .error (.fs e)

def onMem {α : Type} (c : PgM α) : ExecM α := fun s =>
  match c s.mem with
  | .ok (a, t) => .ok (a, { s with mem := t })
  | .error e => .error (.mem e)

/-! ### Bytes of memory -/

def byteOf (w k : Nat) : UInt8 := UInt8.ofNat (w / 256 ^ k)

def withByte (w k : Nat) (b : UInt8) : Nat :=
  w / 256 ^ (k + 1) * 256 ^ (k + 1) + b.toNat * 256 ^ k + w % 256 ^ k

def loadByte (a : Nat) : PgM UInt8 := return byteOf (← load a) (a % 4)

def loadBytes (a : Nat) : Nat → PgM (List UInt8)
  | 0 => return []
  | n + 1 => do
      let b ← loadByte a
      return b :: (← loadBytes ((a + 1) % 2 ^ 32) n)

def storeByte (a : Nat) (b : UInt8) : PgM Unit := do
  let f ← translate a
  modify fun m => m.setWord f (a % 4096 / 4) (withByte (m.ram f (a % 4096 / 4)) (a % 4) b)

def storeBytes (a : Nat) : List UInt8 → PgM Unit
  | [] => return
  | b :: bs => do
      storeByte a b
      storeBytes ((a + 1) % 2 ^ 32) bs

section Code

variable (p : Pools) (cur : Nat) (typed : Nat → UInt8)

/-- `sys_read` into a buffer of the kernel stack, which was cleared and is not `NULL` -/
def readStack (fd : Int) (count : UInt32) : ExecM (Option UInt32 × Bytes) := do
  let r ← onFs (Fs.sysRead fd true typed count)
  return (r.1, fun i => r.2.getD i 0)

/-- `sys_read` into the memory of the process -/
def readUser (fd : Int) (buf count : UInt32) : ExecM (Option UInt32) := do
  let r ← onFs (Fs.sysRead fd (buf ≠ 0) typed count)
  onMem (storeBytes buf.toNat r.2)
  return r.1

/-- `!(*pde & 0x00000001) || !(*pte & 0x00000001)` -/
def pageAbsent (vaddr : UInt32) : PgM Bool := do
  if (← load (pdePtr vaddr.toNat)) % 2 = 1 then
    return (← load (ptePtr vaddr.toNat)) % 2 ≠ 1
  else return true

/-- The loop of `segment_load`: whatever page it is at, it tests the one of `vaddr`. -/
def allocPages (vaddr : UInt32) : Nat → UInt32 → ExecM Bool
  | 0, _ => return true
  | n + 1, vaddrPage => do
      if ← onMem (pageAbsent vaddr) then
        let page ← onMem (getAPage p false cur true vaddrPage.toNat)
        if page = 0 then return false else allocPages vaddr n (vaddrPage + 4096)
      else allocPages vaddr n (vaddrPage + 4096)

/-- `occupy_pages` -/
def occupyPages (filesz vaddr : UInt32) : UInt32 :=
  let sizeInFirstPage := 4096 - (vaddr &&& 0x00000fff)
  if filesz > sizeInFirstPage then (filesz - sizeInFirstPage + 4096 - 1) / 4096 + 1 else 1

def segmentLoad (fd : Int) (offset filesz vaddr : UInt32) : ExecM Bool := do
  if ← allocPages p cur vaddr (occupyPages filesz vaddr).toNat (vaddr &&& 0xfffff000) then
    let _ ← onFs (Fs.sysLseek fd offset.toInt32 Fs.seekSet)
    let _ ← readUser typed fd vaddr filesz
    return true
  else return false

/-! ### The ELF file -/

def half (b : Bytes) (off : Nat) : UInt16 :=
  UInt16.ofNat ((b off).toNat + 256 * (b (off + 1)).toNat)

/-- `sizeof(struct Elf32_Ehdr)` and `sizeof(struct Elf32_Phdr)` -/
def ehdrSize : UInt32 := 52

def phdrSize : UInt16 := 32

/-- `"\177ELF\1\1\1"` -/
def elfMagic : List UInt8 := [0x7f, 0x45, 0x4c, 0x46, 1, 1, 1]

def eEntry (h : Bytes) : UInt32 := h.word 24

def ePhoff (h : Bytes) : UInt32 := h.word 28

def ePhentsize (h : Bytes) : UInt16 := half h 42

def ePhnum (h : Bytes) : UInt16 := half h 44

/-- The checks of the header: its ident, `e_type`, `e_machine`, `e_version`, `e_phnum` and
`e_phentsize` -/
def ValidHeader (h : Bytes) : Prop :=
  (List.range 7).map h = elfMagic ∧ half h 16 = 2 ∧ half h 18 = 3 ∧ h.word 20 = 1 ∧
    ePhnum h ≤ 1024 ∧ ePhentsize h = phdrSize

instance (h : Bytes) : Decidable (ValidHeader h) := inferInstanceAs (Decidable (_ ∧ _))

def ptLoad : UInt32 := 1

/-- The loop over the program headers; whether all of them were dealt with -/
def programs (fd : Int) (size : UInt16) : Nat → UInt32 → ExecM Bool
  | 0, _ => return true
  | n + 1, progHeaderOffset => do
      let _ ← onFs (Fs.sysLseek fd progHeaderOffset.toInt32 Fs.seekSet)
      let (got, ph) ← readStack typed fd size.toUInt32
      if got ≠ some size.toUInt32 then return false
      else if ph.word 0 = ptLoad then
        if ← segmentLoad p cur typed fd (ph.word 4) (ph.word 16) (ph.word 8) then
          programs fd size n (progHeaderOffset + size.toUInt32)
        else return false
      else programs fd size n (progHeaderOffset + size.toUInt32)

/-- `load` between `sys_open` and `done` -/
def loadOpen (fd : Int) : ExecM Int32 := do
  let (got, h) ← readStack typed fd ehdrSize
  if got ≠ some ehdrSize then return -1
  else if ¬ ValidHeader h then return -1
  else if ← programs p cur typed fd (ePhentsize h) (ePhnum h).toNat (ePhoff h) then
    return (eEntry h).toInt32
  else return -1

def load (name : Fs.Path) : ExecM Int32 := do
  match ← onFs (Fs.sysOpen name 0) with
  | none => return 1
  | some fd =>
      let ret ← loadOpen p cur typed fd
      let _ ← onFs (Fs.sysClose fd)
      return ret

/-! ### `sys_execv` -/

/-- `while (argv[argc])` -/
def countArgs (argv : UInt32) : Nat → UInt32 → ExecM UInt32
  | 0, _ => throw .diverge
  | n + 1, argc => do
      if (← onMem (Proc.Fork.load (argv + 4 * argc).toNat)) ≠ 0 then countArgs argv n (argc + 1)
      else return argc

/-- The string at an address -/
def cString : Nat → UInt32 → ExecM Fs.Path
  | 0, _ => throw .diverge
  | n + 1, a => do
      let b ← onMem (loadByte a.toNat)
      if b = 0 then return [] else return b :: (← cString n (a + 1))

def taskNameLen : Nat := 16

/-- `sys_execv` returns to its caller, or resumes the process on its interrupt stack. -/
inductive ExecEnd where
  | returned (ret : Int32)
  | intrExit
  deriving DecidableEq, Repr

/-- `fuel` bounds the length of the path and of `argv`. -/
def sysExecv (fuel : Nat) (path argv : UInt32) : ExecM ExecEnd := do
  let argc ← countArgs argv fuel 0
  let file ← cString fuel path
  let entryPoint ← load p cur typed file
  if entryPoint = -1 then return .returned (-1)
  else
    let name ← onMem (loadBytes path.toNat taskNameLen)
    modify fun s => { s with
      name := name.set (taskNameLen - 1) 0
      frame := { ebx := argv, ecx := argc, eip := entryPoint.toUInt32, esp := 0xc0000000 } }
    return .intrExit

end Code

end Aitos.Proc.Exec
