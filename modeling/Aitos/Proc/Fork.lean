import Aitos.Framework.Bits
import Aitos.Framework.Hoare

/-!
# Fork

`copy_process` of `proc/fork.c` on page tables that lie in memory: every access goes through the
page directory that is loaded, and `mm/memory.c` reaches the tables themselves through the last
entry of the directory.  Physical memory is kept by frames of 1024 words.  The PCBs and the bitmaps
of virtual addresses are kept apart, by their addresses; the interrupt stack and the open files of
the child are not part of this.
-/

namespace Aitos.Proc.Fork

open Framework

/-- How a call can stop instead of returning. -/
inductive Stop where
  | assertion
  | pageFault
  /-- the `ASSERT` of `bitmap_scan`, or a run of pages past the end of its bitmap -/
  | noPages
  deriving DecidableEq, Repr

/-- What `mem_pool_init` sets up: the bits of the two pool bitmaps (the kernel's addresses have as
many as the kernel pool) and the first frame of the user pool. -/
structure Pools where
  len : Bool → Nat
  userStart : Nat
  kernelFits : 0x200 + len false ≤ userStart
  heapFits : 0xc0100 + len false ≤ 0xffc00

/-- The first frame of the user pool or of the kernel pool. -/
def Pools.start (p : Pools) : Bool → Nat
  | true => p.userStart
  | false => 0x200

/-- The members of `struct task_struct` that `copy_process` and its callees read. -/
structure Task where
  /-- `strlen(name)` -/
  nameLen : Nat
  pgdir : Nat
  /-- `userprog_vaddr`: where the bits are, their bytes, and the address of the first page -/
  bits : Nat
  btmpBytesLen : Nat
  vaddrStart : Nat
  deriving DecidableEq, Repr

structure Machine where
  ram : Nat → Nat → Nat
  /-- the frame of the page directory that is loaded -/
  cr3 : Nat
  pool : Bool → Nat → Bool
  kernelBitmap : Nat → Bool
  bitmaps : Nat → Nat → Bool
  task : Nat → Task

abbrev PgM := Code Machine Stop

namespace Machine

/-- The walk of the processor from the page directory in frame `d`, for the page `v`. -/
def walkFrom (m : Machine) (d v : Nat) : Option Nat :=
  if m.ram d (v / 1024) % 2 = 1 then
    let pte := m.ram (m.ram d (v / 1024) / 4096) (v % 1024)
    if pte % 2 = 1 then some (pte / 4096) else none
  else none

def setPage (m : Machine) (f : Nat) (ws : Nat → Nat) : Machine :=
  { m with ram := Function.update m.ram f ws }

def setWord (m : Machine) (f w v : Nat) : Machine :=
  m.setPage f (Function.update (m.ram f) w v)

def setPool (m : Machine) (user : Bool) (i : Nat) (v : Bool) : Machine :=
  { m with pool := Function.update m.pool user (Function.update (m.pool user) i v) }

def setTask (m : Machine) (t : Nat) (x : Task) : Machine :=
  { m with task := Function.update m.task t x }

end Machine

def translate (vaddr : Nat) : PgM Nat := do
  match (← get).walkFrom (← get).cr3 (vaddr / 4096) with
  | none => throw .pageFault
  | some f => return f

def load (vaddr : Nat) : PgM Nat := do
  let f ← translate vaddr
  return (← get).ram f (vaddr % 4096 / 4)

def store (vaddr v : Nat) : PgM Unit := do
  let f ← translate vaddr
  modify fun m => m.setWord f (vaddr % 4096 / 4) v

/-- `memcpy` of whole words, within a page on either side -/
def memcpy (dst src words : Nat) : PgM Unit := do
  let d ← translate dst
  let s ← translate src
  let i := dst % 4096 / 4
  let j := src % 4096 / 4
  modify fun m => m.setPage d fun w =>
    if i ≤ w ∧ w < i + words then m.ram s (j + (w - i)) else m.ram d w

/-- `memset` of whole pages with zero -/
def memset (dst : Nat) : Nat → PgM Unit
  | 0 => return
  | n + 1 => do
      let d ← translate dst
      modify fun m => m.setPage d fun _ => 0
      memset (dst + 4096) n

/-- `PDE_IDX` and `PTE_IDX` -/
def pdeIdx (addr : Nat) : Nat := (addr &&& 0xffc00000) >>> 22

def pteIdx (addr : Nat) : Nat := (addr &&& 0x003ff000) >>> 12

def ptePtr (vaddr : Nat) : Nat := 0xffc00000 + ((vaddr &&& 0xffc00000) >>> 10) + pteIdx vaddr * 4

def pdePtr (vaddr : Nat) : Nat := 0xfffff000 + pdeIdx vaddr * 4

section Memory

variable (p : Pools)

/-- `palloc`: a frame of the pool. -/
def palloc (user : Bool) : PgM Nat := do
  match firstClear ((← get).pool user) 0 (p.len user) with
  | none => throw .noPages
  | some i =>
      modify fun m => m.setPool user i true
      return p.start user + i

/-- `page_table_add`; the low bits of the frame's address are clear, so the flags add 7. -/
def pageTableAdd (vaddr frame : Nat) : PgM Unit := do
  if (← load (pdePtr vaddr)) % 2 = 1 then
    if (← load (ptePtr vaddr)) % 2 = 1 then throw .assertion
    store (ptePtr vaddr) (frame * 4096 + 7)
  else
    let table ← palloc p false
    store (pdePtr vaddr) (table * 4096 + 7)
    memset (ptePtr vaddr / 4096 * 4096) 1
    if (← load (ptePtr vaddr)) % 2 = 1 then throw .assertion
    store (ptePtr vaddr) (frame * 4096 + 7)

/-- `vaddr_get(PF_KERNEL, pg_cnt)` -/
def vaddrGet (pgCnt : Nat) : PgM (Option Nat) := do
  let m ← get
  match firstClear m.kernelBitmap 0 (p.len false) with
  | none => throw .noPages
  | some first =>
      let found := if pgCnt = 1 then some first
        else scanRun m.kernelBitmap pgCnt (p.len false - first) (first + 1) 1
      match found with
      | none => return none
      | some i =>
          if i + pgCnt ≤ p.len false then
            modify fun m => { m with kernelBitmap := setBits m.kernelBitmap i pgCnt true }
            return some (0xc0100000 + i * 4096)
          else throw .noPages

/-- The loop of `malloc_page` for kernel pages -/
def mallocLoop (vaddr : Nat) : Nat → PgM Unit
  | 0 => return
  | cnt + 1 => do
      let frame ← palloc p false
      pageTableAdd p vaddr frame
      mallocLoop (vaddr + 4096) cnt

/-- `malloc_page(PF_KERNEL, pg_cnt)` -/
def mallocPage (pgCnt : Nat) : PgM (Option Nat) := do
  if ¬ (0 < pgCnt ∧ pgCnt < 3840) then throw .assertion
  match ← vaddrGet p pgCnt with
  | none => return none
  | some vaddr =>
      mallocLoop p vaddr pgCnt
      return some vaddr

def getKernelPages (pgCnt : Nat) : PgM (Option Nat) := do
  match ← mallocPage p pgCnt with
  | none => return none
  | some vaddr =>
      memset vaddr pgCnt
      return some vaddr

/-- `get_a_page_without_opvaddrbitmap(PF_USER, vaddr)` -/
def getAPageWithoutOpvaddrbitmap (vaddr : Nat) : PgM Unit := do
  let frame ← palloc p true
  pageTableAdd p vaddr frame

def addrV2p (vaddr : Nat) : PgM Nat :=
  return (← load (ptePtr vaddr)) / 4096 * 4096 + vaddr % 4096

def pfree (phys : Nat) : PgM Unit :=
  let user : Bool := p.start true * 4096 ≤ phys
  modify fun m => m.setPool user ((phys - p.start user * 4096) / 4096) false

/-- `page_table_pte_remove` -/
def pteRemove (vaddr : Nat) : PgM Unit := store (ptePtr vaddr) 0

/-- `mfree_page(PF_KERNEL, vaddr, 1)` -/
def mfreePage (vaddr : Nat) : PgM Unit := do
  if vaddr % 4096 ≠ 0 then throw .assertion
  let phys ← addrV2p vaddr
  if ¬ (phys % 4096 = 0 ∧ 0x102000 ≤ phys) then throw .assertion
  if phys < p.start true * 4096 then
    if phys < p.start false * 4096 then throw .assertion
  pfree p phys
  pteRemove vaddr
  modify fun m => { m with
    kernelBitmap := Function.update m.kernelBitmap ((vaddr - 0xc0100000) / 4096) false }

end Memory

def pageDirActivate (t : Nat) : PgM Unit := do
  let pgdir := ((← get).task t).pgdir
  if pgdir ≠ 0 then
    let phys ← addrV2p pgdir
    modify fun m => { m with cr3 := phys / 4096 }
  else modify fun m => { m with cr3 := 0x100 }

def createPageDir (p : Pools) : PgM (Option Nat) := do
  match ← getKernelPages p 1 with
  | none => return none
  | some pageDir =>
      memcpy (pageDir + 0x300 * 4) (0xfffff000 + 0x300 * 4) 256
      let phys ← addrV2p pageDir
      store (pageDir + 1023 * 4) (phys + 7)
      return some pageDir

/-- The pages of a bitmap of `(0xc0000000 - USER_VADDR_START) / PG_SIZE / 8` bytes -/
def bitmapPgCnt : Nat := ((0xc0000000 - 0x8048000) / 4096 / 8 + 4095) / 4096

/-- `copy_pcb_vaddrbitmap_stack0` -/
def copyPcbVaddrbitmapStack0 (p : Pools) (child parent : Nat) : PgM Unit := do
  modify fun m => m.setTask child (m.task parent)
  match ← getKernelPages p bitmapPgCnt with
  | none => throw .pageFault
  | some btmp =>
      modify fun m =>
        let x := m.task child
        { m with bitmaps := Function.update m.bitmaps btmp (m.bitmaps x.bits) }.setTask child
          { x with bits := btmp }
  let x := (← get).task child
  if ¬ x.nameLen < 11 then throw .assertion
  modify fun m => m.setTask child { x with nameLen := x.nameLen + 5 }

section Body

variable (p : Pools) (child parent bufPage : Nat)

/-- The five steps for a page that exists. -/
def copyPage (progVaddr : Nat) : PgM Unit := do
  memcpy bufPage progVaddr 1024
  pageDirActivate child
  getAPageWithoutOpvaddrbitmap p progVaddr
  memcpy progVaddr bufPage 1024
  pageDirActivate parent

/-- The loop over the bits of a byte, `n` of which are left. -/
def copyBits (vaddrBtmp vaddrStart idxByte idxBit : Nat) : Nat → PgM Unit
  | 0 => return
  | n + 1 => do
      if (← get).bitmaps vaddrBtmp (idxByte * 8 + idxBit) then
        copyPage p child parent bufPage ((idxByte * 8 + idxBit) * 4096 + vaddrStart)
      copyBits vaddrBtmp vaddrStart idxByte (idxBit + 1) n

/-- The loop over the bytes, `n` of which are left. -/
def copyBytes (vaddrBtmp vaddrStart idxByte : Nat) : Nat → PgM Unit
  | 0 => return
  | n + 1 => do
      let m ← get
      if (List.range 8).any fun b => m.bitmaps vaddrBtmp (idxByte * 8 + b) then
        copyBits p child parent bufPage vaddrBtmp vaddrStart idxByte 0 8
      copyBytes vaddrBtmp vaddrStart (idxByte + 1) n

def copyBodyStack3 : PgM Unit := do
  let x := (← get).task parent
  copyBytes p child parent bufPage x.bits x.vaddrStart 0 x.btmpBytesLen

end Body

def copyProcess (p : Pools) (child parent : Nat) : PgM Int := do
  match ← getKernelPages p 1 with
  | none => return -1
  | some bufPage =>
      copyPcbVaddrbitmapStack0 p child parent
      match ← createPageDir p with
      | none =>
          modify fun m => m.setTask child { m.task child with pgdir := 0 }
          return -1
      | some pgdir =>
          modify fun m => m.setTask child { m.task child with pgdir := pgdir }
          copyBodyStack3 p child parent bufPage
          mfreePage p bufPage
          return 0

end Aitos.Proc.Fork
