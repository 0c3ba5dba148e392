import Aitos.Framework.Bits
import Aitos.Framework.Hoare
import Aitos.Framework.LinkedList

/-!
# Pages and the heap

`mm/memory.c` with `bitmap_scan` and the lists of `lib/kernel`, for the calls of one context: the
kernel threads, or one process.  Addresses are numbers of bytes and memory is read in words.  The
pool locks and the disabling of interrupts are left out: the calls of a context come one after
another.  An access to memory goes by the page table entry as it stands, as if each change of an entry
were flushed.
-/

namespace Aitos.Mm

open Framework

/-- How a call can stop instead of returning. -/
inductive Stop where
  /-- an `ASSERT` of the page allocator, which has too few pages -/
  | noPages
  /-- the `ASSERT` of `malloc_page` on the number of pages asked for -/
  | pageCount
  /-- a run that goes on behind the last bit of the virtual bitmap -/
  | pastEnd
  | assertion
  | diverge
  deriving DecidableEq, Repr

/-- `sizeof(struct arena)` -/
def arenaSize : Nat := 12
def pgSize : Nat := 4096
def descCnt : Nat := 7
/-- `sizeof(struct mem_block_desc)` -/
def descSize : Nat := 24
def kHeapStart : Nat := 0xc0100000

/-- Whose pool and page table are in use, and where they lie.  `user` is `PF_USER`. -/
structure Context where
  ndebug : Bool
  user : Bool
  /-- `vaddr_start` and the bits of `vaddr_bitmap` -/
  vaddrStart : Nat
  vaddrLen : Nat
  /-- `phy_addr_start` and the bits of `pool_bitmap`, for `user_pool` and `kernel_pool` -/
  poolStart : Bool → Nat
  poolLen : Bool → Nat
  /-- `pool_size` of the pool in use -/
  poolSize : Nat
  /-- `k_block_descs`, or `u_block_desc` of the process -/
  descs : Nat
  vaddrAligned : vaddrStart % 4096 = 0
  vaddrFits : vaddrStart + 4096 * vaddrLen ≤ 2 ^ 32
  kernelHeap : user = false → vaddrStart = kHeapStart
  poolAligned : ∀ u, poolStart u % 4096 = 0
  kernelPool : 0x102000 ≤ poolStart false
  userPool : poolStart false + 4096 * poolLen false ≤ poolStart true
  poolFits : poolSize ≤ 2 ^ 28
  descsNonnull : 0 < descs
  descsApart : descs + descSize * descCnt ≤ vaddrStart ∨ vaddrStart + 4096 * vaddrLen ≤ descs

/-- Memory by virtual address, the bitmaps, the page directory (which entries are present) and the
page table entries by page number. -/
structure Heap where
  mem : Words
  vaddrBitmap : Nat → Bool
  pool : Bool → Nat → Bool
  pde : Nat → Bool
  pte : Words

abbrev MmM := Code Heap Stop

variable (c : Context)

/-- `ASSERT` -/
def Context.assert (p : Prop) [Decidable p] (stop : Stop) : MmM Unit :=
  if c.ndebug = true ∨ p then pure () else throw stop

/-- `bitmap_scan` of `len` bits.  The first byte that is not `0xff` holds the first clear bit; a
run of several bits may take the bit right behind the last one. -/
def Context.bitmapScan (bits : Nat → Bool) (len cnt : Nat) : MmM (Option Nat) :=
  match firstClear bits 0 len with
  | none => do
      c.assert False .noPages
      return none
  | some start =>
      return if cnt = 1 then some start else scanRun bits cnt (len - start) (start + 1) 1

def vaddrGet (pgCnt : Nat) : MmM (Option Nat) := do
  let h ← get
  match ← c.bitmapScan h.vaddrBitmap c.vaddrLen pgCnt with
  | none => return none
  | some start =>
      if start + pgCnt ≤ c.vaddrLen then
        modify fun h => { h with vaddrBitmap := setBits h.vaddrBitmap start pgCnt true }
        let vaddr := c.vaddrStart + start * 4096
        c.assert (c.user = true → vaddr < 0xc0000000 - 4096) .noPages
        return some vaddr
      else throw .pastEnd

def palloc (user : Bool) : MmM (Option Nat) := do
  let h ← get
  match ← c.bitmapScan (h.pool user) (c.poolLen user) 1 with
  | none => return none
  | some bit =>
      modify fun h =>
        { h with pool := Function.update h.pool user (Function.update (h.pool user) bit true) }
      return some (bit * 4096 + c.poolStart user)

/-- The low bits of a page address are clear, so `| PG_US_U | PG_RW_W | PG_P_1` adds 7. -/
def Heap.setPte (h : Heap) (page phys : Nat) : Heap :=
  { h with pte := Function.update h.pte page (phys + 7) }

/-- `page_table_add`; a missing page table comes from the kernel pool and is cleared. -/
def pageTableAdd (vaddr phys : Nat) : MmM Unit := do
  let h ← get
  if h.pde (vaddr / 2 ^ 22) then
    if h.pte (vaddr / 4096) % 2 = 0 then modify fun h => h.setPte (vaddr / 4096) phys
    else throw .assertion
  else
    match ← palloc c false with
    | none => throw .noPages
    | some _ =>
        modify fun h =>
          { h with
            pde := Function.update h.pde (vaddr / 2 ^ 22) true
            pte := fun page => if page / 1024 = vaddr / 2 ^ 22 then 0 else h.pte page }
        modify fun h => h.setPte (vaddr / 4096) phys

/-- The loop of `malloc_page` -/
def mapPages (vaddr : Nat) : Nat → MmM Bool
  | 0 => return true
  | cnt + 1 => do
      match ← palloc c c.user with
      | none => return false
      | some phys =>
          pageTableAdd c vaddr phys
          mapPages (vaddr + 4096) cnt

/-- `malloc_page` behind its assertion -/
def givePages (pgCnt : Nat) : MmM (Option Nat) := do
  match ← vaddrGet c pgCnt with
  | none => return none
  | some vaddr => if ← mapPages c vaddr pgCnt then return some vaddr else return none

def mallocPage (pgCnt : Nat) : MmM (Option Nat) := do
  c.assert (0 < pgCnt ∧ pgCnt < 3840) .pageCount
  givePages c pgCnt

def Heap.addrV2p (h : Heap) (vaddr : Nat) : Nat :=
  h.pte (vaddr / 4096) / 4096 * 4096 + vaddr % 4096

def pfree (phys : Nat) : MmM Unit :=
  let user : Bool := c.poolStart true ≤ phys
  let index := (phys - c.poolStart user) / 4096
  modify fun h =>
    { h with pool := Function.update h.pool user (Function.update (h.pool user) index false) }

/-- `page_table_pte_remove`.  The operand of its `invlpg` is the slot of the argument on the stack,
so the page itself is not flushed; that no access goes through the old mapping is assumed here. -/
def Heap.pteRemove (h : Heap) (vaddr : Nat) : Heap :=
  { h with pte := Function.update h.pte (vaddr / 4096) 0 }

/-- The loops of `mfree_page` for the pages of one pool -/
def mfreeLoop (user : Bool) (vaddr : Nat) : Nat → MmM Unit
  | 0 => return
  | cnt + 1 => do
      let h ← get
      let phys := h.addrV2p vaddr
      c.assert (phys % 4096 = 0 ∧ c.poolStart user ≤ phys ∧
        (user = false → phys < c.poolStart true)) .assertion
      pfree c phys
      modify fun h => h.pteRemove vaddr
      mfreeLoop user (vaddr + 4096) cnt

def vaddrRemove (vaddr pgCnt : Nat) : MmM Unit :=
  modify fun h =>
    { h with vaddrBitmap := setBits h.vaddrBitmap ((vaddr - c.vaddrStart) / 4096) pgCnt false }

def mfreePage (vaddr pgCnt : Nat) : MmM Unit := do
  c.assert (0 < pgCnt ∧ vaddr % 4096 = 0) .assertion
  let h ← get
  let phys := h.addrV2p vaddr
  c.assert (phys % 4096 = 0 ∧ 0x102000 ≤ phys) .assertion
  mfreeLoop c (c.poolStart true ≤ phys) vaddr pgCnt
  vaddrRemove c vaddr pgCnt

/-- `block_size` of the descriptors that `block_desc_init` sets up -/
def blockSize (index : Nat) : Nat := 16 * 2 ^ index

/-- `block_per_arena` -/
def blockPerArena (index : Nat) : Nat := (pgSize - arenaSize) / blockSize index

/-- The descriptor `&descs[index]` and the two ends of its `free_list` -/
def Context.desc (index : Nat) : Nat := c.descs + descSize * index
def Context.head (index : Nat) : Nat := c.desc index + 8
def Context.tail (index : Nat) : Nat := c.desc index + 16

/-- The index of the descriptor at an address. -/
def Context.descIndex (desc : Nat) : Nat := (desc - c.descs) / descSize

def arena2block (a size index : Nat) : Nat := a + arenaSize + index * size

def block2arena (b : Nat) : Nat := b / 4096 * 4096

def memset (m : Words) (a n : Nat) : Words := fun x => if a ≤ x ∧ x < a + n then 0 else m x

def Heap.setMem (h : Heap) (m : Words) : Heap := { h with mem := m }

/-- `desc`, `cnt` and `large` of the arena at `a` -/
def Heap.arenaDesc (h : Heap) (a : Nat) : Nat := h.mem a
def Heap.arenaCnt (h : Heap) (a : Nat) : Nat := h.mem (a + 4)
def Heap.arenaLarge (h : Heap) (a : Nat) : Nat := h.mem (a + 8)

/-- Fill in `struct arena`. -/
def setArena (m : Words) (a desc cnt large : Nat) : Words :=
  Function.update (Function.update (Function.update m a desc) (a + 8) large) (a + 4) cnt

/-- `elem_find` in the free list of descriptor `index`; no list has as many nodes as there are
addresses. -/
def elemFind (index obj : Nat) : MmM Bool := do
  let h ← get
  match findFrom h.mem (c.tail index) obj (2 ^ 32) (h.mem (c.head index + 4)) with
  | none => throw .diverge
  | some found => return found

/-- `ASSERT` on the result of `elem_find` -/
def assertFound (index obj : Nat) (found : Bool) : MmM Unit :=
  if c.ndebug then return
  else do
    let r ← elemFind c index obj
    c.assert (r = found) .assertion

/-- `list_append` to the free list of descriptor `index` -/
def listAppend (index b : Nat) : MmM Unit :=
  modify fun h => h.setMem (insertBefore h.mem (c.tail index) b)

/-- `list_remove` -/
def listRemove (b : Nat) : MmM Unit := modify fun h => h.setMem (unlink h.mem b)

/-- Split the arena at `a` into the blocks from `blockIndex` on. -/
def splitArena (a index blockIndex : Nat) : Nat → MmM Unit
  | 0 => return
  | n + 1 => do
      let b := arena2block a (blockSize index) blockIndex
      assertFound c index b false
      listAppend c index b
      splitArena a index (blockIndex + 1) n

/-- The first descriptor from `index` on whose blocks are large enough. -/
def sizeClass (size index : Nat) : Nat → Nat
  | 0 => index
  | n + 1 => if size ≤ blockSize index then index else sizeClass size (index + 1) n

/-- A block of more than 1024 bytes is an arena of its own. -/
def mallocLarge (size : Nat) : MmM (Option Nat) := do
  let pageCnt := (size + arenaSize + pgSize - 1) / pgSize
  match ← mallocPage c pageCnt with
  | none => return none
  | some a =>
      modify fun h => h.setMem (setArena (memset h.mem a (pageCnt * pgSize)) a 0 pageCnt 1)
      return some (a + arenaSize)

/-- A new arena for descriptor `index`; `false` when there is no page -/
def newArena (index : Nat) : MmM Bool := do
  match ← mallocPage c 1 with
  | none => return false
  | some a =>
      modify fun h =>
        h.setMem (setArena (memset h.mem a pgSize) a (c.desc index) (blockPerArena index) 0)
      splitArena c a index 0 (blockPerArena index)
      return true

/-- Take the first block of the free list of descriptor `index`. -/
def popBlock (index : Nat) : MmM Nat := do
  let h ← get
  let b := h.mem (c.head index + 4)
  listRemove b
  modify fun h => h.setMem (memset h.mem b (blockSize index))
  let a := block2arena b
  modify fun h => h.setMem (Function.update h.mem (a + 4) ((h.arenaCnt a + 2 ^ 32 - 1) % 2 ^ 32))
  return b

def mallocSmall (size : Nat) : MmM (Option Nat) := do
  let index := sizeClass size 0 descCnt
  let h ← get
  if h.mem (c.head index + 4) = c.tail index then
    if ← newArena c index then return some (← popBlock c index) else return none
  else return some (← popBlock c index)

/-- `sys_malloc`; `NULL` is `none`. -/
def sysMalloc (size : Nat) : MmM (Option Nat) :=
  if ¬ (0 < size ∧ size < c.poolSize) then return none
  else if 1024 < size then mallocLarge c size
  else mallocSmall c size

/-- Take the blocks of the arena at `a` from `blockIndex` on out of the free list. -/
def unsplitArena (a index blockIndex : Nat) : Nat → MmM Unit
  | 0 => return
  | n + 1 => do
      let b := arena2block a (blockSize index) blockIndex
      assertFound c index b true
      listRemove b
      unsplitArena a index (blockIndex + 1) n

/-- `sys_free` of a block of a small arena -/
def freeSmall (a ptr : Nat) : MmM Unit := do
  let h ← get
  let index := c.descIndex (h.arenaDesc a)
  listAppend c index ptr
  modify fun h => h.setMem (Function.update h.mem (a + 4) ((h.arenaCnt a + 1) % 2 ^ 32))
  let h ← get
  if h.arenaCnt a = blockPerArena index then
    unsplitArena c a index 0 (blockPerArena index)
    mfreePage c a 1

def sysFree (ptr : Nat) : MmM Unit := do
  c.assert (ptr ≠ 0) .assertion
  if ptr = 0 then return
  else
    c.assert (c.user = false → kHeapStart ≤ ptr) .assertion
    let h ← get
    let a := block2arena ptr
    c.assert (h.arenaLarge a = 1 ∨ h.arenaLarge a = 0) .assertion
    if h.arenaDesc a = 0 ∧ h.arenaLarge a = 1 then mfreePage c a (h.arenaCnt a)
    else freeSmall c a ptr

end Aitos.Mm
