import Aitos.Fs.AtomicOpen
import Aitos.Fs.Allocation

/-!
# Creations that fail

`file_create` with the assertions compiled out, so that a bitmap without a free bit makes it return
-1.  It undoes its steps in a `switch` without breaks and misses some: `io_buf` when there is no
inode, `pgdir` when there is no memory for it.  The inode is allocated with `pgdir` cleared and freed
with `pgdir` set back, so for a process `sys_free` takes it for memory of the process.
-/

namespace Aitos.Fs

open Framework

/-- The bitmaps in memory, the disk with the blocks of the parent, the inodes in memory, the file
table, the kernel's heap and `pgdir` of the running thread are as before. -/
structure CreateUndone (s s' : State) : Prop where
  inodeBitmap : s'.inodeBitmap = s.inodeBitmap
  blockBitmap : s'.blockBitmap = s.blockBitmap
  disk : s'.disk = s.disk
  inode : ∀ p < s.nextInode, s'.inode p = s.inode p
  fileTable : s'.fileTable = s.fileTable
  kernel : s'.mem.kernel = s.mem.kernel
  lost : s'.mem.lost = s.mem.lost
  pgdir : s'.mem.pgdir s.cur = s.mem.pgdir s.cur

section Heap

variable {m : Memory} {k : Bool}

theorem malloc_kernel (h : m.serve m.calls = true) :
    (m.malloc k).kernel = if k then m.kernel + 1 else m.kernel := by
  rw [Memory.malloc, h]
  rfl

theorem malloc_kernel_of_failed (h : m.serve m.calls = false) : (m.malloc k).kernel = m.kernel := by
  rw [Memory.malloc, h]
  rfl

end Heap

section Bitmaps

variable {s s' : State}

theorem blockBitmapAlloc_cases {r : Option UInt32} (h : blockBitmapAlloc s = .ok (r, s')) :
    (firstClear s.blockBitmap 0 s.blockBits = none ∧ r = none ∧ s' = s) ∨
    ∃ i, firstClear s.blockBitmap 0 s.blockBits = some i ∧ i < s.blockBits ∧
      s.blockBitmap i = false ∧ r = some (s.part.sb.dataStartLba + UInt32.ofNat i) ∧
      s' = s.setBlockBit i true := by
  simp only [blockBitmapAlloc, bitmapScan, Code.get_bind, Code.bind_ok, assert_ok, Code.pure_ok]
    at h
  obtain ⟨found, s₁, ⟨_, s₂, ⟨rfl, -⟩, rfl, rfl⟩, h⟩ := h
  cases hf : firstClear s₁.blockBitmap 0 s₁.blockBits with
  | none =>
      rw [hf] at h
      obtain ⟨hr, hs⟩ := Code.pure_ok.mp h
      exact .inl ⟨rfl, hr, hs⟩
  | some i =>
      simp only [hf, blockBitmapSet, Code.bind_ok, Code.get_bind, require_ok, Code.modify_ok,
        Code.pure_ok] at h
      obtain ⟨_, s₂, ⟨_, s₃, ⟨rfl, hlt⟩, rfl⟩, rfl, rfl⟩ := h
      exact .inr ⟨i, rfl, hlt, (firstClear_some hf).2.2, rfl, rfl⟩

theorem inodeBitmapAlloc_cases {r : Option UInt32} (h : inodeBitmapAlloc s = .ok (r, s')) :
    (firstClear s.inodeBitmap 0 s.inodeBits = none ∧ r = none ∧ s' = s) ∨
    ∃ no : UInt32, firstClear s.inodeBitmap 0 s.inodeBits = some no.toNat ∧
      s.inodeBitmap no.toNat = false ∧ r = some no ∧ s' = s.setInodeBit no.toNat true := by
  simp only [inodeBitmapAlloc, bitmapScan, Code.get_bind, Code.bind_ok, assert_ok, Code.pure_ok]
    at h
  obtain ⟨found, s₁, ⟨_, s₂, ⟨rfl, -⟩, rfl, rfl⟩, h⟩ := h
  cases hf : firstClear s₁.inodeBitmap 0 s₁.inodeBits with
  | none =>
      rw [hf] at h
      obtain ⟨hr, hs⟩ := Code.pure_ok.mp h
      exact .inl ⟨rfl, hr, hs⟩
  | some i =>
      simp only [hf, inodeBitmapSet, Code.bind_ok, Code.get_bind, require_ok, Code.modify_ok,
        Code.pure_ok] at h
      obtain ⟨_, s₂, ⟨_, s₃, ⟨rfl, hlt⟩, rfl⟩, rfl, rfl⟩ := h
      have hbits : s₃.inodeBits = 4096 := by
        rw [State.inodeBits, s₃.part.layout.inodeBits]
      have hno : (UInt32.ofNat i).toNat = i := by
        rw [UInt32.toNat_ofNat']
        exact Nat.mod_eq_of_lt (by omega)
      refine .inr ⟨UInt32.ofNat i, ?_, ?_, rfl, ?_⟩
      · rw [hno]
      · rw [hno]
        exact (firstClear_some hf).2.2
      · rw [hno]

end Bitmaps

/-- The block at which `sync_dir_entry` has to take a new one, if no block before it has room. -/
def growAt (disk : Bytes) (blocks : Nat → UInt32) (i : Nat) : Nat → Option Nat
  | 0 => none
  | n + 1 =>
      if blocks i = 0 then some i
      else
        match freeEntry (sectorOf disk (blocks i)) 0 entriesPerSec with
        | some _ => none
        | none => growAt disk blocks (i + 1) n

/-- The same for the directory inode `ino`, of which `sync_dir_entry` knows the direct blocks. -/
def Inode.growsAt (ino : Inode) (disk : Bytes) : Option Nat :=
  growAt disk (fun i => if i < 12 then ino.iSectors i else 0) 0 140

/-- The free block that is taken next, and whether there is another one. -/
def State.nextBlock (s : State) : Option Nat := firstClear s.blockBitmap 0 s.blockBits

def State.blockAfter (s : State) (i : Nat) : Option Nat :=
  firstClear (Function.update s.blockBitmap i true) 0 s.blockBits

/-- `sync_dir_entry` has given back the block for the indirect table of inode `p` in memory, but
not on the disk. -/
def State.lostTable (s : State) (p : Ptr) (i : Nat) : State :=
  (s.setSector p 12 0).writeSectors (s.part.sb.blockBitmapLba + UInt32.ofNat (i / 4096))
    (fun k => packByte (Function.update s.blockBitmap i true) (512 * (i / 4096) + k)) 1

section Sync

variable {s s' : State} {p : Ptr} {de : Bytes} {blocks : Nat → UInt32} {b : Bool}

/-- What becomes of a directory that needs a new block at index `j`. -/
inductive DirGrown (s : State) (p : Ptr) (j : Nat) : Bool → State → Prop where
  | done {i : Nat} {s' : State} (hi : s.nextBlock = some i)
      (hnext : j = 12 → (s.blockAfter i).isSome = true) : DirGrown s p j true s'
  | noBlock (hi : s.nextBlock = none) : DirGrown s p j false s
  | noSecond {i : Nat} (hj : j = 12) (hi : s.nextBlock = some i) (hnext : s.blockAfter i = none) :
      DirGrown s p j false (s.lostTable p i)

private theorem lostTable_eq {i : Nat} (hclear : s.blockBitmap i = false) (lba : UInt32) :
    ((((s.setBlockBit i true).syncBlockBit i).setSector p 12 lba).setBlockBit i false).setSector p
      12 0 = s.lostTable p i := by
  have hbits : Function.update s.blockBitmap i false = s.blockBitmap := by
    rw [← hclear, Function.update_eq_self]
  simp only [State.lostTable, State.setSector, State.setInode, State.setBlockBit,
    State.syncBlockBit, State.writeSectors, Function.update_self, Function.update_idem, hbits]

private theorem growDir_grown {j : Nat} (h : growDir p de blocks j s = .ok (b, s')) :
    DirGrown s p j b s' := by
  rw [growDir] at h
  obtain ⟨r, s₁, halloc, hrest⟩ := Code.bind_ok.mp h
  rcases blockBitmapAlloc_cases halloc with ⟨hnone, rfl, rfl⟩ | ⟨i, hsome, hlt, hclear, rfl, rfl⟩
  · obtain ⟨rfl, rfl⟩ := Code.pure_ok.mp hrest
    exact .noBlock hnone
  · have hidx : s.blockIdx (s.part.sb.dataStartLba + UInt32.ofNat i) = i := blockIdx_blockLba hlt
    have hidx₁ : (s.setBlockBit i true).blockIdx (s.part.sb.dataStartLba + UInt32.ofNat i) = i := hidx
    simp only [Code.get_bind] at hrest
    obtain ⟨_, s₂, hassert, hsync⟩ := Code.bind_ok.mp hrest
    obtain ⟨rfl, -⟩ := assert_ok.mp hassert
    rw [hidx₁, Code.bind_of_ok (bitmapSync_block _ _)] at hsync
    split at hsync
    · rename_i hj
      rw [Code.modify_bind] at hsync
      obtain ⟨_, s₃, -, hret⟩ := Code.bind_ok.mp hsync
      obtain ⟨rfl, -⟩ := Code.pure_ok.mp hret
      exact .done hsome (by omega)
    · split at hsync
      · rename_i hj
        rw [Code.modify_bind] at hsync
        obtain ⟨r₂, s₃, halloc₂, htail⟩ := Code.bind_ok.mp hsync
        rcases blockBitmapAlloc_cases halloc₂ with ⟨hnone, rfl, rfl⟩ | ⟨k, hsome₂, -, -, rfl, rfl⟩
        · obtain ⟨_, s₄, hset, hback⟩ := Code.bind_ok.mp htail
          rw [blockBitmapSet, Code.get_bind] at hset
          obtain ⟨_, s₅, hreq, hmod⟩ := Code.bind_ok.mp hset
          obtain ⟨rfl, -⟩ := require_ok.mp hreq
          obtain rfl := Code.modify_ok.mp hmod
          rw [Code.modify_bind] at hback
          obtain ⟨rfl, rfl⟩ := Code.pure_ok.mp hback
          rw [lostTable_eq hclear]
          exact .noSecond hj hsome hnone
        · obtain ⟨_, s₄, hassert₂, h₄⟩ := Code.bind_ok.mp htail
          obtain ⟨_, s₅, -, h₅⟩ := Code.bind_ok.mp h₄
          obtain ⟨_, s₆, -, h₆⟩ := Code.bind_ok.mp h₅
          obtain ⟨_, s₇, -, h₇⟩ := Code.bind_ok.mp h₆
          obtain ⟨rfl, -⟩ := Code.pure_ok.mp h₇
          refine .done hsome fun _ => ?_
          have hafter : s.blockAfter i = some k := hsome₂
          rw [hafter]
          rfl
      · rename_i hj
        obtain ⟨_, s₃, -, h₃⟩ := Code.bind_ok.mp hsync
        obtain ⟨_, s₄, -, h₄⟩ := Code.bind_ok.mp h₃
        obtain ⟨rfl, -⟩ := Code.pure_ok.mp h₄
        exact .done hsome fun h => absurd h hj

private theorem syncLoop_grown (hb : blocks 12 = 0) (n : Nat) : ∀ {i : Nat}, i ≤ 12 → 12 < i + n →
    syncLoop p de blocks i n s = .ok (b, s') →
    (growAt s.disk blocks i n = none ∧ b = true) ∨
      ∃ j, growAt s.disk blocks i n = some j ∧ DirGrown s p j b s' := by
  induction n with
  | zero =>
      intro i hi hin h
      omega
  | succ n ih =>
      intro i hi hin h
      rw [syncLoop] at h
      rw [growAt]
      split at h
      · rename_i hzero
        rw [if_pos hzero]
        exact .inr ⟨i, rfl, growDir_grown h⟩
      · rename_i hne
        have hlt : i ≠ 12 := fun he => hne (by rw [he, hb])
        rw [if_neg hne]
        obtain ⟨buf, s₁, hread, hrest⟩ := Code.bind_ok.mp h
        obtain ⟨rfl, rfl⟩ := ideRead_ok.mp hread
        have hbuf : Bytes.zero.blit 0 (512 * 1) (s₁.disk.drop (512 * (blocks i).toNat)) =
            sectorOf s₁.disk (blocks i) := rfl
        rw [hbuf] at hrest
        cases hf : freeEntry (sectorOf s₁.disk (blocks i)) 0 entriesPerSec with
        | none =>
            rw [hf] at hrest
            exact ih (by omega) (by omega) hrest
        | some k =>
            rw [hf] at hrest
            obtain ⟨_, s₂, -, hret⟩ := Code.bind_ok.mp hrest
            exact .inl ⟨rfl, (Code.pure_ok.mp hret).1⟩

theorem syncDirEntry_grown {d : DirPtr} (h : syncDirEntry d de s = .ok (b, s')) :
    ((s.dirInode d).growsAt s.disk = none ∧ b = true) ∨
      ∃ j, (s.dirInode d).growsAt s.disk = some j ∧ DirGrown s (s.dir d).inode j b s' := by
  rw [syncDirEntry, Code.get_bind] at h
  obtain ⟨_, s₁, hassert, hloop⟩ := Code.bind_ok.mp h
  obtain ⟨rfl, -⟩ := assert_ok.mp hassert
  exact syncLoop_grown (if_neg (by decide)) 140 (by decide) (by decide) hloop

/-- `sync_dir_entry` on the directory of handle `d` fails and leaves no trace: there is no block at
all, or only one where an indirect table needs two, the directory has no table, and the bit of that
block is set on the disk anyway. -/
def State.FailsCleanly (s : State) (d : DirPtr) : Prop :=
  ∃ j, (s.dirInode d).growsAt s.disk = some j ∧
    (s.nextBlock = none ∨ j = 12 ∧ ∃ i, s.nextBlock = some i ∧ s.blockAfter i = none ∧
      (s.dirInode d).iSectors 12 = 0 ∧ ((s.setBlockBit i true).syncBlockBit i).disk = s.disk)

private theorem lostTable_inode_self (i : Nat) : ((s.lostTable p i).inode p).iSectors =
    Function.update (s.inode p).iSectors 12 0 := by
  change (Function.update s.inode p _ p).iSectors = _
  rw [Function.update_self]

private theorem syncDirEntry_clean_iff {d : DirPtr} (h : syncDirEntry d de s = .ok (false, s')) :
    (s'.disk = s.disk ∧ s'.inode (s.dir d).inode = s.inode (s.dir d).inode) ↔
      s.FailsCleanly d := by
  rcases syncDirEntry_grown h with ⟨-, hb⟩ | ⟨j, hj, hgrown⟩
  · cases hb
  · cases hgrown with
    | noBlock hnone => exact ⟨fun _ => ⟨j, hj, .inl hnone⟩, fun _ => ⟨rfl, rfl⟩⟩
    | noSecond hj12 hi hnext =>
        rename_i i
        constructor
        · rintro ⟨hdisk, hino⟩
          refine ⟨j, hj, .inr ⟨hj12, i, hi, hnext, ?_, hdisk⟩⟩
          have hsec := congrFun (congrArg Inode.iSectors hino) 12
          rw [lostTable_inode_self, Function.update_self] at hsec
          exact hsec.symm
        · rintro ⟨j', -, hnone | ⟨-, i', hi', -, htable, hdisk⟩⟩
          · rw [hnone] at hi
            cases hi
          · rw [hi] at hi'
            cases hi'
            refine ⟨hdisk, ?_⟩
            change Function.update s.inode (s.dir d).inode _ (s.dir d).inode = _
            rw [Function.update_self]
            have hsame : Function.update (s.inode (s.dir d).inode).iSectors 12 0 =
                (s.inode (s.dir d).inode).iSectors :=
              Function.update_eq_self_iff.mpr htable.symm
            rw [hsame]

theorem syncDirEntry_failed {d : DirPtr} (h : syncDirEntry d de s = .ok (false, s')) :
    s'.blockBitmap = s.blockBitmap ∧ s'.inodeBitmap = s.inodeBitmap ∧
      s'.fileTable = s.fileTable ∧ s'.mem = s.mem ∧ s'.cur = s.cur ∧
      ∀ q ≠ (s.dir d).inode, s'.inode q = s.inode q := by
  rcases syncDirEntry_grown h with ⟨-, hb⟩ | ⟨j, -, hgrown⟩
  · cases hb
  · cases hgrown with
    | noBlock _ => exact ⟨rfl, rfl, rfl, rfl, rfl, fun _ _ => rfl⟩
    | noSecond _ _ _ => exact ⟨rfl, rfl, rfl, rfl, rfl, fun q hq => Function.update_of_ne hq _ _⟩

private theorem syncDirEntry_not_clean {d : DirPtr} (h : syncDirEntry d de s = .ok (true, s')) :
    ¬ s.FailsCleanly d := by
  rintro ⟨j', hj', hcase⟩
  rcases syncDirEntry_grown h with ⟨hnone, -⟩ | ⟨j, hj, hgrown⟩
  · rw [hnone] at hj'
    cases hj'
  · rw [hj] at hj'
    cases hj'
    cases hgrown with
    | done hi hnext =>
        rcases hcase with hnone | ⟨hj12, i', hi', hafter, -⟩
        · rw [hnone] at hi
          cases hi
        · rw [hi] at hi'
          cases hi'
          have hsome := hnext hj12
          rw [hafter] at hsome
          cases hsome

private theorem failsCleanly_congr {d : DirPtr} (hino : s'.dirInode d = s.dirInode d)
    (hdisk : s'.disk = s.disk) (hbits : s'.blockBitmap = s.blockBitmap) (hpart : s'.part = s.part) :
    s'.FailsCleanly d ↔ s.FailsCleanly d := by
  have hsync : ∀ i, ((s'.setBlockBit i true).syncBlockBit i).disk =
      ((s.setBlockBit i true).syncBlockBit i).disk := by
    intro i
    simp only [State.syncBlockBit, State.writeSectors, State.setBlockBit, hdisk, hbits, hpart]
  simp only [State.FailsCleanly, State.nextBlock, State.blockAfter, State.blockBits, hino, hdisk,
    hbits, hpart, hsync]

end Sync

/-- The conditions under which a `file_create` that returns -1 has undone its steps: there is no
memory for `io_buf`; or there is no inode, and what is lost is memory of a process; or there is an
inode, and there is no memory for it and `pgdir` was `NULL` already, or there is, it can be freed
with `pgdir` set back, and there is no slot in `file_table` or the slot was zero and the entry could
not be written and left no trace. -/
def State.CreateFailsCleanly (s : State) (d : DirPtr) : Prop :=
  s.mem.serve s.mem.calls = false ∨
    firstClear s.inodeBitmap 0 s.inodeBits = none ∧ s.kernelHeap = false ∨
    firstClear s.inodeBitmap 0 s.inodeBits ≠ none ∧
      (s.mem.serve (s.mem.calls + 1) = false ∧ s.kernelHeap = true ∨
        s.mem.serve (s.mem.calls + 1) = true ∧
          (s.kernelHeap = true ∨ s.mem.fresh (s.mem.calls + 1) = false) ∧
          (s.tableFull ∨ ∃ i, s.freeSlot 3 (maxFileOpen - 3) = some i ∧
            s.fileTable i = ⟨0, 0, none⟩ ∧ s.FailsCleanly d))

/-- The state after the rollback of `file_create` from step 2 on. -/
def State.rolledBack (s : State) (no : UInt32) (ino : Block) : State :=
  (s.setInodeBit no.toNat false).setMem
    ((s.mem.free s.kernelHeap ino).free s.kernelHeap ⟨s.kernelHeap, false⟩)

section Create

variable {s t s' : State} {d : DirPtr} {name : List UInt8} {flag no : UInt32} {p : Ptr}
  {ino : Block} {i : Nat}

/-- With `pgdir` cleared the next block is the kernel's. -/
private theorem setPgdir_heapBlock (s : State) :
    (s.setPgdir 0).heapBlock = ⟨true, s.mem.fresh s.mem.calls⟩ := by
  rw [State.heapBlock, State.kernelHeap]
  exact congrArg₂ Block.mk (decide_eq_true (Function.update_self _ _ _)) rfl

theorem createDirEntry_same (name : List UInt8) (no t : UInt32) :
    Keeps Eq (createDirEntry name no t) := keeps_createDirEntry name no t

theorem update_true_false {b : Nat → Bool} {i : Nat} (h : b i = false) :
    Function.update (Function.update b i true) i false = b := by
  rw [Function.update_idem, ← h, Function.update_eq_self]

private theorem rollback_ok {r : Option Nat}
    (h : (do
      sysFreeBlock ino
      inodeBitmapSet no.toNat false
      sysFree
      return none : FsM (Option Nat)) s = .ok (r, s')) : s' = s.rolledBack no ino := by
  simp only [inodeBitmapSet, Code.bind_ok, Code.get_bind, require_ok, Code.modify_ok,
    sysFreeBlock_ok, sysFree_ok, Code.pure_ok] at h
  obtain ⟨_, s₁, ⟨rfl, -⟩, _, s₂, ⟨_, s₃, ⟨rfl, -⟩, rfl⟩, _, s₄, rfl, -, rfl⟩ := h
  rfl

/-- The two blocks are free again; the kernel has lost the page of the inode when that was freed as
a page of the process. -/
private theorem rolledBack_mem {k alone : Bool} {m : Memory} (h₁ : m.serve m.calls = true)
    (h₂ : m.serve (m.calls + 1) = true) {m' : Memory}
    (hm : m' = (((m.malloc k).malloc true).free k ⟨true, alone⟩).free k ⟨k, false⟩) :
    m'.kernel = m.kernel ∧ (m'.lost = m.lost ↔ k = true ∨ alone = false) ∧ m'.pgdir = m.pgdir := by
  rw [hm]
  cases k
  · cases alone <;> simp [Memory.free, Memory.malloc, h₁, h₂]
  · cases alone <;> simp [Memory.free, Memory.malloc, h₁, h₂]

private theorem rolledBack_undone_iff (h₁ : s.mem.serve s.mem.calls = true)
    (h₂ : s.mem.serve (s.mem.calls + 1) = true) (hclear : s.inodeBitmap no.toNat = false)
    (hbits : t.inodeBitmap = Function.update s.inodeBitmap no.toNat true) (hcur : t.cur = s.cur)
    (hmem : t.mem = s.malloc.malloc true) :
    CreateUndone s (t.rolledBack no ⟨true, s.mem.fresh (s.mem.calls + 1)⟩) ↔
      (s.kernelHeap = true ∨ s.mem.fresh (s.mem.calls + 1) = false) ∧
        t.blockBitmap = s.blockBitmap ∧ t.disk = s.disk ∧ t.fileTable = s.fileTable ∧
          ∀ q < s.nextInode, t.inode q = s.inode q := by
  have hheap : t.kernelHeap = s.kernelHeap := by
    rw [State.kernelHeap, hmem, hcur]
    rfl
  have hafter : (t.rolledBack no ⟨true, s.mem.fresh (s.mem.calls + 1)⟩).mem =
      (((s.mem.malloc s.kernelHeap).malloc true).free s.kernelHeap
        ⟨true, s.mem.fresh (s.mem.calls + 1)⟩).free s.kernelHeap ⟨s.kernelHeap, false⟩ := by
    rw [State.rolledBack, State.setMem_mem, hheap, hmem, State.malloc]
  obtain ⟨hkernel, hlost, hpgdir⟩ := rolledBack_mem h₁ h₂ hafter
  constructor
  · intro hu
    exact ⟨hlost.mp hu.lost, hu.blockBitmap, hu.disk, hu.fileTable, hu.inode⟩
  · rintro ⟨hl, hblock, hdisk, hfile, hinode⟩
    refine ⟨?_, hblock, hdisk, hinode, hfile, hkernel, hlost.mpr hl, congrFun hpgdir _⟩
    change Function.update t.inodeBitmap no.toNat false = _
    rw [hbits, update_true_false hclear]

/-- A `file_create` that got as far as the entry and returns -1 has made the file, or takes the
rollback. -/
private theorem createIn_failed (h : createIn d name no p ino i s = .ok (none, s')) :
    (s'.fileTable = s.fileTable ∧ ¬ s.FailsCleanly d) ∨
    ∃ de s₁, syncDirEntry d de s = .ok (false, s₁) ∧
      s' = (s₁.setFile i ⟨0, 0, none⟩).rolledBack no ino := by
  rw [createIn] at h
  obtain ⟨de, s₁, hde, hrest⟩ := Code.bind_ok.mp h
  obtain ⟨b, s₂, hsync, htail⟩ := Code.bind_ok.mp hrest
  obtain rfl := createDirEntry_same _ _ _ _ _ _ hde
  cases b with
  | true =>
      simp only [↓reduceIte, Code.bind_ok, Code.get_bind, Code.modify_bind] at htail
      obtain ⟨_, s₃, h₃, _, s₄, h₄, _, s₅, h₅, _, s₆, h₆, hinstall⟩ := htail
      have hq : Quiet s s₅ :=
        trans_of Quiet (quiet_syncDirEntry _ _ _ _ _ hsync) (trans_of Quiet
          (quiet_inodeSync _ _ _ _ h₃) (trans_of Quiet (quiet_inodeSync _ _ _ _ h₄)
            (quiet_bitmapSync _ _ _ _ _ h₅)))
      have hq₆ := quiet_sysFree _ _ _ h₆
      obtain ⟨rfl, -⟩ := pcbFdInstall_none hinstall
      exact .inl ⟨hq₆.fileTable.trans hq.fileTable, syncDirEntry_not_clean hsync⟩
  | false =>
      simp only [Bool.false_eq_true, ↓reduceIte, Code.modify_bind] at htail
      exact .inr ⟨de, s₂, hsync, rollback_ok htail⟩

private theorem createIn_undone_iff (h₁ : s.mem.serve s.mem.calls = true)
    (h₂ : s.mem.serve (s.mem.calls + 1) = true)
    (hslot : s.freeSlot 3 (maxFileOpen - 3) = some i)
    (hclear : s.inodeBitmap no.toNat = false) (hd : (s.dir d).inode < s.nextInode)
    (ht : t = ((((s.setMem s.malloc).setInodeBit no.toNat true).setMem
      (s.malloc.malloc true)).newInode (inodeInit no)).setFile i ⟨0, flag, some s.nextInode⟩)
    (h : createIn d name no s.nextInode ⟨true, s.mem.fresh (s.mem.calls + 1)⟩ i t =
      .ok (none, s')) :
    CreateUndone s s' ↔ (s.kernelHeap = true ∨ s.mem.fresh (s.mem.calls + 1) = false) ∧
      s.fileTable i = ⟨0, 0, none⟩ ∧ s.FailsCleanly d := by
  have hold : ∀ q < s.nextInode, t.inode q = s.inode q := by
    intro q hq
    rw [ht]
    exact Function.update_of_ne (Nat.ne_of_lt hq) _ _
  have hdir : t.dir = s.dir := by rw [ht]; rfl
  have hdirInode : t.dirInode d = s.dirInode d := by
    rw [State.dirInode, State.dirInode, hdir, hold _ hd]
  have hclean : t.FailsCleanly d ↔ s.FailsCleanly d :=
    failsCleanly_congr hdirInode (by rw [ht]; rfl) (by rw [ht]; rfl) (by rw [ht]; rfl)
  have htable : t.fileTable = Function.update s.fileTable i ⟨0, flag, some s.nextInode⟩ := by
    rw [ht]
    rfl
  rcases createIn_failed h with ⟨hfiles, hnot⟩ | ⟨de, s₁, hsync, rfl⟩
  · -- the file is there, but no descriptor
    refine iff_of_false ?_ fun hcon => hnot (hclean.mpr hcon.2.2)
    intro hu
    obtain ⟨-, hnone⟩ := (getFreeSlot_ok (s := s) (Code.pure_ok.mpr ⟨hslot.symm, rfl⟩)).2 i rfl
    have hfile := congrFun (hfiles.symm.trans hu.fileTable) i
    rw [htable, Function.update_self] at hfile
    rw [← hfile] at hnone
    cases hnone
  · obtain ⟨hblock, hinode, hfiles, hmem, hcur, hothers⟩ := syncDirEntry_failed hsync
    have hiff := syncDirEntry_clean_iff hsync
    rw [hdir, hclean] at hiff
    have hfile : ((s₁.setFile i ⟨0, 0, none⟩).fileTable = s.fileTable) ↔
        s.fileTable i = ⟨0, 0, none⟩ := by
      rw [State.setFile_fileTable, hfiles, htable, Function.update_idem]
      exact ⟨fun heq => by rw [← heq, Function.update_self], fun heq =>
        Function.update_eq_self_iff.mpr heq.symm⟩
    have hdisk : t.disk = s.disk := by rw [ht]; rfl
    rw [rolledBack_undone_iff h₁ h₂ hclear (by rw [State.setFile_inodeBitmap, hinode, ht]; rfl)
      (by rw [State.setFile_cur, hcur, ht]; rfl) (by rw [State.setFile_mem, hmem, ht]; rfl)]
    refine and_congr_right fun _ => ?_
    constructor
    · rintro ⟨-, hdisk', hfile', hinodes⟩
      refine ⟨hfile.mp hfile', hiff.mp ⟨?_, ?_⟩⟩
      · rw [hdisk]
        exact hdisk'
      · rw [hold _ hd]
        exact hinodes _ hd
    · rintro ⟨hzero, hfails⟩
      obtain ⟨hdisk', hparent⟩ := hiff.mpr hfails
      refine ⟨?_, hdisk'.trans hdisk, hfile.mpr hzero, ?_⟩
      · rw [State.setFile_blockBitmap, hblock, ht]
        rfl
      · intro q hq
        rw [State.setFile_inode]
        by_cases hqd : q = (s.dir d).inode
        · rw [hqd, hparent, hold _ hd]
        · rw [hothers q (by rw [hdir]; exact hqd), hold q hq]

private theorem createFile_undone_iff (h₁ : s.mem.serve s.mem.calls = true)
    (h₂ : s.mem.serve (s.mem.calls + 1) = true) (hclear : s.inodeBitmap no.toNat = false)
    (hd : (s.dir d).inode < s.nextInode)
    (ht : t = ((s.setMem s.malloc).setInodeBit no.toNat true).setMem (s.malloc.malloc true))
    (h : createFile d name flag no ⟨true, s.mem.fresh (s.mem.calls + 1)⟩ t = .ok (none, s')) :
    CreateUndone s s' ↔ (s.kernelHeap = true ∨ s.mem.fresh (s.mem.calls + 1) = false) ∧
      (s.tableFull ∨ ∃ i, s.freeSlot 3 (maxFileOpen - 3) = some i ∧
        s.fileTable i = ⟨0, 0, none⟩ ∧ s.FailsCleanly d) := by
  simp only [createFile, Code.get_bind, Code.modify_bind] at h
  obtain ⟨slot, s₁, hslot, hrest⟩ := Code.bind_ok.mp h
  obtain ⟨hslot', rfl⟩ := Code.pure_ok.mp hslot
  have hfree : slot = s.freeSlot 3 (maxFileOpen - 3) := by
    rw [hslot', ht]
    rfl
  cases slot with
  | none =>
      obtain rfl := rollback_ok hrest
      have hfull : s.tableFull := hfree.symm
      rw [rolledBack_undone_iff h₁ h₂ hclear (by rw [ht]; rfl) (by rw [ht]; rfl) (by rw [ht]; rfl)]
      refine and_congr_right fun _ => iff_of_true ⟨?_, ?_, ?_, ?_⟩ (.inl hfull)
      · rw [ht]; rfl
      · rw [ht]; rfl
      · rw [ht]; rfl
      · intro q hq
        rw [ht]
        exact Function.update_of_ne (Nat.ne_of_lt hq) _ _
  | some i =>
      simp only [Code.modify_bind] at hrest
      have hnext : t.nextInode = s.nextInode := by rw [ht]; rfl
      rw [hnext] at hrest
      rw [createIn_undone_iff h₁ h₂ hfree.symm hclear hd (by rw [ht]) hrest]
      refine and_congr_right fun _ => ⟨fun hcase => .inr ⟨i, hfree.symm, hcase⟩, ?_⟩
      rintro (hfull | ⟨i', hi', hcase⟩)
      · rw [State.tableFull, ← hfree] at hfull
        cases hfull
      · rw [← hfree] at hi'
        cases hi'
        exact hcase

private theorem unserved_undone_iff (h₁ : s.mem.serve s.mem.calls = true)
    (h₂ : s.mem.serve (s.mem.calls + 1) = false) (hclear : s.inodeBitmap no.toNat = false)
    (ht : t = ((s.setMem s.malloc).setInodeBit no.toNat true).setPgdir 0)
    (hs' : s' = ((t.setMem t.malloc).setInodeBit no.toNat false).setMem
      (t.malloc.free t.kernelHeap s.heapBlock)) :
    CreateUndone s s' ↔ s.kernelHeap = true := by
  have hpgdir : s'.mem.pgdir s.cur = 0 := by
    rw [hs', ht]
    exact Function.update_self _ _ _
  have hheap : t.kernelHeap = true := by
    rw [ht]
    exact decide_eq_true (Function.update_self _ _ _)
  constructor
  · intro hu
    have hsame := hu.pgdir
    rw [hpgdir] at hsame
    exact decide_eq_true hsame.symm
  · intro hkernel
    have hnull : s.mem.pgdir s.cur = 0 := of_decide_eq_true hkernel
    have hblock : s.heapBlock.kernel = true := hkernel
    have hmalloc : t.malloc.kernel = s.mem.kernel + 1 := by
      have hfailed : t.mem.serve t.mem.calls = false := by
        rw [ht]
        exact h₂
      rw [State.malloc, malloc_kernel_of_failed hfailed, ht]
      exact (malloc_kernel h₁).trans (if_pos hkernel)
    have hlost : t.malloc.lost = s.mem.lost := by
      rw [ht]
      rfl
    have hmem : s'.mem = t.malloc.free true s.heapBlock := by
      rw [hs', hheap]
      rfl
    refine ⟨?_, ?_, ?_, ?_, ?_, ?_, ?_, hpgdir.trans hnull.symm⟩
    · rw [hs', ht]
      exact update_true_false hclear
    · rw [hs', ht]; rfl
    · rw [hs', ht]; rfl
    · rw [hs', ht]
      exact fun _ _ => rfl
    · rw [hs', ht]; rfl
    · rw [hmem, Memory.free, hblock]
      exact congrArg (· - 1) hmalloc
    · rw [hmem, Memory.free, hblock]
      simp [hlost]

theorem fileCreate_undone_iff (hd : (s.dir d).inode < s.nextInode)
    (h : fileCreate d name flag s = .ok (none, s')) :
    CreateUndone s s' ↔ s.CreateFailsCleanly d := by
  rw [fileCreate, Code.get_bind] at h
  obtain ⟨ioBuf, s₁, hmalloc, hrest⟩ := Code.bind_ok.mp h
  obtain ⟨rfl, rfl⟩ := sysMalloc_ok.mp hmalloc
  split at hrest
  · -- no memory for `io_buf`
    rename_i hfail
    obtain ⟨-, rfl⟩ := Code.pure_ok.mp hrest
    refine iff_of_true ⟨rfl, rfl, rfl, fun _ _ => rfl, rfl, ?_, rfl, rfl⟩ (.inl hfail)
    exact malloc_kernel_of_failed hfail
  · rename_i hserved
    have h₁ : s.mem.serve s.mem.calls = true := by simpa using hserved
    rw [State.CreateFailsCleanly, h₁]
    simp only [Bool.true_eq_false, false_or]
    obtain ⟨found, s₂, halloc, hinode⟩ := Code.bind_ok.mp hrest
    rcases inodeBitmapAlloc_cases halloc with ⟨hnone, rfl, rfl⟩ | ⟨no, hsome, hclear, rfl, rfl⟩
    · -- `io_buf` is lost
      obtain ⟨-, rfl⟩ := Code.pure_ok.mp hinode
      have hnone' : firstClear s.inodeBitmap 0 s.inodeBits = none := hnone
      have hkernel : s.malloc.kernel = if s.kernelHeap then s.mem.kernel + 1 else s.mem.kernel :=
        malloc_kernel h₁
      simp only [hnone', ne_eq, not_true_eq_false, false_and, or_false, true_and]
      constructor
      · intro hu
        have hheap : s.malloc.kernel = s.mem.kernel := hu.kernel
        by_contra hcon
        rw [hkernel, if_pos (Bool.eq_true_of_not_eq_false hcon)] at hheap
        omega
      · intro hprocess
        refine ⟨rfl, rfl, rfl, fun _ _ => rfl, rfl, ?_, rfl, rfl⟩
        exact hkernel.trans (if_neg (by rw [hprocess]; decide))
    · have hsome' : firstClear s.inodeBitmap 0 s.inodeBits = some no.toNat := hsome
      simp only [hsome', reduceCtorEq, false_and, ne_eq, not_false_eq_true, true_and, false_or]
      simp only [Code.get_bind, Code.modify_bind] at hinode
      obtain ⟨newInode, s₃, hmalloc₂, hrest₂⟩ := Code.bind_ok.mp hinode
      obtain ⟨rfl, rfl⟩ := sysMalloc_ok.mp hmalloc₂
      split at hrest₂
      · -- `pgdir` stays `NULL`
        rename_i hfail
        have h₂ : s.mem.serve (s.mem.calls + 1) = false := hfail
        simp only [inodeBitmapSet, Code.bind_ok, Code.get_bind, require_ok, Code.modify_ok,
          sysFreeBlock_ok, Code.pure_ok] at hrest₂
        obtain ⟨_, s₄, ⟨_, s₅, ⟨rfl, -⟩, rfl⟩, _, s₆, ⟨rfl, -⟩, -, rfl⟩ := hrest₂
        refine (unserved_undone_iff h₁ h₂ hclear rfl rfl).trans ?_
        simp only [h₂, true_and, Bool.false_eq_true, false_and, or_false]
      · rename_i hsecond
        have h₂ : s.mem.serve (s.mem.calls + 1) = true := by
          have hs : ¬ s.mem.serve (s.mem.calls + 1) = false := hsecond
          simpa using hs
        rw [Code.modify_bind] at hrest₂
        simp only [h₂, Bool.true_eq_false, false_and, false_or, true_and]
        rw [setPgdir_heapBlock] at hrest₂
        exact createFile_undone_iff h₁ h₂ hclear hd (setPgdir_malloc _) hrest₂

end Create

end Aitos.Fs
