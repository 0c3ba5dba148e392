import Aitos.Mm.Memory

/-!
# Dividing up physical memory

`mem_pool_init` of `mm/memory.c`: the pages above the first 2 MiB go to two pools, whose bitmaps
and the one of the kernel heap lie one behind the other.  The numbers of pages pass through 16-bit
variables.  The messages are left out.
-/

namespace Aitos.Mm

def memBitmapBase : UInt32 := 0xc009a000

/-- `struct bitmap` -/
structure BitmapRef where
  btmpBytesLen : UInt32
  bits : UInt32
  deriving DecidableEq, Repr

/-- `struct pool`, without its lock -/
structure Pool where
  poolBitmap : BitmapRef
  phyAddrStart : UInt32
  poolSize : UInt32
  deriving DecidableEq, Repr

/-- `struct virtual_addr` -/
structure VirtualAddr where
  vaddrBitmap : BitmapRef
  vaddrStart : UInt32
  deriving DecidableEq, Repr

structure Pools where
  kernelPool : Pool
  userPool : Pool
  kernelVaddr : VirtualAddr
  deriving DecidableEq, Repr

/-- `bitmap_init` -/
def bitmapInit (b : BitmapRef) (mem : Nat → UInt8) : Nat → UInt8 := fun a =>
  if b.bits.toNat ≤ a ∧ a < b.bits.toNat + b.btmpBytesLen.toNat then 0 else mem a

/-- What `mem_pool_init` works out from the size of memory. -/
def poolLayout (allMem : UInt32) : Pools :=
  let pageTableSize : UInt32 := 4096 * 256
  let usedMem := pageTableSize + 0x100000
  let freeMem := allMem - usedMem
  let allFreePages : UInt16 := (freeMem / 4096).toUInt16
  let kernelFreePages : UInt16 := allFreePages / 2
  let userFreePages : UInt16 := allFreePages - kernelFreePages
  let kbmLength := kernelFreePages.toUInt32 / 8
  let ubmLength := userFreePages.toUInt32 / 8
  let kpStart := usedMem
  let upStart := kpStart + kernelFreePages.toUInt32 * 4096
  { kernelPool := ⟨⟨kbmLength, memBitmapBase⟩, kpStart, kernelFreePages.toUInt32 * 4096⟩
    userPool := ⟨⟨ubmLength, memBitmapBase + kbmLength⟩, upStart, userFreePages.toUInt32 * 4096⟩
    kernelVaddr := ⟨⟨kbmLength, memBitmapBase + kbmLength + ubmLength⟩, UInt32.ofNat kHeapStart⟩ }

/-- `mem_pool_init` on memory by virtual address -/
def memPoolInit (allMem : UInt32) (mem : Nat → UInt8) : Pools × (Nat → UInt8) :=
  let s := poolLayout allMem
  let mem := bitmapInit s.kernelPool.poolBitmap mem
  let mem := bitmapInit s.userPool.poolBitmap mem
  (s, bitmapInit s.kernelVaddr.vaddrBitmap mem)

namespace BitmapRef

/-- The bytes of a bitmap, and the number of its bits. -/
def bytes (b : BitmapRef) : Set Nat := Set.Ico b.bits.toNat (b.bits.toNat + b.btmpBytesLen.toNat)

def len (b : BitmapRef) : Nat := 8 * b.btmpBytesLen.toNat

end BitmapRef

/-- The addresses of a pool, and those of its page `i`. -/
def Pool.range (q : Pool) : Set Nat :=
  Set.Ico q.phyAddrStart.toNat (q.phyAddrStart.toNat + q.poolSize.toNat)

def Pool.page (q : Pool) (i : Nat) : Set Nat :=
  Set.Ico (q.phyAddrStart.toNat + 4096 * i) (q.phyAddrStart.toNat + 4096 * (i + 1))

/-- The pages that memory of a size has above its first 2 MiB. -/
def freePages (allMem : UInt32) : Nat := (allMem.toNat - 0x200000) / 4096

section Layout

variable {allMem : UInt32}

/-- The fields of the pools as numbers.  Of the free pages 16 bits are kept. -/
structure LaidOut (a : Nat) (s : Pools) : Prop where
  kernelLen : s.kernelPool.poolBitmap.btmpBytesLen.toNat = a / 2 / 8
  kernelBits : s.kernelPool.poolBitmap.bits.toNat = 0xc009a000
  kernelStart : s.kernelPool.phyAddrStart.toNat = 0x200000
  kernelSize : s.kernelPool.poolSize.toNat = a / 2 * 4096
  userLen : s.userPool.poolBitmap.btmpBytesLen.toNat = (a - a / 2) / 8
  userBits : s.userPool.poolBitmap.bits.toNat = 0xc009a000 + a / 2 / 8
  userStart : s.userPool.phyAddrStart.toNat = 0x200000 + a / 2 * 4096
  userSize : s.userPool.poolSize.toNat = (a - a / 2) * 4096
  vaddrLen : s.kernelVaddr.vaddrBitmap.btmpBytesLen.toNat = a / 2 / 8
  vaddrBits : s.kernelVaddr.vaddrBitmap.bits.toNat = 0xc009a000 + a / 2 / 8 + (a - a / 2) / 8
  vaddrStart : s.kernelVaddr.vaddrStart.toNat = 0xc0100000

private theorem poolLayout_laidOut (h : 0x200000 ≤ allMem.toNat) :
    LaidOut (freePages allMem % 65536) (poolLayout allMem) := by
  have hmem := allMem.toNat_lt
  have hfree : (allMem - (4096 * 256 + 0x100000)).toNat = allMem.toNat - 0x200000 := by
    rw [UInt32.toNat_sub_of_le]
    · rfl
    · rw [UInt32.le_iff_toNat_le]
      exact h
  have hpages : ((allMem - (4096 * 256 + 0x100000)) / 4096).toUInt16.toNat =
      freePages allMem % 65536 := by
    rw [UInt32.toNat_toUInt16, UInt32.toNat_div, hfree]
    rfl
  have ha : freePages allMem % 65536 < 65536 := Nat.mod_lt _ (by omega)
  generalize freePages allMem % 65536 = a at hpages ha ⊢
  generalize hp : ((allMem - (4096 * 256 + 0x100000)) / 4096).toUInt16 = pages at hpages
  have hk : (pages / 2).toUInt32.toNat = a / 2 := by
    rw [UInt16.toNat_toUInt32, UInt16.toNat_div, hpages]
    rfl
  have hu : (pages - pages / 2).toUInt32.toNat = a - a / 2 := by
    rw [UInt16.toNat_toUInt32, UInt16.toNat_sub_of_le, ← hpages]
    · rfl
    · rw [UInt16.le_iff_toNat_le, UInt16.toNat_div]
      exact Nat.div_le_self _ _
  have hdiv : ∀ n : UInt32, (n / 8).toNat = n.toNat / 8 := fun n => UInt32.toNat_div n 8
  have hmul : ∀ n : UInt32, n.toNat < 65536 → (n * 4096).toNat = n.toNat * 4096 := by
    intro n hn
    rw [UInt32.toNat_mul]
    exact Nat.mod_eq_of_lt (by change n.toNat * 4096 < _; omega)
  have hadd : ∀ m n : UInt32, m.toNat + n.toNat < 2 ^ 32 → (m + n).toNat = m.toNat + n.toNat := by
    intro m n hmn
    rw [UInt32.toNat_add, Nat.mod_eq_of_lt hmn]
  simp only [poolLayout, hp]
  have hklen := hdiv (pages / 2).toUInt32
  have hulen := hdiv (pages - pages / 2).toUInt32
  have hksize := hmul (pages / 2).toUInt32 (by omega)
  have husize := hmul (pages - pages / 2).toUInt32 (by omega)
  rw [hk] at hklen hksize
  rw [hu] at hulen husize
  have hstart := hadd (4096 * 256 + 0x100000) ((pages / 2).toUInt32 * 4096) (by
    rw [hksize]
    change 0x200000 + _ < _
    omega)
  have hbase : memBitmapBase.toNat = 0xc009a000 := rfl
  have hubits := hadd memBitmapBase ((pages / 2).toUInt32 / 8) (by omega)
  have hvbits := hadd (memBitmapBase + (pages / 2).toUInt32 / 8)
    ((pages - pages / 2).toUInt32 / 8) (by omega)
  rw [hksize] at hstart
  rw [hubits, hulen, hklen, hbase] at hvbits
  rw [hklen, hbase] at hubits
  exact ⟨hklen, rfl, rfl, hksize, hulen, hubits, hstart, husize, hklen, hvbits, rfl⟩

/-- The layout for every size of memory. -/
structure WellPlaced (allMem : UInt32) (s : Pools) : Prop where
  kernelRange : s.kernelPool.range ⊆ Set.Ico 0x200000 allMem.toNat
  userRange : s.userPool.range ⊆ Set.Ico 0x200000 allMem.toNat
  apart : Disjoint s.kernelPool.range s.userPool.range
  aligned : ∀ q ∈ [s.kernelPool, s.userPool],
    q.phyAddrStart.toNat % 4096 = 0 ∧ q.poolSize.toNat % 4096 = 0
  page : ∀ q ∈ [s.kernelPool, s.userPool], ∀ i < q.poolBitmap.len, q.page i ⊆ q.range
  window : ∀ b ∈ [s.kernelPool.poolBitmap, s.userPool.poolBitmap, s.kernelVaddr.vaddrBitmap],
    b.bytes ⊆ Set.Ico 0xc009a000 0xc009e000
  bitmaps : [s.kernelPool.poolBitmap, s.userPool.poolBitmap, s.kernelVaddr.vaddrBitmap].Pairwise
    fun b b' => Disjoint b.bytes b'.bytes
  heap : ∀ i < s.kernelVaddr.vaddrBitmap.len,
    kHeapStart ≤ s.kernelVaddr.vaddrStart.toNat + 4096 * i ∧
      s.kernelVaddr.vaddrStart.toNat + 4096 * i + 4096 ≤ 0xffc00000

private theorem disjoint_ico {a b c d : Nat} (h : b ≤ c) :
    Disjoint (Set.Ico a b) (Set.Ico c d) := by
  rw [Set.Ico_disjoint_Ico]
  omega

private theorem LaidOut.wellPlaced {a : Nat} {s : Pools} (h : LaidOut a s) (ha : a < 65536)
    (hmem : 0x200000 + a * 4096 ≤ allMem.toNat) : WellPlaced allMem s := by
  have hk := h.kernelStart
  have hks := h.kernelSize
  have hu := h.userStart
  have hus := h.userSize
  have hkl := h.kernelLen
  have hul := h.userLen
  have hvl := h.vaddrLen
  have hkb := h.kernelBits
  have hub := h.userBits
  have hvb := h.vaddrBits
  have hv := h.vaddrStart
  refine ⟨?_, ?_, ?_, ?_, ?_, ?_, ?_, ?_⟩
  · exact Set.Ico_subset_Ico (by omega) (by omega)
  · exact Set.Ico_subset_Ico (by omega) (by omega)
  · exact disjoint_ico (by omega)
  · simp only [List.forall_mem_cons]
    refine ⟨by omega, by omega, ?_⟩
    simp
  · simp only [List.forall_mem_cons]
    refine ⟨?_, ?_, by simp⟩
    · intro i hi
      rw [BitmapRef.len] at hi
      exact Set.Ico_subset_Ico (by omega) (by omega)
    · intro i hi
      rw [BitmapRef.len] at hi
      exact Set.Ico_subset_Ico (by omega) (by omega)
  · simp only [List.forall_mem_cons]
    refine ⟨?_, ?_, ?_, by simp⟩
    · exact Set.Ico_subset_Ico (by omega) (by omega)
    · exact Set.Ico_subset_Ico (by omega) (by omega)
    · exact Set.Ico_subset_Ico (by omega) (by omega)
  · simp only [List.pairwise_cons, List.forall_mem_cons]
    refine ⟨⟨?_, ?_, by simp⟩, ⟨?_, by simp⟩, by simp, List.Pairwise.nil⟩
    · exact disjoint_ico (by omega)
    · exact disjoint_ico (by omega)
    · exact disjoint_ico (by omega)
  · intro i hi
    rw [BitmapRef.len] at hi
    rw [kHeapStart]
    omega

end Layout

/-- Wherever memory ends, the pools, their bitmaps and the kernel heap have places of their own. -/
theorem mem_pool_init_wellPlaced (allMem : UInt32) (h : 0x200000 ≤ allMem.toNat)
    (mem : Nat → UInt8) : WellPlaced allMem (memPoolInit allMem mem).1 := by
  refine (poolLayout_laidOut h).wellPlaced (Nat.mod_lt _ (by omega)) ?_
  have hle := Nat.mod_le (freePages allMem) 65536
  have hdiv := Nat.div_mul_le_self (allMem.toNat - 0x200000) 4096
  rw [freePages] at hle ⊢
  omega

/-- 32 MiB -/
theorem mem_pool_init_wellPlaced_32M : WellPlaced 0x2000000 (memPoolInit 0x2000000 fun _ => 0).1 :=
  mem_pool_init_wellPlaced 0x2000000 (by decide) _

/-- At most 14 free pages are left over just when their number fits into 16 bits. -/
theorem mem_pool_init_covers_iff (allMem : UInt32) (h : 0x200000 ≤ allMem.toNat)
    (hmax : allMem.toNat ≤ 512 * 1024 * 1024) (mem : Nat → UInt8) :
    freePages allMem ≤ (memPoolInit allMem mem).1.kernelPool.poolBitmap.len +
        (memPoolInit allMem mem).1.userPool.poolBitmap.len + 14 ↔
      allMem.toNat < 258 * 1024 * 1024 := by
  have hl := poolLayout_laidOut h
  have hk : (memPoolInit allMem mem).1.kernelPool.poolBitmap.len = _ := congrArg (8 * ·) hl.kernelLen
  have hu : (memPoolInit allMem mem).1.userPool.poolBitmap.len = _ := congrArg (8 * ·) hl.userLen
  rw [hk, hu]
  have hsmall : freePages allMem < 65536 ↔ allMem.toNat < 258 * 1024 * 1024 := by
    rw [freePages]
    omega
  have hlarge : freePages allMem < 2 * 65536 := by
    rw [freePages]
    omega
  rw [← hsmall]
  generalize freePages allMem = n at hlarge ⊢
  constructor
  · intro hcover
    by_contra hwrap
    have hmod : n % 65536 = n - 65536 := by omega
    rw [hmod] at hcover
    omega
  · intro hfits
    rw [Nat.mod_eq_of_lt hfits]
    omega

/-- With 128 MiB all but 14 pages are managed. -/
theorem mem_pool_init_covers_128M : freePages 0x8000000 ≤
    (memPoolInit 0x8000000 fun _ => 0).1.kernelPool.poolBitmap.len +
      (memPoolInit 0x8000000 fun _ => 0).1.userPool.poolBitmap.len + 14 :=
  (mem_pool_init_covers_iff 0x8000000 (by decide) (by decide) _).mpr (by decide)

/-- With 512 MiB half of the pages are lost. -/
theorem mem_pool_init_loses_pages : ¬ freePages 0x20000000 ≤
    (memPoolInit 0x20000000 fun _ => 0).1.kernelPool.poolBitmap.len +
      (memPoolInit 0x20000000 fun _ => 0).1.userPool.poolBitmap.len + 14 := by decide

end Aitos.Mm
