import Aitos.Fs.Slots

/-!
# Allocating and releasing blocks

`block_bitmap_alloc` takes a free sector of the data area; `bitmap_sync` writes a sector of the block
bitmap, so no sector of the data area changes.
-/

namespace Aitos.Fs

open Framework

/-- A sector of the data area whose bit in the block bitmap is clear. -/
structure State.Fresh (s : State) (lba : UInt32) : Prop where
  data : s.part.sb.dataStartLba.toNat ≤ lba.toNat
  inMap : s.blockIdx lba < s.blockBits
  bit : s.blockBitmap (s.blockIdx lba) = false

theorem State.Fresh.ne_zero {s : State} {lba : UInt32} (h : s.Fresh lba) : lba ≠ 0 := by
  have hdata := s.part.layout.data
  have hfresh := h.data
  rintro rfl
  have hzero : (0 : UInt32).toNat = 0 := rfl
  omega

theorem State.Fresh.ne_allocated {s : State} {lba lba' : UInt32} (h : s.Fresh lba)
    (h' : s.Allocated lba') : lba' ≠ lba := by
  rintro rfl
  have hbit := h.bit
  rw [h'.bit] at hbit
  cases hbit

/-- The data area is the same. -/
def SameData (s s' : State) : Prop :=
  ∀ lba : UInt32, s.part.sb.dataStartLba.toNat ≤ lba.toNat →
    sectorOf s'.disk lba = sectorOf s.disk lba

/-- The sector of bit `idx` of the block bitmap goes to the disk. -/
@[simps! -fullyApplied]
def State.syncBlockBit (s : State) (idx : Nat) : State :=
  s.writeSectors (s.part.sb.blockBitmapLba + UInt32.ofNat (idx / 4096))
    (fun i => packByte s.blockBitmap (512 * (idx / 4096) + i)) 1

theorem bitmapSync_block (s : State) (idx : Nat) :
    bitmapSync idx .blockBitmap s = .ok ((), s.syncBlockBit idx) := rfl

variable {s s' : State} {lba : UInt32}

private theorem blockBits_lt (s : State) {idx : Nat} (h : idx < s.blockBits) :
    s.part.sb.dataStartLba.toNat + idx < 2 ^ 32 := by
  have hblocks := s.part.layout.blocks
  rw [State.blockBits] at h
  omega

theorem toNat_blockLba {idx : Nat} (h : idx < s.blockBits) :
    (s.part.sb.dataStartLba + UInt32.ofNat idx).toNat = s.part.sb.dataStartLba.toNat + idx := by
  have hlt := blockBits_lt s h
  rw [UInt32.toNat_add, UInt32.toNat_ofNat', Nat.mod_eq_of_lt (show idx < 2 ^ 32 by omega),
    Nat.mod_eq_of_lt hlt]

theorem blockIdx_blockLba {idx : Nat} (h : idx < s.blockBits) :
    s.blockIdx (s.part.sb.dataStartLba + UInt32.ofNat idx) = idx := by
  have hlba := toNat_blockLba h
  rw [State.blockIdx, UInt32.toNat_sub_of_le _ _ (UInt32.le_iff_toNat_le.mpr (by omega)), hlba]
  omega

theorem toNat_blockIdx (h : s.part.sb.dataStartLba.toNat ≤ lba.toNat) :
    s.blockIdx lba = lba.toNat - s.part.sb.dataStartLba.toNat :=
  UInt32.toNat_sub_of_le _ _ (UInt32.le_iff_toNat_le.mpr h)

theorem blockBitmapAlloc_fresh (h : blockBitmapAlloc s = .ok (some lba, s')) :
    s.Fresh lba ∧ s' = s.setBlockBit (s.blockIdx lba) true := by
  simp only [blockBitmapAlloc, bitmapScan, Code.get_bind, Code.bind_ok, assert_ok,
    Code.pure_ok] at h
  obtain ⟨r, s₁, ⟨_, s₂, ⟨rfl, -⟩, rfl, rfl⟩, h⟩ := h
  cases hr : firstClear s₁.blockBitmap 0 s₁.blockBits with
  | none =>
      rw [hr] at h
      obtain ⟨h, -⟩ := Code.pure_ok.mp h
      cases h
  | some idx =>
      rw [hr] at h
      simp only [blockBitmapSet, Code.bind_ok, Code.get_ok, require_ok, Code.modify_ok,
        Code.pure_ok, Option.some.injEq] at h
      obtain ⟨_, _, ⟨_, _, ⟨rfl, rfl⟩, _, _, ⟨rfl, hin⟩, rfl⟩, rfl, rfl⟩ := h
      obtain ⟨-, -, hclear⟩ := firstClear_some hr
      rw [blockIdx_blockLba hin]
      refine ⟨⟨?_, ?_, ?_⟩, rfl⟩
      · rw [toNat_blockLba hin]
        omega
      · rw [blockIdx_blockLba hin]
        exact hin
      · rw [blockIdx_blockLba hin]
        exact hclear

private theorem blockBitmapLba_lt {idx : Nat} (h : idx < s.blockBits) :
    (s.part.sb.blockBitmapLba + UInt32.ofNat (idx / 4096)).toNat <
      s.part.sb.dataStartLba.toNat := by
  have h₁ := s.part.layout.inodeBitmap
  have h₂ := s.part.layout.inodeTable
  have h₃ := s.part.layout.data
  have hlt := blockBits_lt s h
  rw [State.blockBits] at h
  have hdiv : idx / 4096 < s.part.sb.blockBitmapSects.toNat := by omega
  have hmod := Nat.mod_le (s.part.sb.blockBitmapLba.toNat + idx / 4096) (2 ^ 32)
  rw [UInt32.toNat_add, UInt32.toNat_ofNat', Nat.mod_eq_of_lt (show idx / 4096 < 2 ^ 32 by omega)]
  omega

theorem sectorOf_writeSectors_of_ne {lba' : UInt32} (buf : Bytes) (h : lba' ≠ lba) :
    sectorOf (s.writeSectors lba buf 1).disk lba' = sectorOf s.disk lba' :=
  sectorOf_blit_of_ne s.disk buf h

theorem sectorOf_writeSectors_self (s : State) (lba : UInt32) (buf : Bytes) {a : Nat}
    (ha : a < 512) : sectorOf (s.writeSectors lba buf 1).disk lba a = buf a :=
  sectorOf_blit_self _ _ _ ha

theorem sameData_syncBlockBit {idx : Nat} (h : idx < s.blockBits) :
    SameData s (s.syncBlockBit idx) := by
  intro lba hlba
  apply sectorOf_writeSectors_of_ne
  rintro rfl
  have := blockBitmapLba_lt h
  omega

theorem sameData_setSlot {n : Nat} (hn : n < 4096) (src : Bytes) :
    SameData s (s.setSlot n src) := by
  intro lba hlba
  have hdata := s.part.layout.data
  apply sectorOf_congr
  intro a ha
  apply Bytes.blit_of_outside
  rw [slotAddr]
  omega

/-- The state after a sector was taken and its bit written. -/
def State.take (s : State) (lba : UInt32) : State :=
  (s.setBlockBit (s.blockIdx lba) true).syncBlockBit (s.blockIdx lba)

theorem take_inode (s : State) (lba : UInt32) : (s.take lba).inode = s.inode := rfl

theorem sameData_take {lba : UInt32} (h : s.Fresh lba) : SameData s (s.take lba) := by
  have hin : s.blockIdx lba < (s.setBlockBit (s.blockIdx lba) true).blockBits := h.inMap
  exact sameData_syncBlockBit hin

theorem allocated_take {lba lba' : UInt32} (h : s.Allocated lba') :
    (s.take lba).Allocated lba' := by
  refine ⟨h.data, h.inMap, ?_⟩
  change Function.update s.blockBitmap (s.blockIdx lba) true (s.blockIdx lba') = true
  by_cases heq : s.blockIdx lba' = s.blockIdx lba
  · rw [heq, Function.update_self]
  · rw [Function.update_of_ne heq]
    exact h.bit

theorem take_allocated {lba : UInt32} (h : s.Fresh lba) : (s.take lba).Allocated lba := by
  refine ⟨h.data, h.inMap, ?_⟩
  exact Function.update_self _ _ _

/-- The state after a sector was given back. -/
def State.giveBack (s : State) (lba : UInt32) : State :=
  (s.setBlockBit (s.blockIdx lba) false).syncBlockBit (s.blockIdx lba)

theorem releaseBlock_eq (h : s.blockIdx lba < s.blockBits) :
    releaseBlock lba s = .ok ((), s.giveBack lba) := by
  have hset : blockBitmapSet (s.blockIdx lba) false s =
      .ok ((), s.setBlockBit (s.blockIdx lba) false) := by
    have hin : require (s.blockIdx lba < s.blockBits) .outOfBounds s = .ok ((), s) :=
      require_ok.mpr ⟨rfl, h⟩
    rw [blockBitmapSet, Code.get_bind, Code.bind_of_ok hin]
    rfl
  rw [releaseBlock, Code.get_bind, Code.bind_of_ok hset]
  rfl

end Aitos.Fs
