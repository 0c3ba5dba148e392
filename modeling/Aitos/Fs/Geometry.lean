import Aitos.Fs.Format
import Aitos.Fs.Allocation

/-!
# The regions of a new partition

The super block that `partition_format` writes cuts the partition into regions without a gap.  The
block bitmap that goes to the disk has one clear bit too many at its end, which lies inside the
partition only when the second rounding saves a sector.
-/

namespace Aitos.Fs

open Framework

namespace Format

section Regions

/-- Sectors `start` to `start + len - 1` -/
structure Region where
  start : Nat
  len : Nat

def Region.stop (r : Region) : Nat := r.start + r.len

/-- The regions follow one another from sector `a` to sector `b`, without a gap. -/
def Tiles (a b : Nat) : List Region → Prop
  | [] => a = b
  | r :: rs => r.start = a ∧ Tiles r.stop b rs

theorem Tiles.le {rs : List Region} : ∀ {a b : Nat}, Tiles a b rs → a ≤ b := by
  induction rs with
  | nil =>
      intro a b h
      exact Nat.le_of_eq h
  | cons r rs ih =>
      rintro a b ⟨rfl, h⟩
      exact (Nat.le_add_right _ _).trans (ih h)

theorem Tiles.inside {rs : List Region} : ∀ {a b : Nat}, Tiles a b rs →
    ∀ r ∈ rs, a ≤ r.start ∧ r.stop ≤ b := by
  induction rs with
  | nil =>
      intro a b _ r hr
      cases hr
  | cons r' rs ih =>
      rintro a b ⟨rfl, h⟩ r hr
      rcases List.mem_cons.mp hr with rfl | hr
      · exact ⟨le_rfl, h.le⟩
      · obtain ⟨h₁, h₂⟩ := ih h r hr
        exact ⟨(Nat.le_add_right _ _).trans h₁, h₂⟩

theorem Tiles.pairwise {rs : List Region} : ∀ {a b : Nat}, Tiles a b rs →
    rs.Pairwise fun r r' => r.stop ≤ r'.start := by
  induction rs with
  | nil =>
      intro a b _
      exact List.Pairwise.nil
  | cons r rs ih =>
      rintro a b ⟨-, h⟩
      exact List.pairwise_cons.mpr ⟨fun r' hr' => (h.inside r' hr').1, ih h⟩

/-- Boot sector, super block, block bitmap, inode bitmap, inode table and data area, as the super
block describes them. -/
def SuperBlock.regions (sb : SuperBlock) : List Region :=
  [⟨sb.partLbaBase.toNat, 1⟩, ⟨sb.partLbaBase.toNat + 1, 1⟩,
    ⟨sb.blockBitmapLba.toNat, sb.blockBitmapSects.toNat⟩,
    ⟨sb.inodeBitmapLba.toNat, sb.inodeBitmapSects.toNat⟩,
    ⟨sb.inodeTableLba.toNat, sb.inodeTableSects.toNat⟩,
    ⟨sb.dataStartLba.toNat, sb.partLbaBase.toNat + sb.secCnt.toNat - sb.dataStartLba.toNat⟩]

private theorem tiles_regions {startLba secCnt : UInt32} (h : OnDisk startLba secCnt) :
    Tiles startLba.toNat (startLba.toNat + secCnt.toNat)
      (superBlock startLba secCnt).regions := by
  obtain ⟨h₁, h₂, h₃, h₄⟩ := toNat_places h
  have hlarge := h.large
  have hlen := toNat_bitLen h
  have hsects := toNat_sects h
  have hib : inodeBitmapSects.toNat = 1 := by decide
  have hit : inodeTableSects.toNat = 608 := by decide
  have hdata : (superBlock startLba secCnt).dataStartLba.toNat ≤
      startLba.toNat + secCnt.toNat := by omega
  refine ⟨rfl, rfl, h₁, ?_, ?_, ?_, ?_⟩
  · rw [h₂, Region.stop, h₁]
    rfl
  · rw [h₃, Region.stop, h₂]
    show _ = _ + inodeBitmapSects.toNat
    rw [hib]
  · rw [h₄, Region.stop, h₃]
    show _ = _ + inodeTableSects.toNat
    rw [hit]
  · exact Nat.add_sub_of_le hdata

/-- The super block that a sector holds. -/
def SuperBlock.ofDisk (disk : Bytes) (lba : UInt32) : SuperBlock :=
  let word (k : Nat) : UInt32 := disk.word (512 * lba.toNat + 4 * k)
  { magic := word 0
    secCnt := word 1
    inodeCnt := word 2
    partLbaBase := word 3
    blockBitmapLba := word 4
    blockBitmapSects := word 5
    inodeBitmapLba := word 6
    inodeBitmapSects := word 7
    inodeTableLba := word 8
    inodeTableSects := word 9
    dataStartLba := word 10
    rootInodeNo := word 11
    dirEntrySize := word 12 }

/-- The sector of the super block is not overwritten by what follows. -/
private theorem sector_partitionFormat {startLba secCnt : UInt32} (h : OnDisk startLba secCnt)
    (pad disk : Bytes) {i : Nat} (hi : i < 512) :
    partitionFormat startLba secCnt pad disk (512 * (startLba + 1).toNat + i) =
      (superBlock startLba secCnt).image pad i := by
  obtain ⟨h₁, h₂, h₃, h₄⟩ := toNat_places h
  have hfits := h.fits
  have hmax := toNat_maxLba
  have hone : (1 : UInt32).toNat = 1 := rfl
  have hsuper : (startLba + 1).toNat = startLba.toNat + 1 := by
    rw [UInt32.toNat_add, hone, Nat.mod_eq_of_lt (by omega)]
  rw [partitionFormat, ideWrite, ideWrite, ideWrite, ideWrite, ideWrite,
    Bytes.blit_of_outside _ _ _ _ (by omega), Bytes.blit_of_outside _ _ _ _ (by omega),
    Bytes.blit_of_outside _ _ _ _ (by omega), Bytes.blit_of_outside _ _ _ _ (by omega),
    Bytes.blit_add _ _ _ _ (by omega)]

private theorem word_partitionFormat {startLba secCnt : UInt32} (h : OnDisk startLba secCnt)
    (pad disk : Bytes) {k : Nat} (hk : k < 13) :
    (partitionFormat startLba secCnt pad disk).word (512 * (startLba + 1).toNat + 4 * k) =
      (superBlock startLba secCnt).words.getD k 0 := by
  rw [← Bytes.word_ofWords (fun k => (superBlock startLba secCnt).words.getD k 0) k]
  apply Bytes.word_congr
  intro i hi
  rw [Nat.add_assoc, sector_partitionFormat h pad disk (by omega), SuperBlock.image,
    Bytes.blit_of_lt _ _ _ _ (by omega) (by omega), Nat.sub_zero]

private theorem ofDisk_partitionFormat {startLba secCnt : UInt32} (h : OnDisk startLba secCnt)
    (pad disk : Bytes) :
    SuperBlock.ofDisk (partitionFormat startLba secCnt pad disk) (startLba + 1) =
      superBlock startLba secCnt := by
  have hword := fun k hk => word_partitionFormat (k := k) h pad disk hk
  simp only [SuperBlock.ofDisk, hword 0 (by decide), hword 1 (by decide), hword 2 (by decide),
    hword 3 (by decide), hword 4 (by decide), hword 5 (by decide), hword 6 (by decide),
    hword 7 (by decide), hword 8 (by decide), hword 9 (by decide), hword 10 (by decide),
    hword 11 (by decide), hword 12 (by decide)]
  rfl

/-- The regions that the super block on the disk describes follow one another without a gap and fill
the partition; the block bitmap has room for its bits, each bit is a data sector of the partition,
and at most one data sector has no bit. -/
theorem format_regions {startLba secCnt : UInt32} (h : OnDisk startLba secCnt) (pad disk : Bytes) :
    let sb := SuperBlock.ofDisk (partitionFormat startLba secCnt pad disk) (startLba + 1)
    Tiles startLba.toNat (startLba.toNat + secCnt.toNat) sb.regions ∧
    sb.regions.Pairwise (fun r r' => r.stop ≤ r'.start) ∧
    (∀ r ∈ sb.regions, startLba.toNat ≤ r.start ∧ r.stop ≤ startLba.toNat + secCnt.toNat) ∧
    (blockBitmapBitLen secCnt).toNat ≤ 4096 * sb.blockBitmapSects.toNat ∧
    (∀ i < (blockBitmapBitLen secCnt).toNat,
      sb.dataStartLba.toNat + i < startLba.toNat + secCnt.toNat) ∧
    startLba.toNat + secCnt.toNat ≤
      sb.dataStartLba.toNat + (blockBitmapBitLen secCnt).toNat + 1 := by
  intro sb
  have hread : sb = superBlock startLba secCnt := ofDisk_partitionFormat h pad disk
  rw [hread]
  have htiles := tiles_regions h
  obtain ⟨-, -, -, h₄⟩ := toNat_places h
  have hlarge := h.large
  have hfits := h.fits
  have hmax := toNat_maxLba
  have hlen := toNat_bitLen h
  have hsects := toNat_sects h
  have hsb : (superBlock startLba secCnt).blockBitmapSects = blockBitmapSects secCnt := rfl
  refine ⟨htiles, htiles.pairwise, htiles.inside, ?_, ?_, ?_⟩
  · rw [hsb]
    omega
  · intro i hi
    omega
  · omega

/-- A partition of 20,000 sectors on an empty disk. -/
theorem format_regions_example :
    Tiles 63 20063 (SuperBlock.ofDisk (partitionFormat 63 20000 Bytes.zero Bytes.zero) 64).regions ∧
    (SuperBlock.ofDisk (partitionFormat 63 20000 Bytes.zero Bytes.zero) 64).dataStartLba = 679 ∧
    (blockBitmapBitLen 20000).toNat = 19384 := by
  have h : OnDisk 63 20000 := ⟨by decide, by decide⟩
  have hread := ofDisk_partitionFormat h Bytes.zero Bytes.zero
  refine ⟨(format_regions h Bytes.zero Bytes.zero).1, ?_, by decide⟩
  exact (congrArg SuperBlock.dataStartLba hread).trans (by decide)

end Regions

section Bitmap

variable {startLba secCnt : UInt32}

private theorem clearLoop_byte {lastBit : Nat} (h : lastBit < 8) :
    ∀ k < 8, (clearLoop lastBit 9 0 0xff).toNat.testBit k = decide (lastBit < k) := by
  interval_cases lastBit <;> decide

private theorem testBit_blockBitmapBuf (bitLen : UInt32) (i : Nat) :
    (blockBitmapBuf bitLen (i / 8)).toNat.testBit (i % 8) =
      if i / 8 = bitLen.toNat / 8 then decide (bitLen.toNat < i)
      else if bitLen.toNat / 8 < i / 8 then decide (i / 4096 = bitLen.toNat / 4096)
      else decide (i = 0) := by
  have hbyte : (bitLen / 8).toNat = bitLen.toNat / 8 := UInt32.toNat_div _ _
  have hbit : (bitLen % 8).toNat = bitLen.toNat % 8 := UInt32.toNat_mod _ _
  rw [blockBitmapBuf, hbyte, hbit]
  obtain ⟨b, hb⟩ : ∃ b, b = bitLen.toNat := ⟨_, rfl⟩
  rw [← hb]
  by_cases hlast : i / 8 = b / 8
  · -- the byte that the loop works on was filled
    have hfill := Bytes.fill_add (Function.update Bytes.zero 0 (Bytes.zero 0 ||| 1)) (b / 8)
      (512 - b / 8 % 512) (v := 0xff) (i := 0) (by omega)
    rw [Nat.add_zero] at hfill
    rw [if_pos hlast, hlast, Function.update_self, hfill, clearLoop_byte (by omega) _ (by omega)]
    congr 1
    apply propext
    omega
  · rw [if_neg hlast, Function.update_of_ne hlast]
    split
    · rename_i hbehind
      by_cases hin : i / 8 < b / 8 + (512 - b / 8 % 512)
      · have hfill := Bytes.fill_add (Function.update Bytes.zero 0 (Bytes.zero 0 ||| 1)) (b / 8)
          (512 - b / 8 % 512) (v := 0xff) (i := i / 8 - b / 8) (by omega)
        have hidx : b / 8 + (i / 8 - b / 8) = i / 8 := by omega
        have hsector : i / 4096 = b / 4096 := by omega
        rw [hidx] at hfill
        have hset : ∀ k < 8, (0xff : UInt8).toNat.testBit k = true := by decide
        rw [hfill, hset _ (by omega), decide_eq_true hsector]
      · have hsector : i / 4096 ≠ b / 4096 := by omega
        rw [Bytes.fill_of_outside _ _ _ (by omega), Function.update_of_ne (by omega),
          decide_eq_false hsector]
        exact Nat.zero_testBit _
    · rename_i hbehind
      rw [Bytes.fill_of_outside _ _ _ (by omega)]
      by_cases hzero : i / 8 = 0
      · rw [hzero, Function.update_self]
        have hone : ∀ k < 8, ((Bytes.zero 0 ||| 1) : UInt8).toNat.testBit k = decide (k = 0) := by
          decide
        rw [hone _ (by omega)]
        congr 1
        apply propext
        omega
      · rw [Function.update_of_ne hzero, decide_eq_false (by omega)]
        exact Nat.zero_testBit _

private theorem diskBits_partitionFormat (h : OnDisk startLba secCnt) (pad disk : Bytes) {i : Nat}
    (hi : i < 4096 * (blockBitmapSects secCnt).toNat) :
    diskBits (partitionFormat startLba secCnt pad disk) (superBlock startLba secCnt).blockBitmapLba
      i = (blockBitmapBuf (blockBitmapBitLen secCnt) (i / 8)).toNat.testBit (i % 8) := by
  obtain ⟨h₁, h₂, h₃, h₄⟩ := toNat_places h
  have hone : (superBlock startLba secCnt).inodeBitmapSects.toNat = 1 := by
    show inodeBitmapSects.toNat = 1
    decide
  rw [diskBits, partitionFormat, ideWrite, ideWrite, ideWrite, ideWrite,
    Bytes.blit_of_outside _ _ _ _ (by omega), Bytes.blit_of_outside _ _ _ _ (by omega),
    Bytes.blit_of_outside _ _ _ _ (by omega), Bytes.blit_add _ _ _ _ ?_]
  show i / 8 < 512 * (blockBitmapSects secCnt).toNat
  omega

/-- The block bitmap that a new partition starts with: bit 0 is set, its clear bits are sectors of
the partition, so that no allocation leaves it, and the bits below `block_bitmap_bit_len` are clear
except the first. -/
structure BitmapFits (startLba secCnt : UInt32) (bits : Nat → Bool) : Prop where
  root : bits 0 = true
  inside : ∀ i < 4096 * (superBlock startLba secCnt).blockBitmapSects.toNat, bits i = false →
    (superBlock startLba secCnt).dataStartLba.toNat + i < startLba.toNat + secCnt.toNat
  alloc : ∀ (s s' : State) (lba : UInt32), s.part.sb = (superBlock startLba secCnt).places →
    (∀ i < s.blockBits, bits i = true → s.blockBitmap i = true) →
    blockBitmapAlloc s = .ok (some lba, s') → lba.toNat < startLba.toNat + secCnt.toNat
  clear : ∀ i, 0 < i → i < (blockBitmapBitLen secCnt).toNat → bits i = false

private theorem bitmapFits_of_saved (h : OnDisk startLba secCnt) (pad disk : Bytes)
    (hpos : 0 < (secCnt.toNat - 611) % 4096)
    (hsaved : (secCnt.toNat - 611) % 4096 ≤ (secCnt.toNat - 611) / 4096 + 1) :
    BitmapFits startLba secCnt (diskBits (partitionFormat startLba secCnt pad disk)
      (superBlock startLba secCnt).blockBitmapLba) := by
  have hlarge := h.large
  have hfits := h.fits
  have hmax := toNat_maxLba
  have hlen := toNat_bitLen h
  have hsects := toNat_sects h
  have hsb : (superBlock startLba secCnt).blockBitmapSects = blockBitmapSects secCnt := rfl
  obtain ⟨-, -, -, hdata⟩ := toNat_places h
  have hbit := fun {i} (hi : i < 4096 * (blockBitmapSects secCnt).toNat) =>
    (diskBits_partitionFormat h pad disk hi).trans (testBit_blockBitmapBuf _ i)
  have hinside : ∀ i < 4096 * (superBlock startLba secCnt).blockBitmapSects.toNat,
      diskBits (partitionFormat startLba secCnt pad disk)
        (superBlock startLba secCnt).blockBitmapLba i = false →
      (superBlock startLba secCnt).dataStartLba.toNat + i < startLba.toNat + secCnt.toNat := by
    intro i hi hclear
    rw [hsb] at hi
    rw [hbit hi] at hclear
    split at hclear
    · have := of_decide_eq_false hclear
      omega
    · split at hclear
      · have := of_decide_eq_false hclear
        omega
      · omega
  refine ⟨?_, hinside, ?_, ?_⟩
  · rw [hbit (by omega), if_neg (by omega), if_neg (by omega)]
    rfl
  · intro s s' lba hplaces hbits halloc
    obtain ⟨⟨hdata', hin, hclear⟩, -⟩ := blockBitmapAlloc_fresh halloc
    have hblocks : s.blockBits = 4096 * (blockBitmapSects secCnt).toNat := by
      rw [State.blockBits, hplaces]
      rfl
    have hformat : diskBits (partitionFormat startLba secCnt pad disk)
        (superBlock startLba secCnt).blockBitmapLba (s.blockIdx lba) = false := by
      by_contra hset
      rw [hbits _ hin (by simpa using hset)] at hclear
      cases hclear
    have hlt := hinside _ (by rw [hsb]; omega) hformat
    have hstart : s.part.sb.dataStartLba = (superBlock startLba secCnt).dataStartLba := by
      rw [hplaces]
      rfl
    rw [toNat_blockIdx hdata', hstart] at hlt
    rw [hstart] at hdata'
    omega
  · intro i hpos' hi
    rw [hbit (by omega)]
    split
    · exact decide_eq_false (by omega)
    · rw [if_neg (by omega)]
      exact decide_eq_false (by omega)

private theorem unsaved_room (n : Nat) (hpos : 2 ≤ n) (hle : n ≤ 163840)
    (hnot : ¬ (0 < n % 4096 ∧ n % 4096 ≤ n / 4096 + 1)) :
    n - (n + 4095) / 4096 < 4096 * ((n - (n + 4095) / 4096 + 4095) / 4096) := by
  have hq : n / 4096 ≤ 40 := by omega
  by_cases hr : n % 4096 = 0
  · have hround : (n + 4095) / 4096 = n / 4096 := by omega
    omega
  · have hround : (n + 4095) / 4096 = n / 4096 + 1 := by omega
    omega

private theorem not_bitmapFits (h : OnDisk startLba secCnt) (pad disk : Bytes)
    (hnot : ¬ (0 < (secCnt.toNat - 611) % 4096 ∧
      (secCnt.toNat - 611) % 4096 ≤ (secCnt.toNat - 611) / 4096 + 1)) :
    ¬ BitmapFits startLba secCnt (diskBits (partitionFormat startLba secCnt pad disk)
      (superBlock startLba secCnt).blockBitmapLba) := by
  intro hfit
  have hlarge := h.large
  have hfits := h.fits
  have hmax := toNat_maxLba
  have hlen := toNat_bitLen h
  have hsects := toNat_sects h
  have hsb : (superBlock startLba secCnt).blockBitmapSects = blockBitmapSects secCnt := rfl
  obtain ⟨-, -, -, hdata⟩ := toNat_places h
  have hi : (blockBitmapBitLen secCnt).toNat < 4096 * (blockBitmapSects secCnt).toNat := by
    rw [hsects, hlen]
    exact unsaved_room _ (by omega) (by omega) hnot
  have hclear := (diskBits_partitionFormat h pad disk hi).trans (testBit_blockBitmapBuf _ _)
  rw [if_pos rfl, decide_eq_false (lt_irrefl _)] at hclear
  have := hfit.inside _ (by rw [hsb]; exact hi) hclear
  omega

/-- The block bitmap of a new partition fits exactly when the second rounding saves a sector. -/
theorem format_bitmap_iff (h : OnDisk startLba secCnt) (pad disk : Bytes) :
    BitmapFits startLba secCnt (diskBits (partitionFormat startLba secCnt pad disk)
        (superBlock startLba secCnt).blockBitmapLba) ↔
      0 < (secCnt.toNat - 611) % 4096 ∧
        (secCnt.toNat - 611) % 4096 ≤ (secCnt.toNat - 611) / 4096 + 1 := by
  constructor
  · intro hfit
    by_contra hnot
    exact not_bitmapFits h pad disk hnot hfit
  · rintro ⟨hpos, hsaved⟩
    exact bitmapFits_of_saved h pad disk hpos hsaved

/-- 4,709 sectors leave 4,098 for bitmap and data, of which the first rounding reserves two for the
bitmap and the second needs one. -/
theorem format_bitmap_saved : BitmapFits 63 4709 (diskBits
    (partitionFormat 63 4709 Bytes.zero Bytes.zero) (superBlock 63 4709).blockBitmapLba) :=
  (format_bitmap_iff ⟨by decide, by decide⟩ _ _).mpr ⟨by decide, by decide⟩

/-- In a partition of 20,000 sectors from sector 63 on, bit 19,384 is clear and stands for sector
20,063, the first one behind the partition. -/
theorem format_bitmap_beyond : OnDisk 63 20000 ∧
    diskBits (partitionFormat 63 20000 Bytes.zero Bytes.zero) (superBlock 63 20000).blockBitmapLba
      19384 = false ∧ (superBlock 63 20000).dataStartLba.toNat + 19384 = 20063 ∧
    ¬ BitmapFits 63 20000 (diskBits (partitionFormat 63 20000 Bytes.zero Bytes.zero)
      (superBlock 63 20000).blockBitmapLba) := by
  have h : OnDisk 63 20000 := ⟨by decide, by decide⟩
  have hclear := (diskBits_partitionFormat h Bytes.zero Bytes.zero (i := 19384) (by decide)).trans
    (testBit_blockBitmapBuf _ _)
  exact ⟨h, hclear, by decide, not_bitmapFits h _ _ (by decide)⟩

end Bitmap

end Format

end Aitos.Fs
