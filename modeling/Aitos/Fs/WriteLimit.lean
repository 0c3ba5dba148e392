import Aitos.Fs.Append
import Aitos.Fs.DirImage
import Aitos.Fs.Search

/-!
# The size limit of a file

A file has at most 140 blocks.  `file_write` compares the new size with `140 * 512` and the number of
blocks with 140, both in 32-bit arithmetic; the second comparison is an assertion.
-/

namespace Aitos.Fs

open Framework

section Free

variable {s s' : State} {lba : UInt32}

/-- Bit `i` of the block bitmap is clear, and its sector lies on the disk. -/
def State.FreeOnDisk (s : State) (i : Nat) : Prop :=
  s.blockBitmap i = false ∧ s.part.sb.dataStartLba.toNat + i ≤ maxLba.toNat

instance (s : State) (i : Nat) : Decidable (s.FreeOnDisk i) := inferInstanceAs (Decidable (_ ∧ _))

/-- The number of free blocks of the disk. -/
def State.freeBlocks (s : State) : Nat := ((Finset.range s.blockBits).filter s.FreeOnDisk).card

/-- There are `n` free blocks on the disk, and block 0 is the root directory's. -/
structure Room (s : State) (n : Nat) : Prop where
  free : n ≤ s.freeBlocks
  root : s.blockBitmap 0 = true

private theorem freeBlocks_setBlockBit (h : s.Fresh lba) (hdisk : lba ≤ maxLba) :
    (s.setBlockBit (s.blockIdx lba) true).freeBlocks + 1 = s.freeBlocks := by
  have hmem : s.blockIdx lba ∈ (Finset.range s.blockBits).filter s.FreeOnDisk := by
    have hdata := toNat_blockIdx h.data
    have hle := UInt32.le_iff_toNat_le.mp hdisk
    have hstart := h.data
    exact Finset.mem_filter.mpr ⟨Finset.mem_range.mpr h.inMap, h.bit, by omega⟩
  have herase : ((Finset.range s.blockBits).filter
      (s.setBlockBit (s.blockIdx lba) true).FreeOnDisk) =
      ((Finset.range s.blockBits).filter s.FreeOnDisk).erase (s.blockIdx lba) := by
    ext i
    by_cases hi : i = s.blockIdx lba
    · simp [State.FreeOnDisk, hi]
    · simp [State.FreeOnDisk, hi]
  have hcard := Finset.card_erase_add_one hmem
  rw [← herase] at hcard
  exact hcard

private theorem Room.blockIdx_ne_zero {n : Nat} (h : Room s n) (hlba : s.Fresh lba) :
    s.blockIdx lba ≠ 0 := by
  intro hzero
  have hbit := hlba.bit
  rw [hzero, h.root] at hbit
  cases hbit

theorem Room.setBlockBit {n : Nat} (h : Room s (n + 1)) (hlba : s.Fresh lba)
    (hdisk : lba ≤ maxLba) : Room (s.setBlockBit (s.blockIdx lba) true) n := by
  have hfree := freeBlocks_setBlockBit hlba hdisk
  refine ⟨by have := h.free; omega, ?_⟩
  rw [State.setBlockBit_blockBitmap, Function.update_of_ne (h.blockIdx_ne_zero hlba).symm]
  exact h.root

theorem Room.congr {n : Nat} (h : Room s n) (hpart : s'.part = s.part)
    (hbits : s'.blockBitmap = s.blockBitmap) : Room s' n := by
  refine ⟨?_, by rw [hbits]; exact h.root⟩
  have hfree : s'.FreeOnDisk = s.FreeOnDisk := by
    funext i
    rw [State.FreeOnDisk, State.FreeOnDisk, hpart, hbits]
  have hsame : s'.freeBlocks = s.freeBlocks := by
    simp only [State.freeBlocks, State.blockBits, hpart, hfree]
  rw [hsame]
  exact h.free

private theorem blockBitmapAlloc_returns {n : Nat} (h : Room s (n + 1)) : ∃ lba, s.Fresh lba ∧
    lba ≤ maxLba ∧ blockBitmapAlloc s = .ok (some lba, s.setBlockBit (s.blockIdx lba) true) := by
  obtain ⟨i, hi⟩ := Finset.card_pos.mp (Nat.lt_of_lt_of_le n.succ_pos h.free)
  obtain ⟨hin, hclear, hend⟩ := Finset.mem_filter.mp hi
  obtain ⟨k, hk⟩ := firstClear_of_clear s.blockBits (Nat.zero_le i)
    (by simpa using hin) hclear
  obtain ⟨-, hlt, hbit⟩ := firstClear_some hk
  have hlt' : k < s.blockBits := by omega
  have hle : k ≤ i := by
    by_contra hgt
    have := firstClear_first hk (Nat.zero_le i) (Nat.not_le.mp hgt)
    rw [hclear] at this
    cases this
  have hscan : bitmapScan s.blockBitmap s.blockBits s = .ok (some k, s) := by
    rw [bitmapScan, hk]
    have hassert : assert ((some k).isSome = true) s = .ok ((), s) :=
      assert_ok.mpr ⟨rfl, Or.inr rfl⟩
    rw [Code.bind_of_ok hassert]
    rfl
  have hset : blockBitmapSet k true s = .ok ((), s.setBlockBit k true) := by
    have hrequire : require (k < s.blockBits) .outOfBounds s = .ok ((), s) :=
      require_ok.mpr ⟨rfl, hlt'⟩
    rw [blockBitmapSet, Code.get_bind, Code.bind_of_ok hrequire]
    rfl
  refine ⟨s.part.sb.dataStartLba + UInt32.ofNat k, ⟨?_, ?_, ?_⟩, ?_, ?_⟩
  · rw [toNat_blockLba hlt']
    omega
  · rw [blockIdx_blockLba hlt']
    exact hlt'
  · rw [blockIdx_blockLba hlt']
    exact hbit
  · rw [UInt32.le_iff_toNat_le, toNat_blockLba hlt']
    omega
  · rw [blockBitmapAlloc, Code.get_bind, Code.bind_of_ok hscan, blockIdx_blockLba hlt']
    dsimp only
    rw [Code.bind_of_ok hset]
    rfl

end Free

section Returns

variable {s s' : State} {p : Ptr} {fd : Nat} {blocks : Nat → UInt32} {count : UInt32} {src : Bytes}

private theorem allocBlocks_next {direct i n : Nat} {checkIdx : Bool} {lba : UInt32}
    (halloc : blockBitmapAlloc s = .ok (some lba, s.setBlockBit (s.blockIdx lba) true))
    (hfirst : s.blockIdx lba ≠ 0) (hdirect : i < direct → (s.inode p).iSectors i = 0)
    (hi : i < 140) :
    allocBlocks p direct checkIdx blocks i (n + 1) s =
      allocBlocks p direct checkIdx (Function.update blocks i lba) (i + 1) n
        (s.takeBlock p direct i lba) := by
  rw [allocBlocks, Code.bind_of_ok halloc]
  dsimp only
  rw [Code.get_bind, State.takeBlock]
  by_cases hlt : i < direct
  · have hfree : assert (((s.setBlockBit (s.blockIdx lba) true).inode p).iSectors i = 0)
        (s.setBlockBit (s.blockIdx lba) true) = .ok ((), s.setBlockBit (s.blockIdx lba) true) :=
      assert_ok.mpr ⟨rfl, Or.inr (hdirect hlt)⟩
    have hidx : assert (checkIdx = true → (s.setBlockBit (s.blockIdx lba) true).blockIdx lba ≠ 0)
        ((s.setBlockBit (s.blockIdx lba) true).setSector p i lba) =
        .ok ((), (s.setBlockBit (s.blockIdx lba) true).setSector p i lba) :=
      assert_ok.mpr ⟨rfl, Or.inr fun _ => hfirst⟩
    rw [if_pos hlt, if_pos hlt, Code.bind_of_ok hfree, Code.modify_bind, Code.bind_of_ok hidx]
    rfl
  · have hin : require (i < 140) .outOfBounds (s.setBlockBit (s.blockIdx lba) true) =
      .ok ((), s.setBlockBit (s.blockIdx lba) true) := require_ok.mpr ⟨rfl, hi⟩
    rw [if_neg hlt, if_neg hlt, Code.bind_of_ok hin]
    rfl

private theorem allocBlocks_returns {direct : Nat} {checkIdx : Bool} (n : Nat) :
    ∀ {s : State} {blocks : Nat → UInt32} {i : Nat}, Room s n → i + n ≤ 140 →
    (∀ j, i ≤ j → j < direct → (s.inode p).iSectors j = 0) →
    ∃ blocks' s', allocBlocks p direct checkIdx blocks i n s = .ok (some blocks', s') ∧
      ∀ j, blocks j ≤ maxLba ∨ i ≤ j ∧ j < i + n → blocks' j ≤ maxLba := by
  induction n with
  | zero =>
      intro s blocks i _ _ _
      exact ⟨blocks, s, rfl, fun j hj => hj.resolve_right (by omega)⟩
  | succ n ih =>
      intro s blocks i hroom hbound hzero
      obtain ⟨lba, hfresh, hdisk, halloc⟩ := blockBitmapAlloc_returns hroom
      rw [allocBlocks_next halloc (hroom.blockIdx_ne_zero hfresh) (hzero i le_rfl) (by omega)]
      have htaken : Takes p direct i 1 blocks (Function.update blocks i lba) s
        (s.takeBlock p direct i lba) := takes_block hfresh (by omega)
      have hroom' : Room (s.takeBlock p direct i lba) n := by
        have hnext := hroom.setBlockBit hfresh hdisk
        rw [State.takeBlock]
        split
        · exact hnext.congr rfl rfl
        · exact hnext.congr rfl rfl
      have hrest : ∀ j, i + 1 ≤ j → j < direct →
          ((s.takeBlock p direct i lba).inode p).iSectors j = 0 := by
        intro j hj hj'
        rw [htaken.pointers j, if_neg (by omega)]
        exact hzero j (by omega) hj'
      obtain ⟨blocks', s', hrun, hblocks⟩ :=
        @ih _ (Function.update blocks i lba) (i + 1) hroom' (by omega) hrest
      refine ⟨blocks', s', hrun, fun j hj => hblocks j ?_⟩
      by_cases hij : j = i
      · left
        rw [hij, Function.update_self]
        exact hdisk
      · rw [Function.update_of_ne hij]
        exact hj.imp_right fun h => ⟨by omega, by omega⟩

/-- The sectors of a file of `n` blocks. -/
def sectorsFor (n : Nat) : Nat := n + if 12 < n then 1 else 0

theorem Covers.zero {has j : Nat} (h : Covers (s.inode p) s.disk has) (hj : has ≤ j)
    (hlt : j < 12) : (s.inode p).iSectors j = 0 := by
  by_contra hne
  rw [← allBlocks_direct _ s.disk hlt] at hne
  have := (h.blocks j (by omega)).mp hne
  omega

theorem Covers.noTable {has : Nat} (h : Covers (s.inode p) s.disk has) (hle : has ≤ 12) :
    (s.inode p).iSectors 12 = 0 := by
  by_contra hne
  have := h.table.mp hne
  omega

/-- The blocks of the inode and its indirect table lie on the disk. -/
def Inode.WithinDisk (ino : Inode) (disk : Bytes) : Prop := ∀ i ≤ 140, ino.refs disk i ≤ maxLba

theorem Inode.WithinDisk.block {ino : Inode} {disk : Bytes} (h : ino.WithinDisk disk) {i : Nat}
    (hi : i < 140) : ino.allBlocks disk i ≤ maxLba := by
  rw [← refs_block _ _ hi]
  exact h i hi.le

theorem Inode.WithinDisk.table {ino : Inode} {disk : Bytes} (h : ino.WithinDisk disk) :
    ino.iSectors 12 ≤ maxLba := by
  rw [← refs_table ino disk]
  exact h 140 le_rfl

/-- The blocks that are written lie on the disk. -/
def CollectsOnDisk (has will : Nat) (blocks : Nat → UInt32) : Prop :=
  ∀ k, has ≤ k + 1 → k < will → blocks k ≤ maxLba

private theorem collects_alloc {has will : Nat} {blocks blocks' : Nat → UInt32}
    (hlast : blocks (has - 1) ≤ maxLba)
    (h : ∀ j, blocks j ≤ maxLba ∨ has ≤ j ∧ j < has + (will - has) → blocks' j ≤ maxLba) :
    CollectsOnDisk has will blocks' := by
  intro k hk hk'
  apply h
  by_cases hlow : has ≤ k
  · exact .inr ⟨hlow, by omega⟩
  · left
    rwa [show k = has - 1 by omega]

private theorem moreBlocks_returns {has will : Nat} (hpos : 0 < has) (hlt : has < will)
    (hwill : will ≤ 140)
    (hs : Covers (s.inode p) s.disk has) (hdisk : (s.inode p).WithinDisk s.disk)
    (hroom : Room s (sectorsFor will - sectorsFor has)) :
    ∃ blocks s', moreBlocks p has will s = .ok (some blocks, s') ∧
      CollectsOnDisk has will blocks := by
  have hfirst : has ≤ 12 → Function.update noBlocks (has - 1) ((s.inode p).iSectors (has - 1))
      (has - 1) ≤ maxLba := by
    intro hle
    rw [lastBlock_direct hle hpos _ s.disk]
    exact hdisk.block (by omega)
  rw [moreBlocks, Code.get_bind]
  by_cases hlow : will ≤ 12
  · have hin : require (has ≤ 13) .outOfBounds s = .ok ((), s) := require_ok.mpr ⟨rfl, by omega⟩
    have hlast : assert ((s.inode p).iSectors (has - 1) ≠ 0) s = .ok ((), s) := by
      refine assert_ok.mpr ⟨rfl, Or.inr ?_⟩
      rw [← allBlocks_direct _ s.disk (by omega)]
      exact (hs.blocks _ (by omega)).mpr (by omega)
    have hneed : sectorsFor will - sectorsFor has = will - has := by
      rw [sectorsFor, sectorsFor, if_neg (by omega), if_neg (by omega)]
      omega
    rw [hneed] at hroom
    rw [if_pos hlow, Code.bind_of_ok hin, Code.bind_of_ok hlast]
    obtain ⟨blocks, s₁, h₁, hblocks⟩ : ∃ blocks s₁, allocBlocks p 12 true
        (Function.update noBlocks (has - 1) ((s.inode p).iSectors (has - 1))) has (will - has) s =
        .ok (some blocks, s₁) ∧ _ := allocBlocks_returns _ hroom (by omega) fun j hj hj' =>
      hs.zero hj hj'
    exact ⟨blocks, s₁, h₁, collects_alloc (hfirst (by omega)) hblocks⟩
  · rw [if_neg hlow]
    by_cases hhas : has ≤ 12
    · have hneed : sectorsFor will - sectorsFor has = (will - has) + 1 := by
        rw [sectorsFor, sectorsFor, if_pos (by omega), if_neg (by omega)]
        omega
      rw [hneed] at hroom
      obtain ⟨table, hfresh, htable, halloc⟩ := blockBitmapAlloc_returns hroom
      rw [if_pos hhas, Code.bind_of_ok halloc]
      dsimp only
      have hnone : assert ((s.inode p).iSectors 12 = 0) (s.setBlockBit (s.blockIdx table) true) =
          .ok ((), s.setBlockBit (s.blockIdx table) true) :=
        assert_ok.mpr ⟨rfl, Or.inr (hs.noTable hhas)⟩
      rw [Code.bind_of_ok hnone, Code.modify_bind]
      have hzero (j : Nat) (hj : has ≤ j) (hj' : j < 12) :
          ((s.takeTable p table).inode p).iSectors j = 0 := by
        have hne : j ≠ 12 := by omega
        simp [State.takeTable, State.setSector, hne, hs.zero hj hj']
      obtain ⟨blocks, s₁, h₁, hblocks⟩ : ∃ blocks s₁, allocBlocks p 12 false
          (Function.update noBlocks (has - 1) ((s.inode p).iSectors (has - 1))) has (will - has)
          (s.takeTable p table) = .ok (some blocks, s₁) ∧ _ :=
        allocBlocks_returns _ ((hroom.setBlockBit hfresh htable).congr rfl rfl) (by omega) hzero
      rw [State.takeTable] at h₁
      rw [Code.bind_of_ok h₁]
      have hwrite : writeTable table blocks s₁ = .ok ((), _) := writeTable_ok.mpr ⟨.inr htable, rfl⟩
      dsimp only
      rw [Code.bind_of_ok hwrite]
      exact ⟨blocks, _, rfl, collects_alloc (hfirst hhas) hblocks⟩
    · have hneed : sectorsFor will - sectorsFor has = will - has := by
        rw [sectorsFor, sectorsFor, if_pos (by omega), if_pos (by omega)]
        omega
      rw [hneed] at hroom
      have hne : (s.inode p).iSectors 12 ≠ 0 := hs.table.mpr (by omega)
      rw [if_neg hhas, Code.bind_of_ok (readTable_ok.mpr ⟨⟨.inr hne, .inr hdisk.table⟩, rfl, rfl⟩)]
      obtain ⟨blocks, s₁, h₁, hblocks⟩ : ∃ blocks s₁, allocBlocks p 0 false
          (tableBlocks s.disk ((s.inode p).iSectors 12) noBlocks) has (will - has) s =
          .ok (some blocks, s₁) ∧ _ :=
        allocBlocks_returns _ hroom (by omega) fun j _ hj => absurd hj (Nat.not_lt_zero j)
      rw [Code.bind_of_ok h₁]
      have hwrite : writeTable ((s.inode p).iSectors 12) blocks s₁ = .ok ((), _) :=
        writeTable_ok.mpr ⟨.inr hdisk.table, rfl⟩
      dsimp only
      rw [Code.bind_of_ok hwrite]
      refine ⟨blocks, _, rfl, collects_alloc ?_ hblocks⟩
      rw [lastBlock_table (by omega) (by omega) hne]
      exact hdisk.block (by omega)

private theorem writeBlocks_returns {has will : Nat} (hpos : 0 < has) (hle : has ≤ will)
    (hwill : will ≤ 140) (hs : Covers (s.inode p) s.disk has)
    (hdisk : (s.inode p).WithinDisk s.disk)
    (hroom : Room s (sectorsFor will - sectorsFor has)) :
    ∃ blocks s', writeBlocks p has will s = .ok (some blocks, s') ∧
      CollectsOnDisk has will blocks := by
  rw [writeBlocks]
  by_cases heq : will = has
  · have hlast : ∀ {blocks : Nat → UInt32}, blocks (has - 1) =
        (s.inode p).allBlocks s.disk (has - 1) → CollectsOnDisk has will blocks := by
      intro blocks hblocks k hk hk'
      rw [show k = has - 1 by omega, hblocks]
      exact hdisk.block (by omega)
    rw [if_pos heq, sameBlocks, Code.get_bind]
    by_cases hlow : will ≤ 12
    · rw [if_pos hlow]
      exact ⟨_, s, rfl, hlast (lastBlock_direct (by omega) hpos _ _)⟩
    · have hne : (s.inode p).iSectors 12 ≠ 0 := hs.table.mpr (by omega)
      rw [if_neg hlow, Code.bind_of_ok (readTable_ok.mpr ⟨⟨.inr hne, .inr hdisk.table⟩, rfl, rfl⟩)]
      exact ⟨_, s, rfl, hlast (lastBlock_table (by omega) (by omega) hne)⟩
  · rw [if_neg heq]
    exact moreBlocks_returns hpos (by omega) hwill hs hdisk hroom

/-- The number of blocks a file has. -/
def Inode.blockCount (ino : Inode) : Nat :=
  if ino.iSectors 0 = 0 then 0 else ino.iSize.toNat / 512 + 1

private theorem firstBlock_returns {n : Nat} (howns : OwnsBlocks s (s.inode p))
    (hfit : PointersFit (s.inode p) s.disk) (hdisk : (s.inode p).WithinDisk s.disk)
    (hroom : Room s (sectorsFor n - sectorsFor (s.inode p).blockCount)) (hn : 0 < n) :
    ∃ s', firstBlock p s = .ok (true, s') ∧
      Room s' (sectorsFor n - sectorsFor ((s.inode p).iSize.toNat / 512 + 1)) ∧
      (s'.inode p).WithinDisk s'.disk := by
  by_cases hzero : (s.inode p).iSectors 0 = 0
  · have hsize : (s.inode p).iSize.toNat = 0 := by
      rcases hfit.blocks with ⟨hsize, -⟩ | ⟨-, hblocks⟩
      · rw [hsize]
        rfl
      · exact absurd hzero ((hblocks 0 (by omega)).mpr (by omega))
    have hneed : sectorsFor n - sectorsFor (s.inode p).blockCount =
        sectorsFor n - sectorsFor ((s.inode p).iSize.toNat / 512 + 1) + 1 := by
      rw [Inode.blockCount, if_pos hzero, hsize, sectorsFor, sectorsFor, sectorsFor]
      simp
      omega
    rw [hneed] at hroom
    obtain ⟨lba, hfresh, hlba, halloc⟩ := blockBitmapAlloc_returns hroom
    have hidx : assert (s.blockIdx lba ≠ 0)
        ((s.setBlockBit (s.blockIdx lba) true).setSector p 0 lba) =
        .ok ((), (s.setBlockBit (s.blockIdx lba) true).setSector p 0 lba) :=
      assert_ok.mpr ⟨rfl, Or.inr (hroom.blockIdx_ne_zero hfresh)⟩
    obtain ⟨s', hs'⟩ : ∃ s', s' = ((s.setBlockBit (s.blockIdx lba) true).setSector p 0 lba).syncBlockBit
        (s.blockIdx lba) := ⟨_, rfl⟩
    have hrun : firstBlock p s = .ok (true, s') := by
      rw [firstBlock, Code.get_bind, if_pos hzero, Code.bind_of_ok halloc]
      dsimp only
      rw [Code.modify_bind, Code.bind_of_ok hidx, hs']
      rfl
    have hsectors : (s'.inode p).iSectors = Function.update (s.inode p).iSectors 0 lba := by
      rw [hs']
      simp [State.setSector]
    have hcov := (firstBlock_grew howns hfit hrun).2
    rw [hsize] at hcov
    refine ⟨s', hrun, ?_, fun i hi => ?_⟩
    · rw [hs']
      exact (hroom.setBlockBit hfresh hlba).congr rfl rfl
    · by_cases htable : i = 140
      · rw [htable, refs_table, hsectors, Function.update_of_ne (by decide)]
        exact hdisk.table
      · rw [refs_block _ _ (by omega)]
        by_cases hi0 : i = 0
        · rw [hi0, allBlocks_direct _ _ (by decide), hsectors, Function.update_self]
          exact hlba
        · have hnone := mt (hcov.blocks i (by omega)).mp (by omega)
          rw [not_not.mp hnone]
          exact UInt32.zero_le
  · have hrun : firstBlock p s = .ok (true, s) := by
      rw [firstBlock, Code.get_bind, if_neg hzero]
      rfl
    refine ⟨s, hrun, ?_, hdisk⟩
    rwa [Inode.blockCount, if_neg hzero] at hroom

private theorem writeLoop_returns (n : Nat) : ∀ {s : State} {first : Bool} {src : Bytes}
    {written : UInt32},
    written ≤ count → (s.inode p).iSize.toNat + (count.toNat - written.toNat) ≤ 71680 →
    Enough (s.inode p).iSize.toNat (count.toNat - written.toNat) n →
    (∀ k, Touched (s.inode p).iSize.toNat (count.toNat - written.toNat) k → blocks k ≤ maxLba) →
    ∃ s', writeLoop fd p blocks count n first src written s = .ok (count, s') ∧
      s'.mem = s.mem := by
  induction n with
  | zero =>
      intro s first src written _ _ h _
      exact absurd h.1 (Nat.lt_irrefl 0)
  | succ n ih =>
      intro s first src written hle hend hfuel hdisk
      have hle' := UInt32.le_iff_toNat_le.mp hle
      by_cases hdone : count ≤ written
      · obtain rfl : written = count := UInt32.le_antisymm hle hdone
        rw [writeLoop, if_pos hdone]
        exact ⟨s, rfl, rfl⟩
      · obtain ⟨hleft, hsub⟩ := toNat_sub_pos hdone
        have hdiv : ((s.inode p).iSize / 512).toNat = (s.inode p).iSize.toNat / 512 :=
          UInt32.toNat_div _ _
        have hsec : ((s.inode p).iSize / 512).toNat < 140 := by omega
        have hadd := add_chunk hsec hleft
        have hchunk := chunkSize_toNat (s.inode p).iSize (count - written)
        have hlba : blocks ((s.inode p).iSize / 512).toNat ≤ maxLba :=
          hdisk _ ⟨by omega, by omega, by omega⟩
        rw [writeLoop_next hdone hsec (.inr hlba)]
        obtain ⟨c, hc⟩ : ∃ c, c = chunkSize (s.inode p).iSize (count - written) := ⟨_, rfl⟩
        rw [← hc] at hadd hchunk ⊢
        have hcount := count.toNat_lt
        have hwritten : (written + c).toNat = written.toNat + c.toNat := by
          rw [UInt32.toNat_add, Nat.mod_eq_of_lt (by omega)]
        have hsize : ((s.turn fd p blocks first src c).inode p).iSize.toNat =
            (s.inode p).iSize.toNat + c.toNat := by
          rw [← hadd]
          simp [State.turn, State.setSize]
        have hrest : count.toNat - (written + c).toNat = count.toNat - written.toNat - c.toNat := by
          omega
        refine ih (UInt32.le_iff_toNat_le.mpr (by omega)) (by rw [hsize]; omega)
          (by rw [hsize, hrest]; exact hfuel.turn (by omega) (hsub ▸ hchunk)) fun k hk => ?_
        rw [hsize, hrest, Touched] at hk
        exact hdisk k ⟨by omega, by omega, by omega⟩

private theorem writeData_returns (hmem : s.Served)
    (hend : (s.inode p).iSize.toNat + count.toNat ≤ 71680)
    (hdisk : ∀ k, Touched (s.inode p).iSize.toNat count.toNat k → blocks k ≤ maxLba) :
    ∃ s', writeData fd p src count blocks s = .ok (some count, s') := by
  obtain ⟨s₁, hs₁⟩ : ∃ s₁ : State, s₁ = s.setFile fd
    { s.fileTable fd with fdPos := (s.inode p).iSize - 1 } := ⟨_, rfl⟩
  have hsize : (s₁.inode p).iSize = (s.inode p).iSize := by
    rw [hs₁]
    rfl
  have hzero : count.toNat - (0 : UInt32).toNat = count.toNat := rfl
  obtain ⟨s₂, hloop, hmem₂⟩ : ∃ s₂, writeLoop fd p blocks count 142 true src 0 s₁ =
      .ok (count, s₂) ∧ s₂.mem = s₁.mem :=
    writeLoop_returns 142 UInt32.zero_le (by rw [hsize, hzero]; exact hend)
      (by rw [hsize, hzero, Enough]; omega) (by rw [hsize, hzero]; exact hdisk)
  have hmalloc : sysMalloc s₂ = .ok (true, s₂.setMem s₂.malloc) := by
    refine sysMalloc_ok.mpr ⟨?_, rfl⟩
    rw [hmem₂, hs₁]
    exact (hmem _).symm
  rw [writeData, Code.modify_bind, ← hs₁, Code.bind_of_ok hloop, Code.bind_of_ok hmalloc,
    if_neg (by decide), Code.get_bind, Code.bind_of_ok (inodeSync_eq _ _)]
  exact ⟨_, rfl⟩

private theorem toNat_usedBlocks {size : UInt32} :
    (size / 512 + 1).toNat = size.toNat / 512 + 1 := by
  have hlt := size.toNat_lt
  have hone : (1 : UInt32).toNat = 1 := rfl
  rw [UInt32.toNat_add, UInt32.toNat_div, hone]
  change (size.toNat / 512 + 1) % 2 ^ 32 = _
  omega

private theorem writeFile_returns (howns : OwnsBlocks s (s.inode p))
    (hfit : PointersFit (s.inode p) s.disk) (hdisk : (s.inode p).WithinDisk s.disk)
    (hmem : s.Served) (hend : (s.inode p).iSize.toNat + count.toNat < 71168)
    (hroom : Room s (sectorsFor (((s.inode p).iSize.toNat + count.toNat) / 512 + 1) -
      sectorsFor (s.inode p).blockCount)) :
    ∃ s', writeFile fd p src count s = .ok (some count, s') := by
  obtain ⟨s₁, hfirst, hroom₁, hdisk₁⟩ := firstBlock_returns howns hfit hdisk hroom (Nat.succ_pos _)
  obtain ⟨hgrew, hcov⟩ := firstBlock_grew howns hfit hfirst
  have hsum : ((s₁.inode p).iSize + count).toNat = (s.inode p).iSize.toNat + count.toNat := by
    rw [hgrew.size, UInt32.toNat_add, Nat.mod_eq_of_lt (by omega)]
  have hhas : ((s₁.inode p).iSize / 512 + 1).toNat = (s.inode p).iSize.toNat / 512 + 1 := by
    rw [toNat_usedBlocks, hgrew.size]
  have hwill : (((s₁.inode p).iSize + count) / 512 + 1).toNat =
      ((s.inode p).iSize.toNat + count.toNat) / 512 + 1 := by
    rw [toNat_usedBlocks, hsum]
  have hassert : assert ((((s₁.inode p).iSize + count) / 512 + 1).toNat < 140) s₁ = .ok ((), s₁) :=
    assert_ok.mpr ⟨rfl, Or.inr (by omega)⟩
  rw [← hhas] at hcov hroom₁
  rw [← hwill] at hroom₁
  obtain ⟨blocks, s₂, hblocks, hcollected⟩ :=
    writeBlocks_returns (by omega) (by omega) (by omega) hcov hdisk₁ hroom₁
  have hmem₂ : s₂.Served := (hmem.same (stable_sameServe.firstBlock p _ _ _ hfirst)).same
    (Keeps.ite (StableDisk.sameBlocks p _ _) (stable_sameServe.moreBlocks p _ _) _ _ _ hblocks)
  have hsize₂ : (s₂.inode p).iSize = (s.inode p).iSize := by
    rw [(unmoved_writeBlocks _ _ _ _ _ _ hblocks).size p, hgrew.size]
  obtain ⟨s', hdata⟩ : ∃ s', writeData fd p src count blocks s₂ = .ok (some count, s') :=
    writeData_returns hmem₂ (by rw [hsize₂]; omega) (by
      rw [hsize₂]
      rintro k ⟨-, hk, hk'⟩
      exact hcollected k (by omega) (by omega))
  refine ⟨s', ?_⟩
  rw [writeFile, Code.bind_of_ok hfirst, if_pos rfl, Code.get_bind, Code.bind_of_ok hassert,
    Code.bind_of_ok hblocks]
  exact hdata

/-- The state in which `file_write` has its buffers. -/
def State.buffered (s : State) : State := (s.setMem s.malloc).setMem (s.setMem s.malloc).malloc

private theorem fileWrite_buffered (hp : (s.fileTable fd).fdInode = some p) (hmem : s.Served)
    (hle : ((s.inode p).iSize + count).toNat ≤ 71680) :
    fileWrite fd src count s = writeFile fd p src count s.buffered := by
  have hcheck : ¬ (s.inode p).iSize + count > 71680 := by
    intro hgt
    have hgt' := UInt32.lt_iff_toNat_lt.mp hgt
    change 71680 < _ at hgt'
    omega
  have hmalloc : sysMalloc s = .ok (true, s.setMem s.malloc) :=
    sysMalloc_ok.mpr ⟨(hmem _).symm, rfl⟩
  have hmalloc' : sysMalloc (s.setMem s.malloc) = .ok (true, s.buffered) :=
    sysMalloc_ok.mpr ⟨(hmem _).symm, rfl⟩
  rw [fileWrite, Code.get_bind, hp]
  dsimp only
  rw [if_neg hcheck, Code.bind_of_ok hmalloc, if_neg (by decide), Code.bind_of_ok hmalloc',
    if_neg (by decide)]

end Returns

section Limit

variable {s s' : State} {p : Ptr} {fd : Nat} {count : UInt32} {src : Bytes}

/-- No call changes how the kernel was built. -/
def SameBuild (s s' : State) : Prop := s'.ndebug = s.ndebug

instance : IsPreorder State SameBuild where
  refl _ := rfl
  trans _ _ _ h h' := Eq.trans h' h

private theorem stable_sameBuild : Stable SameBuild where
  mem _ _ _ := rfl
  disk _ _ _ _ := rfl
  blockBit _ _ _ := rfl
  inodeBit _ _ _ := rfl
  sector _ _ _ _ := rfl

private theorem writeFile_asserts {r : UInt32} (hdebug : s.ndebug = false)
    (h : writeFile fd p src count s = .ok (some r, s')) :
    ((s.inode p).iSize + count).toNat / 512 + 1 < 140 := by
  rw [writeFile] at h
  obtain ⟨ok, s₁, hfirst, h⟩ := Code.bind_ok.mp h
  cases ok with
  | false =>
      obtain ⟨h, -⟩ := Code.pure_ok.mp h
      cases h
  | true =>
      have hbuild : s₁.ndebug = s.ndebug := stable_sameBuild.firstBlock p _ _ _ hfirst
      have hsize := (stable_unmoved.firstBlock p _ _ _ hfirst).size p
      simp only [↓reduceIte, Code.get_bind, Code.bind_ok, assert_ok] at h
      obtain ⟨_, _, ⟨rfl, hassert⟩, -⟩ := h
      rw [hbuild, hdebug] at hassert
      rw [← hsize, ← toNat_usedBlocks]
      exact hassert.resolve_left Bool.false_ne_true

private theorem writeBlocks_ne_none {has will : Nat} (hle : will ≤ has) :
    writeBlocks p has will s ≠ .ok (none, s') := by
  intro h
  have hzero : will - has = 0 := by omega
  rw [writeBlocks] at h
  split at h
  · rw [sameBlocks, Code.get_bind] at h
    split at h
    · obtain ⟨h, -⟩ := Code.pure_ok.mp h
      cases h
    · simp only [Code.bind_ok, Code.pure_ok] at h
      obtain ⟨_, _, -, h, -⟩ := h
      cases h
  · rw [moreBlocks, Code.get_bind, hzero] at h
    split at h
    · simp only [Code.bind_ok, allocBlocks, Code.pure_ok] at h
      obtain ⟨_, _, -, _, _, -, h, -⟩ := h
      cases h
    · rw [if_neg (by omega)] at h
      simp only [Code.bind_ok, allocBlocks, Code.pure_ok] at h
      obtain ⟨_, _, -, r, s₂, ⟨rfl, -⟩, h⟩ := h
      dsimp only at h
      simp only [Code.bind_ok, Code.pure_ok] at h
      obtain ⟨_, _, -, h, -⟩ := h
      cases h

/-- A count that wraps around is taken up to the end of `all_blocks`, so that the call neither
succeeds nor fails. -/
private theorem writeFile_wrapped (hfirst : (s.inode p).iSectors 0 ≠ 0)
    (hsize : (s.inode p).iSize.toNat ≤ 71680)
    (hwrap : 2 ^ 32 ≤ (s.inode p).iSize.toNat + count.toNat) (r : Option UInt32) :
    writeFile fd p src count s ≠ .ok (r, s') := by
  intro h
  have hcount := count.toNat_lt
  have hsum : ((s.inode p).iSize + count).toNat ≤ (s.inode p).iSize.toNat := by
    rw [UInt32.toNat_add]
    omega
  have hblock : firstBlock p s = .ok (true, s) := by
    rw [firstBlock, Code.get_bind, if_neg hfirst]
    rfl
  rw [writeFile, Code.bind_of_ok hblock] at h
  simp only [↓reduceIte, Code.get_bind, Code.bind_ok, assert_ok] at h
  obtain ⟨_, _, ⟨rfl, -⟩, r', s₂, hblocks, h⟩ := h
  cases r' with
  | none =>
      refine writeBlocks_ne_none ?_ hblocks
      rw [toNat_usedBlocks, toNat_usedBlocks]
      omega
  | some blocks =>
      dsimp only at h
      have hsize₂ := (unmoved_writeBlocks _ _ _ _ _ _ hblocks).size p
      rw [writeData, Code.modify_bind] at h
      obtain ⟨w, s₃, hloop, -⟩ := Code.bind_ok.mp h
      have hzero : count.toNat - (0 : UInt32).toNat = count.toNat := rfl
      obtain ⟨-, hstored⟩ := writeLoop_stored 142 UInt32.zero_le (Or.inl rfl) (fun hend => by
        rw [State.setFile_inode, hsize₂, hzero] at hend
        omega) hloop
      have hfits := hstored.fits
      rw [State.setFile_inode, hsize₂, hzero] at hfits
      omega

/-- The block pointers of a file, which may have all 140 blocks filled.  The blocks lie on the
disk. -/
structure FileBlocks (ino : Inode) (disk : Bytes) : Prop where
  limit : ino.iSize.toNat ≤ 71680
  blocks : (ino.iSize = 0 ∧ ∀ k < 140, ino.allBlocks disk k = 0) ∨
    ∀ k < 140, ino.allBlocks disk k ≠ 0 ↔ k ≤ ino.iSize.toNat / 512
  table : ino.iSectors 12 ≠ 0 ↔ 12 ≤ ino.iSize.toNat / 512
  withinDisk : ino.WithinDisk disk

theorem FileBlocks.fit {ino : Inode} {disk : Bytes} (h : FileBlocks ino disk)
    (hlt : ino.iSize.toNat < 71680) : PointersFit ino disk :=
  ⟨h.blocks.imp_right fun hblocks => ⟨by omega, hblocks⟩, h.table⟩

theorem FileBlocks.first {ino : Inode} {disk : Bytes} (h : FileBlocks ino disk)
    (hpos : 0 < ino.iSize.toNat) : ino.iSectors 0 ≠ 0 := by
  rcases h.blocks with ⟨hzero, -⟩ | hblocks
  · rw [hzero] at hpos
    cases hpos
  · exact (hblocks 0 (by omega)).mpr (Nat.zero_le _)

/-- What `file_write` is to do at and beyond the limit: to write everything, or to refuse and leave
everything as it is. -/
def LimitKept (s : State) (fd : Nat) (p : Ptr) (src : Bytes) (count : UInt32) : Prop :=
  if (s.inode p).iSize.toNat + count.toNat ≤ 71680 then
    ∃ s', fileWrite fd src count s = .ok (some count, s') ∧
      (s'.inode p).contents s'.disk =
        (s.inode p).contents s.disk ++ (List.range count.toNat).map src
  else fileWrite fd src count s = .ok (none, s)

private theorem limitKept_below (hp : (s.fileTable fd).fdInode = some p)
    (howns : OwnsBlocks s (s.inode p))
    (hfit : PointersFit (s.inode p) s.disk) (hdisk : (s.inode p).WithinDisk s.disk)
    (hmem : s.Served) (hend : (s.inode p).iSize.toNat + count.toNat < 71168)
    (hroom : Room s (sectorsFor (((s.inode p).iSize.toNat + count.toNat) / 512 + 1) -
      sectorsFor (s.inode p).blockCount)) : LimitKept s fd p src count := by
  have hgrew : Grew p s s.buffered := grew_of_same howns rfl rfl rfl rfl
  have hsum : ((s.inode p).iSize + count).toNat = (s.inode p).iSize.toNat + count.toNat := by
    rw [UInt32.toNat_add, Nat.mod_eq_of_lt (by omega)]
  have hserved : s.buffered.Served := hmem
  have hroom' : Room s.buffered _ := hroom.congr rfl rfl
  obtain ⟨s', h⟩ : ∃ s', writeFile fd p src count s.buffered = .ok (some count, s') :=
    writeFile_returns hgrew.owns hfit hdisk hserved hend hroom'
  obtain ⟨-, blocks, s₂, s₃, hstages⟩ := writeFile_stages hfit hgrew rfl rfl h
  rw [LimitKept, if_pos (by omega)]
  refine ⟨s', ?_, hstages.contents⟩
  rw [fileWrite_buffered hp hmem (by omega)]
  exact h

theorem file_write_limit_iff (hdebug : s.ndebug = false)
    (hp : (s.fileTable fd).fdInode = some p) (howns : OwnsBlocks s (s.inode p))
    (hfit : FileBlocks (s.inode p) s.disk) (hmem : s.Served)
    (hroom : (s.inode p).iSize.toNat + count.toNat ≤ 71680 →
      Room s (sectorsFor (((s.inode p).iSize.toNat + count.toNat) / 512 + 1) -
        sectorsFor (s.inode p).blockCount)) :
    LimitKept s fd p src count ↔
      (s.inode p).iSize.toNat + count.toNat < 71168 ∨
        71680 < (s.inode p).iSize.toNat + count.toNat ∧
          (s.inode p).iSize.toNat + count.toNat < 2 ^ 32 := by
  have hsize := hfit.limit
  have hcount := count.toNat_lt
  have hsum := UInt32.toNat_add (s.inode p).iSize count
  by_cases hle : (s.inode p).iSize.toNat + count.toNat ≤ 71680
  · rw [or_iff_left (by omega)]
    rw [Nat.mod_eq_of_lt (by omega)] at hsum
    by_cases hlow : (s.inode p).iSize.toNat + count.toNat < 71168
    · exact iff_of_true (limitKept_below hp howns (hfit.fit (by omega)) hfit.withinDisk hmem hlow
        (hroom hle)) hlow
    · refine iff_of_false (fun h => ?_) hlow
      rw [LimitKept, if_pos hle] at h
      obtain ⟨s', h, -⟩ := h
      rw [fileWrite_buffered hp hmem (by omega)] at h
      have hassert := writeFile_asserts (s := s.buffered) hdebug h
      change ((s.inode p).iSize + count).toNat / 512 + 1 < 140 at hassert
      omega
  · rw [or_iff_right (by omega), LimitKept, if_neg hle]
    by_cases hno : (s.inode p).iSize.toNat + count.toNat < 2 ^ 32
    · rw [Nat.mod_eq_of_lt hno] at hsum
      refine iff_of_true ?_ ⟨by omega, hno⟩
      have hgt : (s.inode p).iSize + count > 71680 := UInt32.lt_iff_toNat_lt.mpr (by
        change 71680 < _
        omega)
      rw [fileWrite, Code.get_bind, hp]
      dsimp only
      rw [if_pos hgt]
      rfl
    · refine iff_of_false (fun h => ?_) fun h => hno h.2
      rw [fileWrite_buffered hp hmem (by omega)] at h
      exact writeFile_wrapped (s := s.buffered) (hfit.first (by omega)) hsize (Nat.not_lt.mp hno)
        none h

/-- An empty file on a partition with 1387 free blocks. -/
def roomyState : State :=
  { State.fresh widePartition Bytes.zero with
    blockBitmap := fun i => i = 0 || decide (1388 ≤ i)
    inodeBitmap := fun i => i < 2
    inode := fun _ => (inodeInit 1).opened
    openInode := [1]
    nextInode := 2
    fileTable := Function.update (fun _ => ⟨0, 0, none⟩) 3 ⟨0, oRdwr, some 1⟩ }

private theorem roomy_refs (i : Nat) : (roomyState.inode 1).refs roomyState.disk i = 0 :=
  refs_of_noBlocks (fun _ => rfl) _ i

private theorem roomy_owns : OwnsBlocks roomyState (roomyState.inode 1) := by
  constructor
  · intro i _ hne
    exact absurd (roomy_refs i) hne
  · intro i _ j _ hne
    exact absurd (roomy_refs i) hne

private theorem roomy_fileBlocks : FileBlocks (roomyState.inode 1) roomyState.disk := by
  refine ⟨by decide, Or.inl ⟨rfl, fun k hk => ?_⟩, by decide, fun i _ => ?_⟩
  · have hrefs := roomy_refs k
    rwa [refs_block _ _ hk] at hrefs
  · rw [roomy_refs]
    exact UInt32.zero_le

private theorem roomy_room {n : Nat} (hn : n ≤ 1387) : Room roomyState n := by
  refine ⟨hn.trans ?_, rfl⟩
  have hsub : Finset.Ico 1 1388 ⊆
      (Finset.range roomyState.blockBits).filter roomyState.FreeOnDisk := by
    intro i hi
    obtain ⟨h₁, h₂⟩ := Finset.mem_Ico.mp hi
    have hbits : roomyState.blockBits = 4096 := rfl
    refine Finset.mem_filter.mpr ⟨Finset.mem_range.mpr (by omega), ?_⟩
    have hne : i ≠ 0 := by omega
    refine ⟨by simp [roomyState, hne, h₂], ?_⟩
    have hdata : roomyState.part.sb.dataStartLba.toNat = 613 := rfl
    have hmax := toNat_maxLba
    omega
  have hcard := Finset.card_le_card hsub
  rwa [Nat.card_Ico] at hcard

theorem file_write_limit_roomy : LimitKept roomyState 3 1 (fun _ => 7) 71167 := by
  apply (file_write_limit_iff rfl rfl roomy_owns roomy_fileBlocks (fun _ => rfl) ?_).mpr
  · exact Or.inl (by decide)
  · intro _
    exact roomy_room (by decide)

/-- 71168 bytes are below the limit and trip the assertion. -/
theorem file_write_limit_asserts : roomyState.ndebug = false ∧ roomyState.Served ∧
    Room roomyState (sectorsFor (71168 / 512 + 1)) ∧
    FileBlocks (roomyState.inode 1) roomyState.disk ∧
    (roomyState.inode 1).iSize.toNat + (71168 : UInt32).toNat ≤ 71680 ∧
    ¬ LimitKept roomyState 3 1 (fun _ => 7) 71168 := by
  refine ⟨rfl, fun _ => rfl, roomy_room (by decide), roomy_fileBlocks, by decide, fun h => ?_⟩
  rw [LimitKept, if_pos (by decide)] at h
  obtain ⟨s', h, -⟩ := h
  rw [fileWrite_buffered (p := 1) rfl (fun _ => rfl) (by decide)] at h
  have hassert := writeFile_asserts (s := roomyState.buffered) rfl h
  exact absurd hassert (by decide)

end Limit

end Aitos.Fs
