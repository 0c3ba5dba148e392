import Aitos.Fs.Syscall
import Aitos.Fs.InodeTable

/-!
# Formatting and mounting a partition

`partition_format` of `fs/fs.c` in its own 32-bit arithmetic, `mount_partition` and `open_root_dir`.
-/

namespace Aitos.Fs

open Framework

/-- The inode of the new root directory. -/
def rootInode (sb : SuperBlock) : Inode where
  iNo := 0
  iSize := 48
  iOpenCnts := 0
  writeDeny := false
  iSectors := Function.update (fun _ => 0) 0 sb.dataStartLba

namespace Format

/-- `DIV_ROUND_UP` -/
def divRoundUp (x step : UInt32) : UInt32 := (x + step - 1) / step

def superMagic : UInt32 := 0x12345678

def inodeBitmapSects : UInt32 := divRoundUp 4096 4096
def inodeTableSects : UInt32 := divRoundUp (76 * 4096) 512
def usedSectors : UInt32 := 1 + 1 + inodeBitmapSects + inodeTableSects

def freeSectors (secCnt : UInt32) : UInt32 := secCnt - usedSectors

def blockBitmapBitLen (secCnt : UInt32) : UInt32 :=
  freeSectors secCnt - divRoundUp (freeSectors secCnt) 4096

def blockBitmapSects (secCnt : UInt32) : UInt32 := divRoundUp (blockBitmapBitLen secCnt) 4096

/-- `struct super_block` without the padding -/
structure SuperBlock where
  magic : UInt32
  secCnt : UInt32
  inodeCnt : UInt32
  partLbaBase : UInt32
  blockBitmapLba : UInt32
  blockBitmapSects : UInt32
  inodeBitmapLba : UInt32
  inodeBitmapSects : UInt32
  inodeTableLba : UInt32
  inodeTableSects : UInt32
  dataStartLba : UInt32
  rootInodeNo : UInt32
  dirEntrySize : UInt32

/-- `sb` of `partition_format` -/
def superBlock (startLba secCnt : UInt32) : SuperBlock :=
  let blockBitmapLba := startLba + 2
  let inodeBitmapLba := blockBitmapLba + blockBitmapSects secCnt
  let inodeTableLba := inodeBitmapLba + inodeBitmapSects
  { magic := superMagic
    secCnt := secCnt
    inodeCnt := 4096
    partLbaBase := startLba
    blockBitmapLba := blockBitmapLba
    blockBitmapSects := blockBitmapSects secCnt
    inodeBitmapLba := inodeBitmapLba
    inodeBitmapSects := inodeBitmapSects
    inodeTableLba := inodeTableLba
    inodeTableSects := inodeTableSects
    dataStartLba := inodeTableLba + inodeTableSects
    rootInodeNo := 0
    dirEntrySize := 24 }

/-- The words of the super block, in the order of its fields. -/
def SuperBlock.words (sb : SuperBlock) : List UInt32 :=
  [sb.magic, sb.secCnt, sb.inodeCnt, sb.partLbaBase, sb.blockBitmapLba, sb.blockBitmapSects,
    sb.inodeBitmapLba, sb.inodeBitmapSects, sb.inodeTableLba, sb.inodeTableSects, sb.dataStartLba,
    sb.rootInodeNo, sb.dirEntrySize]

/-- The sector with the super block; `pad` is what the stack held in place of the padding. -/
def SuperBlock.image (sb : SuperBlock) (pad : Bytes) : Bytes :=
  pad.blit 0 52 (Bytes.ofWords fun k => sb.words.getD k 0)

/-- The places that the mounted partition reads. -/
def SuperBlock.places (sb : SuperBlock) : Fs.SuperBlock :=
  ⟨sb.blockBitmapLba, sb.blockBitmapSects, sb.inodeBitmapLba, sb.inodeBitmapSects,
    sb.inodeTableLba, sb.dataStartLba⟩

/-- `while (index <= last_bit) byte &= ~(1 << index++)` -/
def clearLoop (lastBit : Nat) : Nat → Nat → UInt8 → UInt8
  | 0, _, byte => byte
  | n + 1, index, byte =>
      if index ≤ lastBit then
        clearLoop lastBit n (index + 1) (byte &&& ~~~((1 : UInt8) <<< UInt8.ofNat index))
      else byte

/-- `buf` when it holds the block bitmap -/
def blockBitmapBuf (bitLen : UInt32) : Bytes :=
  let buf : Bytes := Function.update Bytes.zero 0 (Bytes.zero 0 ||| 1)
  let lastByte := (bitLen / 8).toNat
  let lastBit := (bitLen % 8).toNat
  let lastSize := 512 - lastByte % 512
  let buf := buf.fill lastByte lastSize 0xff
  Function.update buf lastByte (clearLoop lastBit 9 0 (buf lastByte))

/-- `ide_write` -/
def ideWrite (disk : Bytes) (lba : UInt32) (buf : Bytes) (secCnt : UInt32) : Bytes :=
  disk.blit (512 * lba.toNat) (512 * secCnt.toNat) buf

/-- The disk after `partition_format` -/
def partitionFormat (startLba secCnt : UInt32) (pad disk : Bytes) : Bytes :=
  let sb := superBlock startLba secCnt
  let disk := ideWrite disk (startLba + 1) (sb.image pad) 1
  let disk := ideWrite disk sb.blockBitmapLba (blockBitmapBuf (blockBitmapBitLen secCnt))
    sb.blockBitmapSects
  let disk := ideWrite disk sb.inodeBitmapLba (Function.update Bytes.zero 0 1) sb.inodeBitmapSects
  let disk := ideWrite disk sb.inodeTableLba (Bytes.zero.blit 0 76 (rootInode sb.places).pureImage)
    sb.inodeTableSects
  ideWrite disk sb.dataStartLba (dirBlock 0 0) 1

section Sizes

variable {startLba secCnt : UInt32}

private theorem toNat_divRoundUp {x step : UInt32} (hstep : 0 < step.toNat)
    (h : x.toNat + step.toNat < 2 ^ 32) :
    (divRoundUp x step).toNat = (x.toNat + step.toNat - 1) / step.toNat := by
  have hone : (1 : UInt32) ≤ x + step := by
    rw [UInt32.le_iff_toNat_le, UInt32.toNat_add, Nat.mod_eq_of_lt h]
    have : (1 : UInt32).toNat = 1 := rfl
    omega
  rw [divRoundUp, UInt32.toNat_div, UInt32.toNat_sub_of_le _ _ hone, UInt32.toNat_add,
    Nat.mod_eq_of_lt h]
  rfl

/-- The partition is large enough for the metadata and ends on the disk. -/
structure OnDisk (startLba secCnt : UInt32) : Prop where
  large : 613 ≤ secCnt.toNat
  fits : startLba.toNat + secCnt.toNat ≤ maxLba.toNat + 1

private theorem toNat_freeSectors (h : OnDisk startLba secCnt) :
    (freeSectors secCnt).toNat = secCnt.toNat - 611 := by
  have hused : usedSectors.toNat = 611 := by decide
  have hle : usedSectors ≤ secCnt := by
    rw [UInt32.le_iff_toNat_le, hused]
    have := h.large
    omega
  rw [freeSectors, UInt32.toNat_sub_of_le _ _ hle, hused]

private theorem toNat_firstRounding (h : OnDisk startLba secCnt) :
    (divRoundUp (freeSectors secCnt) 4096).toNat = (secCnt.toNat - 611 + 4095) / 4096 := by
  have hstep : (4096 : UInt32).toNat = 4096 := rfl
  have hfits := h.fits
  have hmax := toNat_maxLba
  have hfree := toNat_freeSectors h
  rw [toNat_divRoundUp (by decide) (by omega), hfree, hstep]
  rfl

theorem toNat_bitLen (h : OnDisk startLba secCnt) : (blockBitmapBitLen secCnt).toNat =
    secCnt.toNat - 611 - (secCnt.toNat - 611 + 4095) / 4096 := by
  have hle : divRoundUp (freeSectors secCnt) 4096 ≤ freeSectors secCnt := by
    rw [UInt32.le_iff_toNat_le, toNat_firstRounding h, toNat_freeSectors h]
    omega
  rw [blockBitmapBitLen, UInt32.toNat_sub_of_le _ _ hle, toNat_firstRounding h,
    toNat_freeSectors h]

theorem toNat_sects (h : OnDisk startLba secCnt) : (blockBitmapSects secCnt).toNat =
    ((blockBitmapBitLen secCnt).toNat + 4095) / 4096 := by
  have hstep : (4096 : UInt32).toNat = 4096 := rfl
  have hfits := h.fits
  have hmax := toNat_maxLba
  have hlen := toNat_bitLen h
  rw [blockBitmapSects, toNat_divRoundUp (by decide) (by omega), hstep]
  rfl

theorem toNat_places (h : OnDisk startLba secCnt) :
    (superBlock startLba secCnt).blockBitmapLba.toNat = startLba.toNat + 2 ∧
    (superBlock startLba secCnt).inodeBitmapLba.toNat =
      startLba.toNat + 2 + (blockBitmapSects secCnt).toNat ∧
    (superBlock startLba secCnt).inodeTableLba.toNat =
      startLba.toNat + 2 + (blockBitmapSects secCnt).toNat + 1 ∧
    (superBlock startLba secCnt).dataStartLba.toNat =
      startLba.toNat + 2 + (blockBitmapSects secCnt).toNat + 1 + 608 := by
  have hfits := h.fits
  have hmax := toNat_maxLba
  have hlen := toNat_bitLen h
  have hsects := toNat_sects h
  have htwo : (2 : UInt32).toNat = 2 := rfl
  have hib : inodeBitmapSects.toNat = 1 := by decide
  have hit : inodeTableSects.toNat = 608 := by decide
  have h₁ : (startLba + 2).toNat = startLba.toNat + 2 := by
    rw [UInt32.toNat_add, htwo, Nat.mod_eq_of_lt (by omega)]
  have h₂ : (startLba + 2 + blockBitmapSects secCnt).toNat =
      startLba.toNat + 2 + (blockBitmapSects secCnt).toNat := by
    rw [UInt32.toNat_add, h₁, Nat.mod_eq_of_lt (by omega)]
  have h₃ : (startLba + 2 + blockBitmapSects secCnt + inodeBitmapSects).toNat =
      startLba.toNat + 2 + (blockBitmapSects secCnt).toNat + 1 := by
    rw [UInt32.toNat_add, h₂, hib, Nat.mod_eq_of_lt (by omega)]
  refine ⟨h₁, h₂, h₃, ?_⟩
  show (startLba + 2 + blockBitmapSects secCnt + inodeBitmapSects + inodeTableSects).toNat = _
  rw [UInt32.toNat_add, h₃, hit, Nat.mod_eq_of_lt (by omega)]

/-- The super block cuts the partition into its regions. -/
theorem layout (h : OnDisk startLba secCnt) (hstart : 0 < startLba.toNat) :
    Layout startLba secCnt (superBlock startLba secCnt).places := by
  have hlarge := h.large
  have hfits := h.fits
  have hmax := toNat_maxLba
  have hlen := toNat_bitLen h
  have hsects := toNat_sects h
  have hib : inodeBitmapSects.toNat = 1 := by decide
  obtain ⟨hbb, hibm, hit, hdata⟩ := toNat_places h
  have hbb' : (superBlock startLba secCnt).places.blockBitmapLba.toNat = _ := hbb
  have hbs' : (superBlock startLba secCnt).places.blockBitmapSects.toNat =
    (blockBitmapSects secCnt).toNat := rfl
  have hibm' : (superBlock startLba secCnt).places.inodeBitmapLba.toNat = _ := hibm
  have hit' : (superBlock startLba secCnt).places.inodeTableLba.toNat = _ := hit
  have hdata' : (superBlock startLba secCnt).places.dataStartLba.toNat = _ := hdata
  exact ⟨hstart, hfits, by omega, by omega, hib, by omega, by omega, by omega, by omega⟩

end Sizes

end Format

/-- A partition that `partition_format` can format. -/
structure Extent where
  startLba : UInt32
  secCnt : UInt32
  start : 0 < startLba.toNat
  onDisk : Format.OnDisk startLba secCnt

def Extent.partition (e : Extent) : Partition where
  startLba := e.startLba
  secCnt := e.secCnt
  sb := (Format.superBlock e.startLba e.secCnt).places
  layout := Format.layout e.onDisk e.start

/-- The bits of a bitmap on the disk. -/
def diskBits (disk : Bytes) (lba : UInt32) (i : Nat) : Bool :=
  (disk (512 * lba.toNat + i / 8)).toNat.testBit (i % 8)

/-- `mount_partition` -/
def mountPartition (part : Partition) (disk : Bytes) : State :=
  { State.fresh part disk with
    blockBitmap := diskBits disk part.sb.blockBitmapLba
    inodeBitmap := diskBits disk part.sb.inodeBitmapLba }

@[simps -fullyApplied]
def State.setRootDir (s : State) (p : Ptr) : State :=
  { s with dir := Function.update s.dir rootDir ⟨p, 0⟩ }

def openRootDir : FsM Unit := do
  let p ← inodeOpen 0
  modify fun s => s.setRootDir p

/-- The state `filesys_init` leaves, for processes with new descriptor tables. -/
def Mounted (part : Partition) (disk : Bytes) (s : State) : Prop :=
  ∃ s₀ procs, openRootDir (mountPartition part disk) = .ok ((), s₀) ∧ s = { s₀ with procs := procs }

end Aitos.Fs
