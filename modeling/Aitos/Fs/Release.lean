import Aitos.Fs.Append
import Aitos.Fs.Search

/-!
# Releasing an inode

`inode_release` collects the blocks of an inode from two levels of pointers and gives them back one
by one, each with a write of its sector of the block bitmap.  What is freed is exactly what the
inode refers to, and only the sectors of the bitmaps and the slot of the inode are written.
-/

namespace Aitos.Fs

open Framework

/-- The bitmaps on the disk are those in memory. -/
structure BitmapsSynced (s : State) : Prop where
  block : ∀ i < 512 * s.part.sb.blockBitmapSects.toNat,
    s.disk (512 * s.part.sb.blockBitmapLba.toNat + i) = packByte s.blockBitmap i
  inode : ∀ i < 512, s.disk (512 * s.part.sb.inodeBitmapLba.toNat + i) = packByte s.inodeBitmap i

section Sync

variable {s s' : State} {idx i : Nat} {v : Bool}

private theorem packByte_congr {b b' : Nat → Bool} (h : ∀ k < 8, b (8 * i + k) = b' (8 * i + k)) :
    packByte b i = packByte b' i := by
  rw [packByte, packByte]
  congr 1
  apply List.foldl_ext
  intro n k hk
  rw [h k (List.mem_range.mp hk)]

private theorem packByte_update (b : Nat → Bool) (h : i ≠ idx / 8) :
    packByte (Function.update b idx v) i = packByte b i := by
  apply packByte_congr
  intro k hk
  exact Function.update_of_ne (by omega) _ _

private theorem toNat_blockBitmapLba (h : idx < s.blockBits) :
    (s.part.sb.blockBitmapLba + UInt32.ofNat (idx / 4096)).toNat =
      s.part.sb.blockBitmapLba.toNat + idx / 4096 := by
  have h₁ := s.part.layout.inodeBitmap
  have h₂ := s.part.layout.inodeTable
  have h₃ := s.part.layout.tableFits
  have h₄ := s.part.layout.small
  rw [State.blockBits] at h
  rw [UInt32.toNat_add, UInt32.toNat_ofNat', Nat.mod_eq_of_lt (show idx / 4096 < 2 ^ 32 by omega),
    Nat.mod_eq_of_lt (by omega)]

private theorem syncBlockBit_disk_eq (h : idx < s.blockBits) :
    (s.syncBlockBit idx).disk = s.disk.blit (512 * (s.part.sb.blockBitmapLba.toNat + idx / 4096)) 512
      fun i => packByte s.blockBitmap (512 * (idx / 4096) + i) := by
  rw [← toNat_blockBitmapLba h]
  rfl

theorem syncBlockBit_disk_of_outside (h : idx < s.blockBits) {a : Nat}
    (ha : a < 512 * (s.part.sb.blockBitmapLba.toNat + idx / 4096) ∨
      512 * (s.part.sb.blockBitmapLba.toNat + idx / 4096) + 512 ≤ a) :
    (s.syncBlockBit idx).disk a = s.disk a := by
  rw [syncBlockBit_disk_eq h]
  exact Bytes.blit_of_outside _ _ _ _ ha

private theorem syncBlockBit_disk_of_inside (h : idx < s.blockBits) (hi : i / 512 = idx / 4096) :
    (s.syncBlockBit idx).disk (512 * s.part.sb.blockBitmapLba.toNat + i) =
      packByte s.blockBitmap i := by
  rw [syncBlockBit_disk_eq h, Bytes.blit_of_lt _ _ _ _ (by omega) (by omega)]
  congr 1
  omega

end Sync

/-- The state with the disk and the bitmaps of another one. -/
@[simps -fullyApplied]
def State.withMaps (s t : State) : State :=
  { s with disk := t.disk, blockBitmap := t.blockBitmap, inodeBitmap := t.inodeBitmap }

/-- From `s` to `s'` the bits in `freed` were cleared in the block bitmap, and the sectors they lie
in were written. -/
structure Freed (freed : Nat → Prop) (s s' : State) : Prop where
  rest : s' = s.withMaps s'
  inodeBitmap : s'.inodeBitmap = s.inodeBitmap
  bits : ∀ i, s'.blockBitmap i = true ↔ s.blockBitmap i = true ∧ ¬ freed i
  disk : ∀ a, (∀ i, freed i → a < 512 * (s.part.sb.blockBitmapLba.toNat + i / 4096) ∨
    512 * (s.part.sb.blockBitmapLba.toNat + i / 4096) + 512 ≤ a) → s'.disk a = s.disk a
  synced : BitmapsSynced s → BitmapsSynced s'

section Freed

variable {s s₁ s' : State} {lba : UInt32} {freed freed' : Nat → Prop}

theorem Freed.part (h : Freed freed s s') : s'.part = s.part := by
  rw [h.rest]
  rfl

theorem Freed.blockIdx (h : Freed freed s s') (lba : UInt32) :
    s'.blockIdx lba = s.blockIdx lba := by
  rw [State.blockIdx, State.blockIdx, h.part]

theorem Freed.blockBits (h : Freed freed s s') : s'.blockBits = s.blockBits := by
  rw [State.blockBits, State.blockBits, h.part]

private theorem freed_none (s : State) (h : ∀ i, ¬ freed i) : Freed freed s s :=
  ⟨rfl, rfl, fun i => (and_iff_left (h i)).symm, fun _ _ => rfl, id⟩

theorem Freed.congr (h : Freed freed s s') (heq : ∀ i, freed' i ↔ freed i) : Freed freed' s s' :=
  ⟨h.rest, h.inodeBitmap, fun i => by rw [h.bits, heq],
    fun a ha => h.disk a fun i hi => ha i ((heq i).mpr hi), h.synced⟩

theorem Freed.trans (h : Freed freed s s₁) (h' : Freed freed' s₁ s') :
    Freed (fun i => freed i ∨ freed' i) s s' where
  rest := by
    rw [h'.rest, h.rest]
    rfl
  inodeBitmap := h'.inodeBitmap.trans h.inodeBitmap
  bits := by
    intro i
    rw [h'.bits, h.bits, not_or, and_assoc]
  disk := by
    intro a ha
    rw [h'.disk a, h.disk a]
    · exact fun i hi => ha i (.inl hi)
    · intro i hi
      rw [h.part]
      exact ha i (.inr hi)
  synced := fun hs => h'.synced (h.synced hs)

private theorem freed_giveBack (h : s.blockIdx lba < s.blockBits) :
    Freed (fun i => i = s.blockIdx lba) s (s.giveBack lba) := by
  have hin : s.blockIdx lba < (s.setBlockBit (s.blockIdx lba) false).blockBits := h
  have hafter := s.part.layout.inodeBitmap
  have hbits := h
  rw [State.blockBits] at hbits
  refine ⟨rfl, rfl, ?_, ?_, ?_⟩
  · intro i
    change Function.update s.blockBitmap (s.blockIdx lba) false i = true ↔ _
    by_cases hi : i = s.blockIdx lba
    · rw [hi, Function.update_self]
      simp
    · rw [Function.update_of_ne hi]
      exact (and_iff_left hi).symm
  · intro a ha
    exact syncBlockBit_disk_of_outside hin (ha _ rfl)
  · intro hs
    refine ⟨?_, ?_⟩
    · intro i hi
      change i < 512 * s.part.sb.blockBitmapSects.toNat at hi
      change _ = packByte (Function.update s.blockBitmap (s.blockIdx lba) false) i
      by_cases hsec : i / 512 = s.blockIdx lba / 4096
      · exact syncBlockBit_disk_of_inside hin hsec
      · rw [packByte_update _ (by omega), ← hs.block i hi]
        exact syncBlockBit_disk_of_outside hin (by
          change 512 * s.part.sb.blockBitmapLba.toNat + i <
              512 * (s.part.sb.blockBitmapLba.toNat + _) ∨
            512 * (s.part.sb.blockBitmapLba.toNat + _) + 512 ≤
              512 * s.part.sb.blockBitmapLba.toNat + i
          omega)
    · intro i hi
      refine Eq.trans ?_ (hs.inode i hi)
      exact syncBlockBit_disk_of_outside hin (by
        change 512 * s.part.sb.inodeBitmapLba.toNat + i <
            512 * (s.part.sb.blockBitmapLba.toNat + _) ∨
          512 * (s.part.sb.blockBitmapLba.toNat + _) + 512 ≤
            512 * s.part.sb.inodeBitmapLba.toNat + i
        omega)

private theorem releaseBlocks_freed {blocks : Nat → UInt32} (n : Nat) : ∀ {s : State} {i : Nat},
    (∀ k, i ≤ k → k < i + n → blocks k ≠ 0 →
      0 < s.blockIdx (blocks k) ∧ s.blockIdx (blocks k) < s.blockBits) →
    ∃ s', releaseBlocks blocks i n s = .ok ((), s') ∧
      Freed (fun x => ∃ k, i ≤ k ∧ k < i + n ∧ blocks k ≠ 0 ∧ x = s.blockIdx (blocks k)) s s' := by
  induction n with
  | zero =>
      intro s i _
      exact ⟨s, rfl, freed_none s fun x ⟨k, hk, hk', _⟩ => by omega⟩
  | succ n ih =>
      intro s i h
      by_cases hblock : blocks i = 0
      · obtain ⟨s', hrun, hfreed⟩ := ih (s := s) (i := i + 1) fun k hk hk' => h k (by omega) (by omega)
        refine ⟨s', ?_, hfreed.congr ?_⟩
        · rw [releaseBlocks, if_neg (not_not.mpr hblock)]
          exact hrun
        · intro x
          constructor
          · rintro ⟨k, hk, hk', hne, hx⟩
            have hki : k ≠ i := by
              rintro rfl
              exact hne hblock
            exact ⟨k, by omega, by omega, hne, hx⟩
          · rintro ⟨k, hk, hk', hne, hx⟩
            exact ⟨k, by omega, by omega, hne, hx⟩
      · obtain ⟨hpos, hin⟩ := h i le_rfl (by omega) hblock
        have hone := freed_giveBack hin
        obtain ⟨s', hrun, hfreed⟩ := ih (s := s.giveBack (blocks i)) (i := i + 1) (by
          intro k hk hk' hne
          rw [hone.blockIdx, hone.blockBits]
          exact h k (by omega) (by omega) hne)
        have hassert : assert (0 < s.blockIdx (blocks i)) s = .ok ((), s) :=
          assert_ok.mpr ⟨rfl, .inr hpos⟩
        refine ⟨s', ?_, (hone.trans hfreed).congr ?_⟩
        · rw [releaseBlocks, if_pos hblock, Code.get_bind, Code.bind_of_ok hassert,
            Code.bind_of_ok (releaseBlock_eq hin)]
          exact hrun
        · intro x
          constructor
          · rintro ⟨k, hk, hk', hne, hx⟩
            by_cases hki : k = i
            · exact .inl (hki ▸ hx)
            · refine .inr ⟨k, by omega, by omega, hne, ?_⟩
              rw [hone.blockIdx]
              exact hx
          · rintro (hx | ⟨k, hk, hk', hne, hx⟩)
            · exact ⟨i, le_rfl, by omega, hblock, hx⟩
            · rw [hone.blockIdx] at hx
              exact ⟨k, by omega, by omega, hne, hx⟩

/-- The bits of what the inode refers to: its blocks and the indirect table. -/
def Inode.Refers (ino : Inode) (s : State) (x : Nat) : Prop :=
  ∃ k ≤ 140, ino.refs s.disk k ≠ 0 ∧ x = s.blockIdx (ino.refs s.disk k)

private theorem releaseAll_freed {ino : Inode} (howns : OwnsBlocks s ino)
    (hpos : ∀ k < 140, ino.allBlocks s.disk k ≠ 0 → 0 < s.blockIdx (ino.allBlocks s.disk k)) :
    ∃ s', ino.releaseAll s = .ok ((), s') ∧ Freed (ino.Refers s) s s' := by
  have hblocks : ∀ k < 140, ino.allBlocks s.disk k ≠ 0 →
      0 < s.blockIdx (ino.allBlocks s.disk k) ∧ s.blockIdx (ino.allBlocks s.disk k) < s.blockBits :=
    fun k hk hne => ⟨hpos k hk hne, (howns.block hk hne).inMap⟩
  rw [Inode.releaseAll, Code.get_bind]
  by_cases htable : ino.iSectors 12 = 0
  · -- without a table there is nothing from the thirteenth entry on
    obtain ⟨s', hrun, hfreed⟩ := @releaseBlocks_freed (ino.allBlocks s.disk) 12 s 0
      fun k _ hk hne => hblocks k (by omega) hne
    refine ⟨s', ?_, hfreed.congr ?_⟩
    · rw [if_neg (not_not.mpr htable)]
      exact hrun
    · intro x
      constructor
      · rintro ⟨k, hk, hne, hx⟩
        have hlt : k < 12 := by
          by_contra hge
          apply hne
          by_cases hk140 : k = 140
          · rw [hk140, refs_table, htable]
          · rw [refs_block _ _ (by omega), Inode.allBlocks, if_neg hge, if_neg (fun h => h.2 htable)]
        rw [refs_block _ _ (by omega)] at hne hx
        exact ⟨k, by omega, by omega, hne, hx⟩
      · rintro ⟨k, -, hk, hne, hx⟩
        refine ⟨k, by omega, ?_⟩
        rw [refs_block _ _ (by omega)]
        exact ⟨hne, hx⟩
  · have hone := freed_giveBack (howns.table htable).inMap
    obtain ⟨s', hrun, hfreed⟩ := @releaseBlocks_freed (ino.allBlocks s.disk) 140
      (s.giveBack (ino.iSectors 12)) 0 (by
        intro k _ hk hne
        rw [hone.blockIdx, hone.blockBits]
        exact hblocks k (by omega) hne)
    refine ⟨s', ?_, (hone.trans hfreed).congr ?_⟩
    · rw [if_pos htable, Code.bind_of_ok (releaseBlock_eq (howns.table htable).inMap)]
      exact hrun
    · intro x
      constructor
      · rintro ⟨k, hk, hne, hx⟩
        by_cases hk140 : k = 140
        · rw [hk140, refs_table] at hx
          exact .inl hx
        · rw [refs_block _ _ (by omega)] at hne hx
          refine .inr ⟨k, by omega, by omega, hne, ?_⟩
          rw [hone.blockIdx]
          exact hx
      · rintro (hx | ⟨k, -, hk, hne, hx⟩)
        · refine ⟨140, le_rfl, ?_⟩
          rw [refs_table]
          exact ⟨htable, hx⟩
        · rw [hone.blockIdx] at hx
          refine ⟨k, by omega, ?_⟩
          rw [refs_block _ _ (by omega)]
          exact ⟨hne, hx⟩

end Freed

/-- No two files or directories have a sector in common, and the first sector of the data area is
the root directory's. -/
structure BlockOwnership (s : State) : Prop extends DisjointBlocks s where
  root : s.InUse 0
  rootBlock : (s.inodeOf 0).iSectors 0 = s.part.sb.dataStartLba

/-- What `inode_release` does: the blocks of inode `n` and its number are free, its slot is zero,
and only the sectors of the bitmaps were written besides. -/
structure Released (n : UInt32) (s s' : State) : Prop where
  blockBitmap : ∀ i, s'.blockBitmap i = true ↔
    s.blockBitmap i = true ∧ ¬ (s.inodeOf n).Refers s i
  inodeBitmap : s'.inodeBitmap = Function.update s.inodeBitmap n.toNat false
  synced : BitmapsSynced s → BitmapsSynced s'
  slot : ∀ i < 76, s'.slot n.toNat i = 0
  slots : ∀ m < 4096, m ≠ n.toNat → ∀ i < 76, s'.slot m i = s.slot m i
  disk : ∀ a, (a < slotAddr s.part n.toNat ∨ slotAddr s.part n.toNat + 76 ≤ a) →
    (a < 512 * s.part.sb.inodeBitmapLba.toNat ∨
      512 * s.part.sb.inodeBitmapLba.toNat + 512 ≤ a) →
    (∀ i, (s.inodeOf n).Refers s i → a < 512 * (s.part.sb.blockBitmapLba.toNat + i / 4096) ∨
      512 * (s.part.sb.blockBitmapLba.toNat + i / 4096) + 512 ≤ a) → s'.disk a = s.disk a
  rest : Restored (s.withMaps s') s'

section Release

variable {s s₁ s₂ s' : State} {n : UInt32} {p : Ptr}

/-- The sector of the inode bitmap goes to the disk. -/
def State.syncInodeBit (s : State) (idx : Nat) : State :=
  s.writeSectors (s.part.sb.inodeBitmapLba + UInt32.ofNat (idx / 4096))
    (fun i => packByte s.inodeBitmap (512 * (idx / 4096) + i)) 1

/-- The last steps before the reference is given back. -/
def State.dropInode (s : State) (n : UInt32) : State :=
  ((s.setInodeBit n.toNat false).syncInodeBit n.toNat).setSlot n.toNat Bytes.zero

private theorem syncInodeBit_disk (hn : n.toNat < 4096) : (s.syncInodeBit n.toNat).disk =
    s.disk.blit (512 * s.part.sb.inodeBitmapLba.toNat) 512 fun i => packByte s.inodeBitmap i := by
  have hzero : n.toNat / 4096 = 0 := by omega
  rw [State.syncInodeBit, hzero]
  simp [State.writeSectors]

private theorem dropInode_disk (hn : n.toNat < 4096) : (s.dropInode n).disk =
    (s.disk.blit (512 * s.part.sb.inodeBitmapLba.toNat) 512
      fun i => packByte (Function.update s.inodeBitmap n.toNat false) i).blit
        (slotAddr s.part n.toNat) 76 Bytes.zero := by
  rw [State.dropInode, State.setSlot_disk, syncInodeBit_disk hn]
  rfl

/-- The heaps after a block was taken and given back. -/
def State.borrowed (s : State) : Memory := (s.setMem s.malloc).free

private theorem inodeRelease_eq (hn : n.toNat < 4096) (hopen : inodeOpen n s = .ok (p, s₁))
    (hno : (s₁.inode p).iNo = n) (hall : (s₁.inode p).releaseAll s₁ = .ok ((), s₂)) :
    inodeRelease n s = if s₂.mem.serve s₂.mem.calls = true
      then inodeClose p ((s₂.dropInode n).setMem s₂.borrowed) else .error .nullDeref := by
  have hassert : assert ((s₁.inode p).iNo = n) s₁ = .ok ((), s₁) := assert_ok.mpr ⟨rfl, .inr hno⟩
  have hin : require (n.toNat < s₂.inodeBits) .outOfBounds s₂ = .ok ((), s₂) := by
    refine require_ok.mpr ⟨rfl, ?_⟩
    rw [State.inodeBits, s₂.part.layout.inodeBits]
    exact hn
  have hset : inodeBitmapSet n.toNat false s₂ = .ok ((), s₂.setInodeBit n.toNat false) := by
    rw [inodeBitmapSet, Code.get_bind, Code.bind_of_ok hin]
    rfl
  have hsync : bitmapSync n.toNat .inodeBitmap (s₂.setInodeBit n.toNat false) =
      .ok ((), (s₂.setInodeBit n.toNat false).syncInodeBit n.toNat) := rfl
  have hmalloc : sysMalloc ((s₂.setInodeBit n.toNat false).syncInodeBit n.toNat) =
      .ok (s₂.mem.serve s₂.mem.calls,
        ((s₂.setInodeBit n.toNat false).syncInodeBit n.toNat).setMem s₂.malloc) := rfl
  rw [inodeRelease, Code.bind_of_ok hopen, Code.get_bind, Code.bind_of_ok hassert,
    Code.bind_of_ok hall, Code.bind_of_ok hset, Code.bind_of_ok hsync, Code.bind_of_ok hmalloc]
  split
  · rename_i hserve
    have hgot : require (s₂.mem.serve s₂.mem.calls = true) .nullDeref
        (((s₂.setInodeBit n.toNat false).syncInodeBit n.toNat).setMem s₂.malloc) =
          .ok ((), _) := require_ok.mpr ⟨rfl, hserve⟩
    rw [Code.bind_of_ok hgot, Code.bind_of_ok (inodeDelete_eq _ hn)]
    rfl
  · rename_i hserve
    rw [require, if_neg hserve]
    rfl

private theorem inodeOpen_inodeOf (hn : n.toNat < 4096) (h : inodeOpen n s = .ok (p, s₁)) :
    (s₁.inode p).iNo = (s.inodeOf n).iNo ∧ (s₁.inode p).iSectors = (s.inodeOf n).iSectors := by
  rw [State.inodeOf]
  rcases (inodeOpen_ok hn).mp h with ⟨hfind, rfl⟩ | ⟨hfind, rfl, rfl, -⟩
  · rw [hfind]
    simp [State.countUp]
  · rw [hfind]
    simp [State.load, Inode.opened]

theorem Referenced.withMaps (h : Referenced s s₁ p) (t : State) :
    Referenced (s.withMaps t) (s₁.withMaps t) p :=
  ⟨⟨h.ndebug, h.part, rfl, rfl, rfl, h.fileTable, h.cur, h.procs, h.fdTable, h.fdOrigin,
    h.cwdInodeNr, h.serve, h.nextInode, h.nextDir, h.dir⟩, h.others, h.held, h.here⟩

theorem Tidy.withMaps (h : Tidy s) (t : State) : Tidy (s.withMaps t) :=
  ⟨h.nodup, h.listed, h.rootDir⟩

/-- Only the root has the first sector of the data area. -/
theorem BlockOwnership.blockIdx_pos (h : BlockOwnership s) (hn : s.InUse n) (hroot : n ≠ 0)
    {k : Nat} (hk : k < 140) (hne : (s.inodeOf n).allBlocks s.disk k ≠ 0) :
    0 < s.blockIdx ((s.inodeOf n).allBlocks s.disk k) := by
  have hdata := ((h.owns n hn).block hk hne).data
  have hidx := toNat_blockIdx hdata
  by_contra hzero
  have heq : (s.inodeOf n).allBlocks s.disk k = s.part.sb.dataStartLba := by
    apply UInt32.toNat_inj.mp
    omega
  have hapart := h.disjoint n 0 hn h.root hroot k (by omega) 0 (by omega)
  rw [refs_block _ _ hk, refs_block _ _ (by omega), heq, allBlocks_direct _ _ (by omega),
    h.rootBlock] at hapart
  rw [heq] at hne
  exact hapart hne rfl

private theorem dropInode_disk_of_outside (hn : n.toNat < 4096) {a : Nat}
    (hslot : a < slotAddr s.part n.toNat ∨ slotAddr s.part n.toNat + 76 ≤ a)
    (hmap : a < 512 * s.part.sb.inodeBitmapLba.toNat ∨
      512 * s.part.sb.inodeBitmapLba.toNat + 512 ≤ a) : (s.dropInode n).disk a = s.disk a := by
  rw [dropInode_disk hn, Bytes.blit_of_outside _ _ _ _ hslot, Bytes.blit_of_outside _ _ _ _ hmap]

private theorem dropInode_synced (hn : n.toNat < 4096) (h : BitmapsSynced s) :
    BitmapsSynced (s.dropInode n) := by
  have h₁ := s.part.layout.inodeBitmap
  have h₂ := s.part.layout.inodeTable
  refine ⟨?_, ?_⟩
  · intro i hi
    change i < 512 * s.part.sb.blockBitmapSects.toNat at hi
    refine (dropInode_disk_of_outside hn (.inl ?_) (.inl ?_)).trans (h.block i hi)
    · rw [slotAddr]
      change 512 * s.part.sb.blockBitmapLba.toNat + i < _
      omega
    · change 512 * s.part.sb.blockBitmapLba.toNat + i < _
      omega
  · intro i hi
    change (s.dropInode n).disk (512 * s.part.sb.inodeBitmapLba.toNat + i) = _
    rw [dropInode_disk hn, Bytes.blit_of_outside, Bytes.blit_add _ _ _ _ hi]
    · rfl
    · left
      rw [slotAddr]
      omega

private theorem inodeClose_dropped (ht : Tidy s) (href : Referenced s s₁ p) {freed : Nat → Prop}
    (hfreed : Freed freed s₁ s₂)
    (hclose : inodeClose p ((s₂.dropInode n).setMem s₂.borrowed) = .ok ((), s')) :
    Restored (s.withMaps (s₂.dropInode n)) s' := by
  have hserve : s₂.borrowed.serve = s₁.mem.serve := by
    rw [hfreed.rest]
    rfl
  have hrest : (s₂.dropInode n).setMem s₂.borrowed =
      (s₁.withMaps (s₂.dropInode n)).setMem s₂.borrowed := by
    rw [hfreed.rest]
    rfl
  refine inodeClose_restored (ht.withMaps _) ((href.withMaps (s₂.dropInode n)).restored ?_) hclose
  rw [hrest]
  exact Restored.setMem _ hserve

theorem BitmapsSynced.congr (h : BitmapsSynced s) (hpart : s'.part = s.part)
    (hdisk : s'.disk = s.disk) (hblock : s'.blockBitmap = s.blockBitmap)
    (hinode : s'.inodeBitmap = s.inodeBitmap) : BitmapsSynced s' := by
  refine ⟨?_, ?_⟩
  · rw [hpart, hdisk, hblock]
    exact h.block
  · rw [hpart, hdisk, hinode]
    exact h.inode

private theorem released_of_freed (ht : Tidy s) (hlt : n.toNat < 4096) (href : Referenced s s₁ p)
    (hin : ∀ x, (s.inodeOf n).Refers s x → x < s.blockBits)
    (hfreed : Freed ((s.inodeOf n).Refers s) s₁ s₂)
    (hclose : inodeClose p ((s₂.dropInode n).setMem s₂.borrowed) = .ok ((), s')) :
    Released n s s' := by
  have hback := inodeClose_dropped ht href hfreed hclose
  have hpart : s₂.part = s.part := hfreed.part.trans href.part
  have hdisk : s'.disk = (s₂.dropInode n).disk := hback.disk
  have hblock : s'.blockBitmap = s₂.blockBitmap := hback.blockBitmap
  have hinode : s'.inodeBitmap = Function.update s₂.inodeBitmap n.toNat false := hback.inodeBitmap
  have hpart' : s'.part = s.part := hback.part
  have h₁ := s.part.layout.inodeBitmap
  have h₂ := s.part.layout.inodeTable
  have hout : ∀ a, (a < slotAddr s.part n.toNat ∨ slotAddr s.part n.toNat + 76 ≤ a) →
      (a < 512 * s.part.sb.inodeBitmapLba.toNat ∨
        512 * s.part.sb.inodeBitmapLba.toNat + 512 ≤ a) →
      (∀ i, (s.inodeOf n).Refers s i → a < 512 * (s.part.sb.blockBitmapLba.toNat + i / 4096) ∨
        512 * (s.part.sb.blockBitmapLba.toNat + i / 4096) + 512 ≤ a) → s'.disk a = s.disk a := by
    intro a hslot hmap hbits
    rw [hdisk, dropInode_disk_of_outside hlt (by rw [hpart]; exact hslot)
      (by rw [hpart]; exact hmap), hfreed.disk, href.disk]
    rw [href.part]
    exact hbits
  refine ⟨?_, ?_, ?_, ?_, ?_, hout, ?_⟩
  · intro i
    rw [hblock, hfreed.bits, href.blockBitmap]
  · rw [hinode, hfreed.inodeBitmap, href.inodeBitmap]
  · intro hsync
    have hsync₁ := hsync.congr href.part href.disk href.blockBitmap href.inodeBitmap
    exact (dropInode_synced hlt (hfreed.synced hsync₁)).congr (hpart'.trans hpart.symm) hdisk hblock
      hback.inodeBitmap
  · intro i hi
    rw [State.slot, Bytes.drop, hdisk, hpart', dropInode_disk hlt, hpart, Bytes.blit_add _ _ _ _ hi]
    rfl
  · intro m hm hne i hi
    rw [State.slot, State.slot, Bytes.drop, Bytes.drop, hpart']
    apply hout
    · rw [slotAddr, slotAddr]
      omega
    · rw [slotAddr]
      omega
    · intro x hx
      have hlt := hin x hx
      rw [State.blockBits] at hlt
      rw [slotAddr]
      omega
  · have hmaps : s.withMaps s' = s.withMaps (s₂.dropInode n) := by
      rw [State.withMaps, State.withMaps, hdisk, hback.blockBitmap, hback.inodeBitmap]
      rfl
    rw [hmaps]
    exact hback

/-- `inode_release` of an open inode up to the point where its reference is given back. -/
private theorem inodeRelease_steps (hs : OwnsBlocks s (s.inodeOf n))
    (hpos : ∀ k < 140, (s.inodeOf n).allBlocks s.disk k ≠ 0 →
      0 < s.blockIdx ((s.inodeOf n).allBlocks s.disk k))
    (hn : n.toNat < 4096) (hno : (s.inodeOf n).iNo = n) (href : Referenced s s₁ p)
    (hopen : inodeOpen n s = .ok (p, s₁)) :
    ∃ s₂ : State, Freed ((s.inodeOf n).Refers s) s₁ s₂ ∧
      inodeRelease n s = if s₂.mem.serve s₂.mem.calls = true
        then inodeClose p ((s₂.dropInode n).setMem s₂.borrowed) else .error .nullDeref := by
  obtain ⟨hno₁, hsec⟩ := inodeOpen_inodeOf hn hopen
  have hblocks : ∀ i, (s₁.inode p).allBlocks s₁.disk i = (s.inodeOf n).allBlocks s.disk i :=
    allBlocks_congr (fun i _ => by rw [hsec]) fun _ => by rw [href.disk]
  have hrefs : ∀ i, (s₁.inode p).refs s₁.disk i = (s.inodeOf n).refs s.disk i :=
    refs_congr hblocks (by rw [hsec])
  have hidx : ∀ lba, s₁.blockIdx lba = s.blockIdx lba := by
    intro lba
    rw [State.blockIdx, State.blockIdx, href.part]
  have howns : OwnsBlocks s₁ (s₁.inode p) :=
    hs.congr href.part href.blockBitmap fun i _ => hrefs i
  obtain ⟨s₂, hall, hfreed⟩ := releaseAll_freed howns (by
    intro k hk hne
    rw [hblocks] at hne ⊢
    rw [hidx]
    exact hpos k hk hne)
  refine ⟨s₂, hfreed.congr ?_, inodeRelease_eq hn hopen (hno₁.trans hno) hall⟩
  intro x
  simp only [Inode.Refers, hrefs, hidx]

theorem inodeRelease_released (ht : Tidy s) (hs : OwnsBlocks s (s.inodeOf n))
    (hpos : ∀ k < 140, (s.inodeOf n).allBlocks s.disk k ≠ 0 →
      0 < s.blockIdx ((s.inodeOf n).allBlocks s.disk k))
    (hn : n.toNat < 4096) (hno : (s.inodeOf n).iNo = n) (h : inodeRelease n s = .ok ((), s')) :
    Released n s s' := by
  obtain ⟨p, s₁, hopen, -⟩ := Code.bind_ok.mp h
  have href := inodeOpen_referenced ht hopen
  obtain ⟨s₂, hfreed, hrun⟩ := inodeRelease_steps hs hpos hn hno href hopen
  rw [hrun] at h
  split at h
  · refine released_of_freed ht hn href ?_ hfreed h
    rintro x ⟨k, hk, hne, rfl⟩
    exact (hs.allocated k hk hne).inMap
  · cases h

private theorem inodeRelease_returns (ht : Tidy s) (hs : OwnsBlocks s (s.inodeOf n))
    (hpos : ∀ k < 140, (s.inodeOf n).allBlocks s.disk k ≠ 0 →
      0 < s.blockIdx ((s.inodeOf n).allBlocks s.disk k))
    (hn : n.toNat < 4096) (hno : (s.inodeOf n).iNo = n) (hmem : s.Served) :
    ∃ s', inodeRelease n s = .ok ((), s') := by
  obtain ⟨p, s₁, hopen, -⟩ := inodeOpen_returns hmem hn
  have href := inodeOpen_referenced ht hopen
  obtain ⟨s₂, hfreed, hrun⟩ := inodeRelease_steps hs hpos hn hno href hopen
  obtain ⟨s', hclose⟩ := inodeClose_returns p ((s₂.dropInode n).setMem s₂.borrowed)
  refine ⟨s', ?_⟩
  rw [hrun, if_pos, hclose]
  rw [hfreed.rest]
  exact hmem.framed href.toFramed _

/-- `inode_release` of an inode in use other than the root's: when it returns it has freed what the
inode refers to and nothing else, and it does return when the heap serves it. -/
theorem inode_release_frees (ht : Tidy s) (hs : BlockOwnership s) (hn : s.InUse n) (hroot : n ≠ 0)
    (hno : (s.inodeOf n).iNo = n) :
    (∀ s', inodeRelease n s = .ok ((), s') → Released n s s') ∧
      (s.Served → ∃ s', inodeRelease n s = .ok ((), s')) := by
  have howns := hs.owns n hn
  have hpos : ∀ k < 140, (s.inodeOf n).allBlocks s.disk k ≠ 0 →
      0 < s.blockIdx ((s.inodeOf n).allBlocks s.disk k) :=
    fun k hk hne => hs.blockIdx_pos hn hroot hk hne
  exact ⟨fun _ h => inodeRelease_released ht howns hpos hn.1 hno h,
    fun hmem => inodeRelease_returns ht howns hpos hn.1 hno hmem⟩

/-- The root directory with its first sector, and a file with a direct block, an indirect table and
one block in it. -/
def indirectState : State :=
  { State.fresh smallPartition (Bytes.zero.blit (512 * 615) 4 (Bytes.ofWord 616)) with
    blockBitmap := fun i => i < 4
    inodeBitmap := fun i => i < 2
    inode := fun p =>
      if p = 1 then ⟨0, 48, 1, false, Function.update (fun _ => 0) 0 613⟩
      else ⟨1, 6145, 1, false, Function.update (Function.update (fun _ => 0) 0 614) 12 615⟩
    openInode := [2, 1]
    nextInode := 3
    dir := fun _ => ⟨1, 0⟩ }

private theorem indirectState_inUse {n : UInt32} (h : indirectState.InUse n) : n = 0 ∨ n = 1 := by
  have hlt : n.toNat < 2 := of_decide_eq_true h.2
  rcases (show n.toNat = 0 ∨ n.toNat = 1 by omega) with hn | hn
  · exact .inl (UInt32.toNat_inj.mp hn)
  · exact .inr (UInt32.toNat_inj.mp hn)

private theorem indirectState_root : ∀ i ≤ 140,
    (indirectState.inodeOf 0).refs indirectState.disk i =
    if i = 0 then 613 else 0 := by decide +kernel

private theorem indirectState_file : ∀ i ≤ 140,
    (indirectState.inodeOf 1).refs indirectState.disk i =
    if i = 0 then 614 else if i = 12 then 616 else if i = 140 then 615 else 0 := by decide +kernel

private theorem indirectState_ownership : BlockOwnership indirectState where
  owns := by
    intro n hn
    rcases indirectState_inUse hn with rfl | rfl
    · refine ⟨?_, ?_⟩
      · intro i hi hne
        rw [indirectState_root i hi] at hne ⊢
        split at hne
        · rw [if_pos (by assumption)]
          exact ⟨by decide, by decide, by decide⟩
        · exact absurd rfl hne
      · intro i hi j hj hne heq
        rw [indirectState_root i hi] at hne heq
        rw [indirectState_root j hj] at heq
        split at hne
        · split at heq
          · split at heq
            · omega
            · exact absurd heq (by decide)
          · omega
        · exact absurd rfl hne
    · have hcases : ∀ i ≤ 140, (indirectState.inodeOf 1).refs indirectState.disk i ≠ 0 →
          i = 0 ∨ i = 12 ∨ i = 140 := by
        intro i hi hne
        rw [indirectState_file i hi] at hne
        by_contra hcon
        rw [if_neg (by omega), if_neg (by omega), if_neg (by omega)] at hne
        exact hne rfl
      refine ⟨?_, ?_⟩
      · intro i hi hne
        rcases hcases i hi hne with rfl | rfl | rfl
        · rw [indirectState_file _ hi]
          exact ⟨by decide, by decide, by decide⟩
        · rw [indirectState_file _ hi]
          exact ⟨by decide, by decide, by decide⟩
        · rw [indirectState_file _ hi]
          exact ⟨by decide, by decide, by decide⟩
      · intro i hi j hj hne heq
        have hne' := hne
        rw [heq] at hne'
        rw [indirectState_file i hi, indirectState_file j hj] at heq
        rcases hcases i hi hne with rfl | rfl | rfl <;> rcases hcases j hj hne' with rfl | rfl | rfl <;>
          first | rfl | exact absurd heq (by decide)
  disjoint := by
    have hroot : ∀ i ≤ 140, (indirectState.inodeOf 0).refs indirectState.disk i = 613 ∨
        (indirectState.inodeOf 0).refs indirectState.disk i = 0 := by
      intro i hi
      rw [indirectState_root i hi]
      split
      · exact .inl rfl
      · exact .inr rfl
    have hfile : ∀ i ≤ 140, (indirectState.inodeOf 1).refs indirectState.disk i ≠ 613 := by
      intro i hi
      rw [indirectState_file i hi]
      split
      · decide
      · split
        · decide
        · split <;> decide
    intro m n hm hn hne i hi j hj href
    rcases indirectState_inUse hm with rfl | rfl <;> rcases indirectState_inUse hn with rfl | rfl
    · exact absurd rfl hne
    · rcases hroot i hi with h | h
      · rw [h]
        exact (hfile j hj).symm
      · exact absurd h href
    · rcases hroot j hj with h | h
      · rw [h]
        exact hfile i hi
      · rw [h]
        exact href
    · exact absurd rfl hne
  root := ⟨by decide, by decide⟩
  rootBlock := by decide

theorem inode_release_frees_file : ∃ s', inodeRelease 1 indirectState = .ok ((), s') ∧
    Released 1 indirectState s' := by
  have h := inode_release_frees (n := 1) (by decide) indirectState_ownership ⟨by decide, by decide⟩
    (by decide) (by decide)
  obtain ⟨s', hs'⟩ := h.2 fun _ => rfl
  exact ⟨s', hs', h.1 s' hs'⟩

end Release

end Aitos.Fs
