import Aitos.Fs.Descriptors
import Aitos.Fs.Read

/-!
# Moving through an open file

Reading and seeking move the position of a slot of `file_table`; writing moves the end of the file
and the position along with it.  All of it is arithmetic on 32-bit words.
-/

namespace Aitos.Fs

open Framework

/-- No open file is positioned behind its end. -/
def State.InFile (s : State) : Prop :=
  ∀ i p, (s.fileTable i).fdInode = some p → (s.fileTable i).fdPos ≤ (s.inode p).iSize

/-- The open file behind a descriptor of the running process, with its inode. -/
def State.fileOf (s : State) (fd : Int) : Option (File × Inode) := do
  let i ← s.fdTable s.cur fd.toNat
  let p ← (s.fileTable i).fdInode
  return (s.fileTable i, s.inode p)

/-- Nothing is written to an empty file. -/
def State.EmptyWrite (s : State) (fd : Int) (count : UInt32) : Prop :=
  ∃ f ino, s.fileOf fd = some (f, ino) ∧ writing f.fdFlag = true ∧ ino.iSize = 0 ∧ count = 0 ∧
    s.mem.serve s.mem.calls = true ∧ s.mem.serve (s.mem.calls + 1) = true

/-- The file is positioned one byte behind its end. -/
def State.PastEnd (s : State) (fd : Int) (offset : Int32) (whence : UInt8) : Prop :=
  ∃ f ino, s.fileOf fd = some (f, ino) ∧
    0 < seekTarget f.fdPos ino.iSize offset whence ∧
    seekTarget f.fdPos ino.iSize offset whence = ino.iSize.toInt32 + 1

section Loops

/-- What one turn of the loops of `file_read` and `file_write` takes: up to the end of a sector. -/
def chunkSize (pos left : UInt32) : UInt32 :=
  if left > 512 - pos % 512 then 512 - pos % 512 else left

private theorem chunkSize_bounds (pos left : UInt32) (h : 0 < left.toNat) :
    0 < (chunkSize pos left).toNat ∧ (chunkSize pos left).toNat ≤ 512 ∧
      (chunkSize pos left).toNat ≤ left.toNat := by
  have hmod : (pos % 512).toNat < 512 := by
    rw [UInt32.toNat_mod]
    exact Nat.mod_lt _ (by decide)
  have hsub : (512 - pos % 512).toNat = 512 - (pos % 512).toNat :=
    UInt32.toNat_sub_of_le _ _ (UInt32.le_iff_toNat_le.mpr hmod.le)
  rw [chunkSize]
  split
  · rename_i hlt
    have hlt' := UInt32.lt_iff_toNat_lt.mp hlt
    omega
  · rename_i hle
    have hle' := UInt32.le_iff_toNat_le.mp (UInt32.not_lt.mp hle)
    omega

private theorem sector_bound {pos : UInt32} (h : (pos / 512).toNat < 140) : pos.toNat < 71680 := by
  rw [UInt32.toNat_div] at h
  change pos.toNat / 512 < 140 at h
  omega

theorem add_chunk {pos left : UInt32} (h : (pos / 512).toNat < 140) (hleft : 0 < left.toNat) :
    (pos + chunkSize pos left).toNat = pos.toNat + (chunkSize pos left).toNat := by
  have hpos := sector_bound h
  obtain ⟨-, hle, -⟩ := chunkSize_bounds pos left hleft
  rw [UInt32.toNat_add, Nat.mod_eq_of_lt (by omega)]

theorem toNat_sub_pos {a b : UInt32} (h : ¬ a ≤ b) :
    0 < (a - b).toNat ∧ (a - b).toNat = a.toNat - b.toNat := by
  have hlt := UInt32.lt_iff_toNat_lt.mp (UInt32.not_le.mp h)
  have hsub := UInt32.toNat_sub_of_le a b (UInt32.le_iff_toNat_le.mpr hlt.le)
  omega

private theorem readLoop_ok {fd : Nat} {blocks : Nat → UInt32} {size : UInt32} {s' : State}
    {r : UInt32 × List UInt8} (n : Nat) : ∀ {s : State} {stored : List UInt8} {b : UInt32},
      b ≤ size → readLoop fd blocks size n stored b s = .ok (r, s') →
      r.2.length = stored.length + (size.toNat - b.toNat) ∧
        ∃ pos, s' = s.setFile fd { s.fileTable fd with fdPos := pos } ∧
          pos.toNat = (s.fileTable fd).fdPos.toNat + (size.toNat - b.toNat) := by
  induction n with
  | zero =>
      intro s stored b _ h
      exact (fault_ok.mp h).elim
  | succ n ih =>
      intro s stored b hb h
      have hb' := UInt32.le_iff_toNat_le.mp hb
      rw [readLoop] at h
      split at h
      · rename_i hle
        have hle' := UInt32.le_iff_toNat_le.mp hle
        obtain ⟨rfl, rfl⟩ := Code.pure_ok.mp h
        refine ⟨by simp; omega, (s'.fileTable fd).fdPos, ?_, by omega⟩
        simp [State.setFile]
      · rename_i hlt
        obtain ⟨hpos, hsub⟩ := toNat_sub_pos hlt
        simp only [Code.get_bind, Code.bind_ok, require_ok, ideRead_ok, Code.modify_bind] at h
        obtain ⟨_, s₁, ⟨rfl, hsec⟩, buf, s, ⟨-, rfl⟩, h⟩ := h
        have hadd := add_chunk hsec hpos
        obtain ⟨hc, -, hcle⟩ := chunkSize_bounds (s.fileTable fd).fdPos (size - b) hpos
        rw [← chunkSize] at h
        have hb₁ : (b + chunkSize (s.fileTable fd).fdPos (size - b)).toNat =
            b.toNat + (chunkSize (s.fileTable fd).fdPos (size - b)).toNat := by
          have hsize := size.toNat_lt
          rw [UInt32.toNat_add, Nat.mod_eq_of_lt (by omega)]
        have hle : b + chunkSize (s.fileTable fd).fdPos (size - b) ≤ size :=
          UInt32.le_iff_toNat_le.mpr (by omega)
        obtain ⟨hlen, pos, hs', hpos'⟩ := ih hle h
        refine ⟨?_, pos, ?_, ?_⟩
        · rw [hlen, List.length_append, takeBytes, List.length_map, List.length_range]
          omega
        · rw [hs']
          simp [State.setFile]
        · rw [hpos', State.setFile_fileTable, Function.update_self]
          dsimp only
          omega

end Loops

section Moves

variable {s s₁ s' : State} {i : Nat}

/-- The tables, the list `open_inode` and all sizes are as before. -/
structure Unmoved (s s' : State) : Prop where
  fileTable : s'.fileTable = s.fileTable
  openInode : s'.openInode = s.openInode
  nextInode : s'.nextInode = s.nextInode
  size : ∀ p, (s'.inode p).iSize = (s.inode p).iSize

instance : IsPreorder State Unmoved where
  refl _ := ⟨rfl, rfl, rfl, fun _ => rfl⟩
  trans _ _ _ h h' := ⟨h'.fileTable.trans h.fileTable, h'.openInode.trans h.openInode,
    h'.nextInode.trans h.nextInode, fun p => (h'.size p).trans (h.size p)⟩

theorem stable_unmoved : Stable Unmoved where
  mem _ _ _ := ⟨rfl, rfl, rfl, fun _ => rfl⟩
  disk _ _ _ _ := ⟨rfl, rfl, rfl, fun _ => rfl⟩
  blockBit _ _ _ := ⟨rfl, rfl, rfl, fun _ => rfl⟩
  inodeBit _ _ _ := ⟨rfl, rfl, rfl, fun _ => rfl⟩
  sector s p _ _ := by
    refine ⟨rfl, rfl, rfl, fun q => ?_⟩
    by_cases hq : q = p
    · subst hq
      simp [State.setSector]
    · simp [State.setSector, hq]

/-- Sizes may grow, and slot `i` may be positioned anew, in its file. -/
structure Positioned (i : Nat) (s s' : State) : Prop where
  openInode : s'.openInode = s.openInode
  nextInode : s'.nextInode = s.nextInode
  size : ∀ p, (s.inode p).iSize ≤ (s'.inode p).iSize
  others : ∀ j, j ≠ i → s'.fileTable j = s.fileTable j
  fdInode : (s'.fileTable i).fdInode = (s.fileTable i).fdInode
  here : ∀ p, (s.fileTable i).fdInode = some p → (s'.fileTable i).fdPos ≤ (s'.inode p).iSize

theorem Unmoved.positioned (h : Unmoved s s') (hs : s.InFile) (i : Nat) : Positioned i s s' where
  openInode := h.openInode
  nextInode := h.nextInode
  size p := by
    rw [h.size p]
    exact UInt32.le_refl _
  others j _ := by rw [h.fileTable]
  fdInode := by rw [h.fileTable]
  here p hp := by
    rw [h.fileTable, h.size p]
    exact hs i p hp

private theorem Positioned.of_unmoved (h : Unmoved s s₁) (h' : Positioned i s₁ s') :
    Positioned i s s' where
  openInode := h'.openInode.trans h.openInode
  nextInode := h'.nextInode.trans h.nextInode
  size p := (h.size p) ▸ h'.size p
  others j hj := (h'.others j hj).trans (by rw [h.fileTable])
  fdInode := h'.fdInode.trans (by rw [h.fileTable])
  here p hp := h'.here p (by rw [h.fileTable]; exact hp)

private theorem Positioned.unmoved (h : Positioned i s s₁) (h' : Unmoved s₁ s') :
    Positioned i s s' where
  openInode := h'.openInode.trans h.openInode
  nextInode := h'.nextInode.trans h.nextInode
  size p := (h'.size p).symm ▸ h.size p
  others j hj := by rw [h'.fileTable, h.others j hj]
  fdInode := by rw [h'.fileTable, h.fdInode]
  here p hp := by
    rw [h'.fileTable, h'.size p]
    exact h.here p hp

theorem State.InFile.positioned (hs : s.InFile) (h : Positioned i s s') : s'.InFile := by
  intro j p hp
  by_cases hj : j = i
  · subst hj
    rw [h.fdInode] at hp
    exact h.here p hp
  · rw [h.others j hj] at hp ⊢
    exact UInt32.le_trans (hs j p hp) (h.size p)

theorem GivenOut.positioned (hs : GivenOut s) (h : Positioned i s s') : GivenOut s' := by
  refine ⟨fun j p hp => ?_, fun p hp => ?_⟩
  · rw [h.nextInode]
    by_cases hj : j = i
    · subst hj
      rw [h.fdInode] at hp
      exact hs.slots j p hp
    · rw [h.others j hj] at hp
      exact hs.slots j p hp
  · rw [h.nextInode]
    rw [h.openInode] at hp
    exact hs.listed p hp

private theorem positioned_setFile {p : Ptr} {pos : UInt32} (hp : (s.fileTable i).fdInode = some p)
    (hpos : pos ≤ (s.inode p).iSize) :
    Positioned i s (s.setFile i { s.fileTable i with fdPos := pos }) where
  openInode := rfl
  nextInode := rfl
  size _ := UInt32.le_refl _
  others j hj := by simp [hj]
  fdInode := by simp
  here q hq := by
    obtain rfl : p = q := Option.some.inj (hp.symm.trans hq)
    simpa using hpos

theorem readBlocks_same (ino : Inode) (disk : Bytes) (start stop : Nat) :
    Keeps Eq (readBlocks ino disk start stop) := by
  rw [readBlocks]
  split
  · exact Keeps.ite Keeps.pure Keeps.pure
  · exact Keeps.ite Keeps.pure
      ((keeps_assert _).bind fun _ => Keeps.ite Keeps.pure Keeps.pure)

private theorem readSize_cases {p : Ptr} {size : UInt32} {r : Option UInt32 × List UInt8}
    (h : readSize i p size s = .ok (r, s')) :
    (r.2 = [] ∧ Unmoved s s') ∨
    (r.2.length = size.toNat ∧ ∃ s₁ pos, Unmoved s s₁ ∧
      pos.toNat = (s.fileTable i).fdPos.toNat + size.toNat ∧
      Unmoved (s₁.setFile i { s₁.fileTable i with fdPos := pos }) s') := by
  rw [readSize] at h
  obtain ⟨ok, s₁, h₁, h⟩ := Code.bind_ok.mp h
  have hu₁ : Unmoved s s₁ := stable_unmoved.sysMalloc _ _ _ h₁
  split at h
  · obtain ⟨rfl, rfl⟩ := Code.pure_ok.mp h
    exact .inl ⟨rfl, hu₁⟩
  obtain ⟨ok', s₂, h₂, h⟩ := Code.bind_ok.mp h
  have hu₂ : Unmoved s s₂ := trans_of Unmoved hu₁ (stable_unmoved.sysMalloc _ _ _ h₂)
  split at h
  · obtain ⟨rfl, rfl⟩ := Code.pure_ok.mp h
    exact .inl ⟨rfl, hu₂⟩
  simp only [Code.get_bind, Code.bind_ok, assert_ok, Code.pure_ok] at h
  obtain ⟨_, s₃, ⟨rfl, -⟩, blocks, s₄, h₄, ⟨b, stored⟩, s₅, h₅, _, s₆, h₆, _, s₇, h₇, rfl, rfl⟩ := h
  obtain rfl := readBlocks_same _ _ _ _ _ _ _ h₄
  obtain ⟨hlen, pos, rfl, hpos⟩ := readLoop_ok 142 (UInt32.zero_le) h₅
  have hfree : Unmoved (s₃.setFile i { s₃.fileTable i with fdPos := pos }) s' :=
    trans_of Unmoved (stable_unmoved.sysFree _ _ _ h₆) (stable_unmoved.sysFree _ _ _ h₇)
  have hzero : (0 : UInt32).toNat = 0 := rfl
  rw [hu₂.fileTable, hzero, Nat.sub_zero] at hpos
  rw [hzero, Nat.sub_zero, List.length_nil, Nat.zero_add] at hlen
  exact .inr ⟨hlen, s₃, pos, hu₂, hpos, hfree⟩

private theorem readSize_ok {p : Ptr} {size : UInt32} {r : Option UInt32 × List UInt8}
    (hp : (s.fileTable i).fdInode = some p) (hin : s.InFile)
    (hsize : (s.fileTable i).fdPos.toNat + size.toNat < 2 ^ 32 →
      (s.fileTable i).fdPos.toNat + size.toNat ≤ (s.inode p).iSize.toNat)
    (h : readSize i p size s = .ok (r, s')) : Positioned i s s' := by
  rcases readSize_cases h with ⟨-, hu⟩ | ⟨-, s₁, pos, hu, hpos, hfree⟩
  · exact hu.positioned hin i
  · have hmove : Positioned i s₁ (s₁.setFile i { s₁.fileTable i with fdPos := pos }) := by
      apply positioned_setFile (p := p)
      · rw [hu.fileTable]
        exact hp
      · rw [hu.size p, UInt32.le_iff_toNat_le]
        have hlt := pos.toNat_lt
        rw [hpos] at hlt ⊢
        exact hsize hlt
    exact (hmove.of_unmoved hu).unmoved hfree

/-- Wherever the file is positioned, no more is read than asked for: behind the end the size wraps
around, and no position is that far on. -/
private theorem fileRead_length {count : UInt32} {r : Option UInt32 × List UInt8}
    (h : fileRead i count s = .ok (r, s')) : r.2.length ≤ count.toNat := by
  rw [fileRead, Code.get_bind] at h
  cases hp : (s.fileTable i).fdInode with
  | none =>
      rw [hp] at h
      exact (fault_ok.mp h).elim
  | some p =>
      rw [hp] at h
      dsimp only at h
      split at h
      · rename_i hgt
        have hgt' := UInt32.lt_iff_toNat_lt.mp hgt
        have hsum := UInt32.toNat_add (s.fileTable i).fdPos count
        have hsub := UInt32.toNat_sub (s.inode p).iSize (s.fileTable i).fdPos
        have hsize := (s.inode p).iSize.toNat_lt
        have hfd := (s.fileTable i).fdPos.toNat_lt
        split at h
        · obtain ⟨rfl, rfl⟩ := Code.pure_ok.mp h
          exact Nat.zero_le _
        · rcases readSize_cases h with ⟨hnil, -⟩ | ⟨hlen, s₁, pos, -, hpos, -⟩
          · rw [hnil]
            exact Nat.zero_le _
          · have hlt := pos.toNat_lt
            rw [hlen]
            omega
      · rcases readSize_cases h with ⟨hnil, -⟩ | ⟨hlen, -⟩
        · rw [hnil]
          exact Nat.zero_le _
        · exact hlen.le

theorem sysRead_length {fd : Int} {hasBuf : Bool} {typed : Nat → UInt8} {count : UInt32}
    {r : Option UInt32 × List UInt8} (h : sysRead fd hasBuf typed count s = .ok (r, s')) :
    r.2.length ≤ count.toNat := by
  rw [sysRead] at h
  obtain ⟨_, s₀, -, hread⟩ := Code.bind_ok.mp h
  split at hread
  · obtain ⟨rfl, rfl⟩ := Code.pure_ok.mp hread
    exact Nat.zero_le _
  split at hread
  · obtain ⟨rfl, rfl⟩ := Code.pure_ok.mp hread
    simp
  obtain ⟨j, s₁, -, h₂⟩ := Code.bind_ok.mp hread
  exact fileRead_length h₂

private theorem fileRead_ok {count : UInt32} {r : Option UInt32 × List UInt8} (hin : s.InFile)
    (h : fileRead i count s = .ok (r, s')) :
    r.2.length ≤ count.toNat ∧ Positioned i s s' := by
  refine ⟨fileRead_length h, ?_⟩
  rw [fileRead, Code.get_bind] at h
  cases hp : (s.fileTable i).fdInode with
  | none =>
      rw [hp] at h
      exact (fault_ok.mp h).elim
  | some p =>
      rw [hp] at h
      dsimp only at h
      have hpos := UInt32.le_iff_toNat_le.mp (hin i p hp)
      have hleft : ((s.inode p).iSize - (s.fileTable i).fdPos).toNat =
          (s.inode p).iSize.toNat - (s.fileTable i).fdPos.toNat :=
        UInt32.toNat_sub_of_le _ _ (hin i p hp)
      have hsum := UInt32.toNat_add (s.fileTable i).fdPos count
      have hlt := (s.inode p).iSize.toNat_lt
      split at h
      · rename_i hgt
        have hgt' := UInt32.lt_iff_toNat_lt.mp hgt
        split at h
        · obtain ⟨rfl, rfl⟩ := Code.pure_ok.mp h
          exact (refl_of Unmoved s').positioned hin i
        · exact readSize_ok hp hin (fun _ => by omega) h
      · rename_i hle
        have hle' := UInt32.le_iff_toNat_le.mp (UInt32.not_lt.mp hle)
        refine readSize_ok hp hin (fun hno => ?_) h
        rw [Nat.mod_eq_of_lt hno] at hsum
        omega

theorem sysRead_ok {fd : Int} {hasBuf : Bool} {typed : Nat → UInt8} {count : UInt32}
    {r : Option UInt32 × List UInt8} (hin : s.InFile)
    (h : sysRead fd hasBuf typed count s = .ok (r, s')) :
    r.2.length ≤ count.toNat ∧ ∃ i, Positioned i s s' := by
  rw [sysRead] at h
  obtain ⟨_, s₀, hbuf, hread⟩ := Code.bind_ok.mp h
  obtain ⟨rfl, -⟩ := assert_ok.mp hbuf
  split at hread
  · obtain ⟨rfl, rfl⟩ := Code.pure_ok.mp hread
    exact ⟨Nat.zero_le _, 0, (refl_of Unmoved s').positioned hin 0⟩
  split at hread
  · obtain ⟨rfl, rfl⟩ := Code.pure_ok.mp hread
    exact ⟨by simp, 0, (refl_of Unmoved s').positioned hin 0⟩
  obtain ⟨i, s₁, h₁, h₂⟩ := Code.bind_ok.mp hread
  obtain ⟨rfl, -, -⟩ := fdLocal2global_ok h₁
  obtain ⟨hlen, hmove⟩ := fileRead_ok hin h₂
  exact ⟨hlen, i, hmove⟩

private theorem fileOf_some {fd : Int} {p : Ptr} (hi : s.fdTable s.cur fd.toNat = some i)
    (hp : (s.fileTable i).fdInode = some p) : s.fileOf fd = some (s.fileTable i, s.inode p) := by
  simp [State.fileOf, hi, hp]

/-- A position that `sys_lseek` accepts is in the file or one behind its end. -/
private theorem seek_le {size : UInt32} {pos : Int32} (h₀ : ¬ pos < 0)
    (h₁ : ¬ size.toInt32 + 1 < pos)
    (h₂ : ¬ (0 < pos ∧ pos = size.toInt32 + 1)) : pos.toUInt32 ≤ size := by
  have h₀' := Int32.not_lt.mp h₀
  by_cases hpos : 0 < pos
  · have hlt : pos < size.toInt32 + 1 :=
      Int32.lt_of_le_of_ne (Int32.not_lt.mp h₁) fun heq => h₂ ⟨hpos, heq⟩
    have hle : pos ≤ size.toInt32 := by
      rw [Int32.lt_iff_toInt_lt, Int32.toInt_add] at hlt
      rw [Int32.lt_iff_toInt_lt] at hpos
      rw [Int32.le_iff_toInt_le]
      have hone : (1 : Int32).toInt = 1 := rfl
      have hzero : (0 : Int32).toInt = 0 := rfl
      have hmax := Int32.toInt_lt size.toInt32
      have hmin := Int32.le_toInt size.toInt32
      rw [hone, Int.bmod_def] at hlt
      omega
    exact Int32.toUInt32_le h₀' hle
  · have hzero : pos = 0 := Int32.le_antisymm (Int32.not_lt.mp hpos) h₀'
    rw [hzero]
    exact UInt32.zero_le

theorem sysLseek_ok {fd : Int} {offset : Int32} {whence : UInt8} {r : Option UInt32}
    (hin : s.InFile) (hpast : ¬ s.PastEnd fd offset whence)
    (h : sysLseek fd offset whence s = .ok (r, s')) : ∃ i, Positioned i s s' := by
  rw [sysLseek] at h
  split at h
  · obtain ⟨rfl, rfl⟩ := Code.pure_ok.mp h
    exact ⟨0, (refl_of Unmoved s').positioned hin 0⟩
  simp only [Code.bind_ok, assert_ok] at h
  obtain ⟨_, s₁, ⟨rfl, -⟩, i, s₂, h₂, _, s₃, h₃, h⟩ := h
  obtain ⟨rfl, -, hi⟩ := fdLocal2global_ok h₂
  obtain ⟨rfl, rfl⟩ := Code.get_ok.mp h₃
  cases hp : (s₃.fileTable i).fdInode with
  | none =>
      rw [hp] at h
      exact (fault_ok.mp h).elim
  | some p =>
      rw [hp] at h
      dsimp only at h
      split at h
      · obtain ⟨rfl, rfl⟩ := Code.pure_ok.mp h
        exact ⟨0, (refl_of Unmoved s').positioned hin 0⟩
      · rename_i hok
        obtain ⟨h₀, h₁⟩ := not_or.mp hok
        simp only [Code.modify_bind, Code.pure_ok] at h
        obtain ⟨-, rfl⟩ := h
        refine ⟨i, positioned_setFile hp (seek_le h₀ h₁ ?_)⟩
        rintro ⟨hpos, heq⟩
        exact hpast ⟨_, _, fileOf_some hi hp, hpos, heq⟩

/-- Inode `p` has grown through slot `i`, whose position went along. -/
structure Appended (i : Nat) (p : Ptr) (s s' : State) : Prop where
  openInode : s'.openInode = s.openInode
  nextInode : s'.nextInode = s.nextInode
  others : ∀ q, q ≠ p → s'.inode q = s.inode q
  slots : ∀ j, j ≠ i → s'.fileTable j = s.fileTable j
  fdInode : (s'.fileTable i).fdInode = (s.fileTable i).fdInode
  size : (s.inode p).iSize ≤ (s'.inode p).iSize
  distance : (s'.fileTable i).fdPos - (s'.inode p).iSize =
    (s.fileTable i).fdPos - (s.inode p).iSize

theorem Appended.refl (i : Nat) (p : Ptr) (s : State) : Appended i p s s :=
  ⟨rfl, rfl, fun _ _ => rfl, fun _ _ => rfl, rfl, UInt32.le_refl _, rfl⟩

theorem Appended.trans {p : Ptr} (h : Appended i p s s₁) (h' : Appended i p s₁ s') :
    Appended i p s s' where
  openInode := h'.openInode.trans h.openInode
  nextInode := h'.nextInode.trans h.nextInode
  others q hq := (h'.others q hq).trans (h.others q hq)
  slots j hj := (h'.slots j hj).trans (h.slots j hj)
  fdInode := h'.fdInode.trans h.fdInode
  size := UInt32.le_trans h.size h'.size
  distance := h'.distance.trans h.distance

private theorem appended_chunk {p : Ptr} {chunk : UInt32}
    (hno : ((s.inode p).iSize + chunk).toNat = (s.inode p).iSize.toNat + chunk.toNat) :
    Appended i p s ((s.setSize p ((s.inode p).iSize + chunk)).setFile i
      { s.fileTable i with fdPos := (s.fileTable i).fdPos + chunk }) where
  openInode := rfl
  nextInode := rfl
  others q hq := by simp [State.setSize, hq]
  slots j hj := by simp [State.setSize, hj]
  fdInode := by simp
  size := by
    rw [UInt32.le_iff_toNat_le]
    simp only [State.setSize, State.setFile_inode, State.setInode_inode, Function.update_self]
    omega
  distance := by
    simp [State.setSize]

/-- The buffer that one turn of `file_write` writes: the sector, read on the first turn, with the
chunk in it. -/
def turnBuf (s : State) (lba : UInt32) (first : Bool) (off chunk : Nat) (src : Bytes) : Bytes :=
  (if first then Bytes.zero.blit 0 (512 * 1) (s.disk.drop (512 * lba.toNat)) else Bytes.zero).blit
    off chunk src

/-- The state after a turn that writes `chunk` bytes. -/
def State.turn (s : State) (i : Nat) (p : Ptr) (blocks : Nat → UInt32) (first : Bool) (src : Bytes)
    (chunk : UInt32) : State :=
  ((s.writeSectors (blocks ((s.inode p).iSize / 512).toNat)
    (turnBuf s (blocks ((s.inode p).iSize / 512).toNat) first ((s.inode p).iSize % 512).toNat
      chunk.toNat src) 1).setSize p ((s.inode p).iSize + chunk)).setFile i
    { s.fileTable i with fdPos := (s.fileTable i).fdPos + chunk }

section Turn

variable {p : Ptr} {blocks : Nat → UInt32} {count written w : UInt32} {n : Nat} {first : Bool}
  {src : Bytes}

theorem writeLoop_next (hlt : ¬ count ≤ written) (hsec : ((s.inode p).iSize / 512).toNat < 140)
    (hlba : s.ndebug = true ∨ blocks ((s.inode p).iSize / 512).toNat ≤ maxLba) :
    writeLoop i p blocks count (n + 1) first src written s =
      writeLoop i p blocks count n false
        (src.drop (chunkSize (s.inode p).iSize (count - written)).toNat)
        (written + chunkSize (s.inode p).iSize (count - written))
        (s.turn i p blocks first src (chunkSize (s.inode p).iSize (count - written))) := by
  have hin : require (((s.inode p).iSize / 512).toNat < 140) .outOfBounds s = .ok ((), s) :=
    require_ok.mpr ⟨rfl, hsec⟩
  have hdisk : assertLba (blocks ((s.inode p).iSize / 512).toNat) s = .ok ((), s) :=
    assertLba_ok.mpr ⟨rfl, hlba⟩
  rw [writeLoop, if_neg hlt, Code.get_bind, Code.bind_of_ok hin, Code.bind_of_ok hdisk]
  cases first with
  | true => rfl
  | false => rfl

theorem writeLoop_turn (hlt : ¬ count ≤ written)
    (h : writeLoop i p blocks count (n + 1) first src written s = .ok (w, s')) :
    ((s.inode p).iSize / 512).toNat < 140 ∧
      writeLoop i p blocks count n false
        (src.drop (chunkSize (s.inode p).iSize (count - written)).toNat)
        (written + chunkSize (s.inode p).iSize (count - written))
        (s.turn i p blocks first src (chunkSize (s.inode p).iSize (count - written))) =
        .ok (w, s') := by
  obtain ⟨hsec, hlba⟩ : ((s.inode p).iSize / 512).toNat < 140 ∧
      (s.ndebug = true ∨ blocks ((s.inode p).iSize / 512).toNat ≤ maxLba) := by
    rw [writeLoop, if_neg hlt] at h
    simp only [Code.get_bind, Code.bind_ok, require_ok, assertLba_ok] at h
    obtain ⟨_, s₁, ⟨rfl, hsec⟩, _, s₂, ⟨rfl, hlba⟩, -⟩ := h
    exact ⟨hsec, hlba⟩
  rw [writeLoop_next hlt hsec hlba] at h
  exact ⟨hsec, h⟩

end Turn

private theorem writeLoop_ok {p : Ptr} {blocks : Nat → UInt32} {count : UInt32} {w : UInt32}
    (n : Nat) : ∀ {s : State} {first : Bool} {src : Bytes} {written : UInt32},
      writeLoop i p blocks count n first src written s = .ok (w, s') →
      Appended i p s s' ∧ (¬ count ≤ written → (s.inode p).iSize < (s'.inode p).iSize) := by
  induction n with
  | zero =>
      intro s first src written h
      exact (fault_ok.mp h).elim
  | succ n ih =>
      intro s first src written h
      by_cases hlt : count ≤ written
      · rw [writeLoop, if_pos hlt] at h
        obtain ⟨rfl, rfl⟩ := Code.pure_ok.mp h
        exact ⟨Appended.refl i p s', fun hn => absurd hlt hn⟩
      · obtain ⟨hpos, hsub⟩ := toNat_sub_pos hlt
        obtain ⟨hsec, h₁⟩ := writeLoop_turn hlt h
        have hadd := add_chunk hsec hpos
        obtain ⟨hc, -, -⟩ := chunkSize_bounds (s.inode p).iSize (count - written) hpos
        rw [State.turn] at h₁
        obtain ⟨buf, hbuf⟩ : ∃ buf, buf = turnBuf s (blocks ((s.inode p).iSize / 512).toNat) first
            ((s.inode p).iSize % 512).toNat
            (chunkSize (s.inode p).iSize (count - written)).toNat src := ⟨_, rfl⟩
        rw [← hbuf] at h₁
        have hturn := appended_chunk
          (s := s.writeSectors (blocks ((s.inode p).iSize / 512).toNat) buf 1) (i := i) hadd
        obtain ⟨happ, -⟩ := ih h₁
        have hs : Appended i p s (s.writeSectors (blocks ((s.inode p).iSize / 512).toNat) buf 1) :=
          ⟨rfl, rfl, fun _ _ => rfl, fun _ _ => rfl, rfl, UInt32.le_refl _, rfl⟩
        refine ⟨(hs.trans hturn).trans happ, fun _ => ?_⟩
        have hsize := UInt32.le_iff_toNat_le.mp happ.size
        rw [UInt32.lt_iff_toNat_lt]
        simp only [State.setSize, State.setFile_inode, State.setInode_inode, Function.update_self,
          State.writeSectors_inode] at hsize
        omega

theorem unmoved_writeBlocks (p : Ptr) (has will : Nat) : Keeps Unmoved (writeBlocks p has will) :=
  Keeps.ite (StableDisk.sameBlocks p has will) (stable_unmoved.moreBlocks p has will)

private theorem writeData_ok {p : Ptr} {src : Bytes} {count : UInt32} {blocks : Nat → UInt32}
    {r : Option UInt32} (hp : (s.fileTable i).fdInode = some p)
    (hempty : ¬ ((s.inode p).iSize = 0 ∧ count = 0))
    (h : writeData i p src count blocks s = .ok (r, s')) : Positioned i s s' := by
  rw [writeData, Code.modify_bind] at h
  obtain ⟨written, s₁, h₁, h⟩ := Code.bind_ok.mp h
  obtain ⟨happ, hlonger⟩ := writeLoop_ok _ h₁
  have hsize : (s.inode p).iSize ≤ (s₁.inode p).iSize := happ.size
  have hpos : (s₁.fileTable i).fdPos = (s₁.inode p).iSize - 1 := by
    have hd := happ.distance
    simp only [State.setFile_fileTable, Function.update_self, State.setFile_inode] at hd
    grind
  -- something was written, or the file was not empty before
  have hne : 0 < (s₁.inode p).iSize.toNat := by
    by_cases hcount : count = 0
    · have hold : (s.inode p).iSize.toNat ≠ 0 := fun hz =>
        hempty ⟨UInt32.toNat_inj.mp hz, hcount⟩
      have := UInt32.le_iff_toNat_le.mp hsize
      omega
    · have hcount' : ¬ count ≤ 0 := fun hle =>
        hcount (UInt32.toNat_inj.mp (Nat.le_zero.mp (UInt32.le_iff_toNat_le.mp hle)))
      have := UInt32.lt_iff_toNat_lt.mp (hlonger hcount')
      omega
  have hle : (s₁.inode p).iSize - 1 ≤ (s₁.inode p).iSize := by
    have hone : (1 : UInt32).toNat = 1 := rfl
    rw [UInt32.le_iff_toNat_le, UInt32.toNat_sub_of_le _ _ (UInt32.le_iff_toNat_le.mpr (by omega))]
    omega
  have hmoved : Positioned i s s₁ := by
    refine ⟨happ.openInode, happ.nextInode, fun q => ?_, fun j hj => ?_, ?_, fun q hq => ?_⟩
    · by_cases hq : q = p
      · rw [hq]
        exact hsize
      · rw [happ.others q hq]
        exact UInt32.le_refl _
    · rw [happ.slots j hj, State.setFile_fileTable, Function.update_of_ne hj]
    · rw [happ.fdInode, State.setFile_fileTable, Function.update_self]
    · obtain rfl : p = q := Option.some.inj (hp.symm.trans hq)
      rw [hpos]
      exact hle
  refine hmoved.unmoved ?_
  refine Keeps.bind stable_unmoved.sysMalloc (fun ok => ?_) _ _ _ h
  refine Keeps.ite Keeps.pure (Keeps.get.bind fun s => ?_)
  exact (stable_unmoved.inodeSync _).bind fun _ => stable_unmoved.sysFree.bind fun _ =>
    stable_unmoved.sysFree.bind fun _ => stable_unmoved.sysFree.bind fun _ => Keeps.pure

private theorem writeFile_ok {p : Ptr} {src : Bytes} {count : UInt32} {r : Option UInt32}
    (hp : (s.fileTable i).fdInode = some p) (hin : s.InFile)
    (hempty : ¬ ((s.inode p).iSize = 0 ∧ count = 0))
    (h : writeFile i p src count s = .ok (r, s')) : Positioned i s s' := by
  rw [writeFile] at h
  obtain ⟨ok, s₁, h₁, h⟩ := Code.bind_ok.mp h
  have hu₁ : Unmoved s s₁ := stable_unmoved.firstBlock p _ _ _ h₁
  split at h
  · simp only [Code.get_bind] at h
    obtain ⟨_, s₂, h₂, h⟩ := Code.bind_ok.mp h
    obtain ⟨rfl, -⟩ := assert_ok.mp h₂
    obtain ⟨blocks, s₃, h₃, h⟩ := Code.bind_ok.mp h
    have hu₃ : Unmoved s s₃ := trans_of Unmoved hu₁ (unmoved_writeBlocks _ _ _ _ _ _ h₃)
    cases blocks with
    | none =>
        obtain ⟨rfl, rfl⟩ := Code.pure_ok.mp h
        exact hu₃.positioned hin i
    | some blocks =>
        apply Positioned.of_unmoved hu₃
        apply writeData_ok (p := p) ?_ ?_ h
        · rw [hu₃.fileTable]
          exact hp
        · rw [hu₃.size p]
          exact hempty
  · obtain ⟨rfl, rfl⟩ := Code.pure_ok.mp h
    exact hu₁.positioned hin i

private theorem fileWrite_ok {src : Bytes} {count : UInt32} {r : Option UInt32} (hin : s.InFile)
    (hempty : ∀ p, (s.fileTable i).fdInode = some p → s.mem.serve s.mem.calls = true →
      s.mem.serve (s.mem.calls + 1) = true → ¬ ((s.inode p).iSize = 0 ∧ count = 0))
    (h : fileWrite i src count s = .ok (r, s')) : Positioned i s s' := by
  rw [fileWrite, Code.get_bind] at h
  cases hp : (s.fileTable i).fdInode with
  | none =>
      rw [hp] at h
      exact (fault_ok.mp h).elim
  | some p =>
      rw [hp] at h
      dsimp only at h
      split at h
      · obtain ⟨rfl, rfl⟩ := Code.pure_ok.mp h
        exact (refl_of Unmoved s').positioned hin i
      obtain ⟨ok, s₁, h₁, h⟩ := Code.bind_ok.mp h
      have hu₁ : Unmoved s s₁ := stable_unmoved.sysMalloc _ _ _ h₁
      by_cases hok : ok = false
      · rw [if_pos hok] at h
        obtain ⟨rfl, rfl⟩ := Code.pure_ok.mp h
        exact hu₁.positioned hin i
      rw [if_neg hok] at h
      obtain ⟨ok', s₂, h₂, h⟩ := Code.bind_ok.mp h
      have hu₂ : Unmoved s s₂ := trans_of Unmoved hu₁ (stable_unmoved.sysMalloc _ _ _ h₂)
      by_cases hok' : ok' = false
      · rw [if_pos hok'] at h
        obtain ⟨rfl, rfl⟩ := Code.pure_ok.mp h
        exact hu₂.positioned hin i
      rw [if_neg hok'] at h
      obtain ⟨hserve, rfl⟩ := sysMalloc_ok.mp h₁
      obtain ⟨hserve', rfl⟩ := sysMalloc_ok.mp h₂
      rw [Bool.not_eq_false] at hok hok'
      apply Positioned.of_unmoved hu₂
      refine writeFile_ok (by exact hp) (by exact hin) ?_ h
      exact hempty p hp (hserve.symm.trans hok) (hserve'.symm.trans hok')

theorem sysWrite_ok {fd : Int} {src : Bytes} {count : UInt32} {r : Option UInt32} (hin : s.InFile)
    (hempty : ¬ s.EmptyWrite fd count) (h : sysWrite fd src count s = .ok (r, s')) :
    ∃ i, Positioned i s s' := by
  rw [sysWrite] at h
  split at h
  · obtain ⟨rfl, rfl⟩ := Code.pure_ok.mp h
    exact ⟨0, (refl_of Unmoved s').positioned hin 0⟩
  split at h
  · simp only [Code.bind_ok, require_ok, Code.pure_ok] at h
    obtain ⟨_, _, ⟨rfl, -⟩, -, rfl⟩ := h
    exact ⟨0, (refl_of Unmoved s').positioned hin 0⟩
  obtain ⟨i, s₁, h₁, h₂⟩ := Code.bind_ok.mp h
  obtain ⟨rfl, -, hi⟩ := fdLocal2global_ok h₁
  rw [Code.get_bind] at h₂
  split at h₂
  · rename_i hwriting
    refine ⟨i, fileWrite_ok hin (fun p hp hserve hserve' => ?_) h₂⟩
    rintro ⟨hsize, hcount⟩
    exact hempty ⟨_, _, fileOf_some hi hp, hwriting, hsize, hcount, hserve, hserve'⟩
  · obtain ⟨rfl, rfl⟩ := Code.pure_ok.mp h₂
    exact ⟨0, (refl_of Unmoved s').positioned hin 0⟩

end Moves

end Aitos.Fs
