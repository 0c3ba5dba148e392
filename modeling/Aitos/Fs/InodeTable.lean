import Aitos.Fs.Inode

/-!
# The inode table

Reading the sectors of an inode, changing its 76 bytes and writing the sectors back changes those
76 bytes of the disk and nothing else, whether the inode straddles a sector boundary or not.
-/

namespace Aitos.Fs

open Framework

/-- The disk address of inode `n` of the table. -/
def slotAddr (part : Partition) (n : Nat) : Nat := 512 * part.sb.inodeTableLba.toNat + 76 * n

section Position

variable (part : Partition) {n : UInt32}

private theorem offSize_toNat (hn : n.toNat < 4096) : (n * 76).toNat = 76 * n.toNat := by
  rw [UInt32.toNat_mul, Nat.mul_comm]
  apply Nat.mod_eq_of_lt
  change 76 * n.toNat < 4294967296
  omega

private theorem inodePosition_offSize (sb : SuperBlock) (hn : n.toNat < 4096) :
    (inodePosition sb n).offSize.toNat = 76 * n.toNat % 512 := by
  change (n * 76 % 512).toNat = _
  rw [UInt32.toNat_mod, offSize_toNat hn]
  rfl

private theorem inodePosition_secLba (hn : n.toNat < 4096) :
    (inodePosition part.sb n).secLba.toNat =
      part.sb.inodeTableLba.toNat + 76 * n.toNat / 512 := by
  have hfit := part.layout.tableFits
  have hrange := part.layout.small
  change (part.sb.inodeTableLba + n * 76 / 512).toNat = _
  rw [UInt32.toNat_add, UInt32.toNat_div, offSize_toNat hn]
  apply Nat.mod_eq_of_lt
  change _ + 76 * n.toNat / 512 < 4294967296
  omega

private theorem leftInSector_iff (hn : n.toNat < 4096) :
    (512 : UInt32) - n * 76 % 512 > 76 ↔ 76 * n.toNat % 512 < 436 := by
  have hoff : (n * 76 % 512).toNat = 76 * n.toNat % 512 := by
    rw [UInt32.toNat_mod, offSize_toNat hn]
    rfl
  have hle : n * 76 % 512 ≤ 512 := by
    rw [UInt32.le_iff_toNat_le, hoff]
    change 76 * n.toNat % 512 ≤ 512
    omega
  change (76 : UInt32) < _ ↔ _
  rw [UInt32.lt_iff_toNat_lt, UInt32.toNat_sub_of_le _ _ hle, hoff]
  change 76 < 512 - 76 * n.toNat % 512 ↔ _
  omega

private theorem inodePosition_sectors (sb : SuperBlock) (hn : n.toNat < 4096) :
    (inodePosition sb n).sectors = if 76 * n.toNat % 512 < 436 then 1 else 2 := by
  rw [InodePosition.sectors, inodePosition]
  by_cases h : 76 * n.toNat % 512 < 436
  · simp only [(leftInSector_iff hn).mpr h, h, if_true, Bool.false_eq_true, if_false]
  · simp only [mt (leftInSector_iff hn).mp h, h, if_false, if_true]

private theorem inodePosition_addr (hn : n.toNat < 4096) :
    512 * (inodePosition part.sb n).secLba.toNat + (inodePosition part.sb n).offSize.toNat =
      slotAddr part n.toNat := by
  rw [inodePosition_secLba part hn, inodePosition_offSize part.sb hn, slotAddr]
  omega

private theorem inodePosition_fits (sb : SuperBlock) (hn : n.toNat < 4096) :
    (inodePosition sb n).offSize.toNat + 76 ≤ 512 * (inodePosition sb n).sectors := by
  rw [inodePosition_offSize sb hn, inodePosition_sectors sb hn]
  split <;> omega

private theorem inodePosition_inPartition (hn : n.toNat < 4096) :
    (inodePosition part.sb n).secLba ≤ part.startLba + part.secCnt := by
  have hfit := part.layout.tableFits
  have hrange := part.layout.small
  rw [UInt32.le_iff_toNat_le, inodePosition_secLba part hn, UInt32.toNat_add]
  change _ ≤ _ % 4294967296
  omega

end Position

/-- Reading sectors, changing `len` bytes of them and writing them back. -/
private theorem writeSectors_readBack (s : State) (lba : UInt32) (n off len : Nat) (src : Bytes)
    (h : off + len ≤ 512 * n) :
    s.writeSectors lba ((Bytes.zero.blit 0 (512 * n) (s.disk.drop (512 * lba.toNat))).blit off len
      src) n = { s with disk := s.disk.blit (512 * lba.toNat + off) len src } := by
  rw [State.writeSectors]
  congr 1
  funext a
  by_cases hin : 512 * lba.toNat ≤ a ∧ a < 512 * lba.toNat + 512 * n
  · rw [Bytes.blit_of_lt _ _ _ _ hin.1 hin.2]
    by_cases hs : off ≤ a - 512 * lba.toNat ∧ a - 512 * lba.toNat < off + len
    · rw [Bytes.blit_of_lt _ _ _ _ hs.1 hs.2, Bytes.blit_of_lt _ _ _ _ (by omega) (by omega)]
      congr 1
      omega
    · rw [Bytes.blit_of_outside _ _ _ _ (by omega),
        Bytes.blit_of_lt _ _ _ _ (Nat.zero_le _) (by omega),
        Bytes.blit_of_outside _ _ _ _ (by omega), Bytes.drop]
      congr 1
      omega
  · rw [Bytes.blit_of_outside _ _ _ _ (by omega), Bytes.blit_of_outside _ _ _ _ (by omega)]

@[simps -fullyApplied]
def State.setSlot (s : State) (n : Nat) (src : Bytes) : State :=
  { s with disk := s.disk.blit (slotAddr s.part n) 76 src }

/-- The sectors of slot `n` with `src` in the slot. -/
def State.slotSectors (s : State) (n : UInt32) (src : Bytes) : Bytes :=
  let pos := inodePosition s.part.sb n
  (Bytes.zero.blit 0 (512 * pos.sectors) (s.disk.drop (512 * pos.secLba.toNat))).blit
    pos.offSize.toNat 76 src

private theorem writeSectors_slot (s : State) {n : UInt32} (hn : n.toNat < 4096) (src : Bytes) :
    s.writeSectors (inodePosition s.part.sb n).secLba (s.slotSectors n src)
      (inodePosition s.part.sb n).sectors = s.setSlot n.toNat src := by
  rw [State.slotSectors, writeSectors_readBack _ _ _ _ _ _ (inodePosition_fits _ hn),
    inodePosition_addr s.part hn]
  rfl

private theorem inodeLocate_eq (s : State) {n : UInt32} (hn : n.toNat < 4096) :
    inodeLocate n s = .ok (inodePosition s.part.sb n, s) := by
  have hlt : n < 4096 := UInt32.lt_iff_toNat_lt.mpr hn
  rw [inodeLocate, Code.bind_ok]
  exact ⟨(), s, assert_ok.mpr ⟨rfl, Or.inr hlt⟩, rfl⟩

private theorem toUInt8_toUInt32_toNat (n : UInt32) : n.toUInt8.toUInt32.toNat = n.toNat % 256 := by
  simp

theorem inodeSync_eq (s : State) (ino : Inode) :
    inodeSync ino s = .ok ((), s.setSlot (ino.iNo.toNat % 256) ino.pureImage) := by
  have hno := toUInt8_toUInt32_toNat ino.iNo
  have hlt : ino.iNo.toUInt8.toUInt32.toNat < 4096 := by omega
  rw [inodeSync, Code.bind_ok]
  refine ⟨_, s, inodeLocate_eq s hlt, ?_⟩
  rw [Code.bind_ok]
  refine ⟨s, s, rfl, ?_⟩
  rw [Code.bind_ok]
  refine ⟨(), s, assert_ok.mpr ⟨rfl, Or.inr (inodePosition_inPartition s.part hlt)⟩, ?_⟩
  rw [Code.bind_ok]
  refine ⟨_, s, ideRead_ok.mpr ⟨rfl, rfl⟩, ?_⟩
  rw [ideWrite_ok, ← hno, ← writeSectors_slot s hlt]
  rfl

private theorem inodeSync_inTable (s : State) (ino : Inode) :
    ∃ lba n buf, inodeSync ino s = .ok ((), s.writeSectors lba buf n) ∧
      s.part.sb.inodeTableLba.toNat ≤ lba.toNat ∧
      lba.toNat + n ≤ s.part.sb.inodeTableLba.toNat + 608 := by
  have hno := toUInt8_toUInt32_toNat ino.iNo
  have hlt : ino.iNo.toUInt8.toUInt32.toNat < 4096 := by omega
  refine ⟨(inodePosition s.part.sb ino.iNo.toUInt8.toUInt32).secLba,
    (inodePosition s.part.sb ino.iNo.toUInt8.toUInt32).sectors,
    s.slotSectors ino.iNo.toUInt8.toUInt32 ino.pureImage, ?_, ?_, ?_⟩
  · rw [inodeSync_eq, writeSectors_slot s hlt, hno]
  · rw [inodePosition_secLba s.part hlt]
    omega
  · rw [inodePosition_secLba s.part hlt, inodePosition_sectors _ hlt]
    split <;> omega

theorem inodeDelete_eq (s : State) {n : UInt32} (hn : n.toNat < 4096) :
    inodeDelete n s = .ok ((), s.setSlot n.toNat Bytes.zero) := by
  have hlt : n < 4096 := UInt32.lt_iff_toNat_lt.mpr hn
  rw [inodeDelete, Code.bind_ok]
  refine ⟨(), s, assert_ok.mpr ⟨rfl, Or.inr hlt⟩, ?_⟩
  rw [Code.bind_ok]
  refine ⟨_, s, inodeLocate_eq s hn, ?_⟩
  rw [Code.bind_ok]
  refine ⟨s, s, rfl, ?_⟩
  rw [Code.bind_ok]
  refine ⟨(), s, assert_ok.mpr ⟨rfl, Or.inr (inodePosition_inPartition s.part hn)⟩, ?_⟩
  rw [Code.bind_ok]
  refine ⟨_, s, ideRead_ok.mpr ⟨rfl, rfl⟩, ?_⟩
  rw [ideWrite_ok, ← writeSectors_slot s hn]
  rfl

/-- The bytes from the slot of inode `n` on. -/
def State.slot (s : State) (n : Nat) : Bytes := s.disk.drop (slotAddr s.part n)

theorem setSlot_slot_self (s : State) (n : Nat) (src : Bytes) {i : Nat} (hi : i < 76) :
    (s.setSlot n src).slot n i = src i := Bytes.blit_add _ _ _ _ hi

theorem setSlot_slot_of_ne (s : State) {n m : Nat} (hne : m ≠ n) (src : Bytes) {i : Nat}
    (hi : i < 76) : (s.setSlot n src).slot m i = s.slot m i := by
  apply Bytes.blit_of_outside
  rw [slotAddr, slotAddr]
  change 512 * s.part.sb.inodeTableLba.toNat + 76 * m + i < _ ∨
    _ ≤ 512 * s.part.sb.inodeTableLba.toNat + 76 * m + i
  omega

section Image

theorem ofBytes_congr {b b' : Bytes} (h : ∀ i, i < 76 → b i = b' i) :
    Inode.ofBytes b = Inode.ofBytes b' := by
  have hword : ∀ k, k < 19 → b.word (4 * k) = b'.word (4 * k) :=
    fun k hk => Bytes.word_congr (fun i hi => h _ (by omega))
  have hsec : (fun j => if j < 13 then b.word (16 + 4 * j) else 0) =
      fun j => if j < 13 then b'.word (16 + 4 * j) else 0 := by
    funext j
    by_cases hj : j < 13
    · rw [if_pos hj, if_pos hj, show 16 + 4 * j = 4 * (j + 4) by omega, hword _ (by omega)]
    · rw [if_neg hj, if_neg hj]
  rw [Inode.ofBytes, Inode.ofBytes, hword 0 (by omega), hword 1 (by omega), hword 2 (by omega),
    hword 3 (by omega), hsec]

/-- What of an inode the disk keeps. -/
def Inode.SameOnDisk (a b : Inode) : Prop :=
  a.iNo = b.iNo ∧ a.iSize = b.iSize ∧ ∀ j < 13, a.iSectors j = b.iSectors j

theorem ofBytes_pureImage (ino : Inode) : (Inode.ofBytes ino.pureImage).SameOnDisk ino := by
  refine ⟨Bytes.word_ofWords ino.words 0, Bytes.word_ofWords ino.words 1, fun j hj => ?_⟩
  change (if j < 13 then ino.pureImage.word (16 + 4 * j) else 0) = _
  rw [if_pos hj, show 16 + 4 * j = 4 * (j + 4) by omega, Inode.pureImage, Bytes.word_ofWords,
    Inode.words, if_neg (by omega), if_neg (by omega), if_pos (by omega)]
  congr 1

private theorem ofBytes_pureImage_writeDeny (ino : Inode) :
    (Inode.ofBytes ino.pureImage).writeDeny = false := by
  have h : ino.pureImage.word 12 = 0 := Bytes.word_ofWords ino.words 3
  simp [Inode.ofBytes, h]

end Image

/-- The in-memory inode made from slot `n`. -/
def State.load (s : State) (n : Nat) : Inode := (Inode.ofBytes (s.slot n)).opened

private theorem ofBytes_slotSectors (s : State) {n : UInt32} (hn : n.toNat < 4096) :
    Inode.ofBytes ((Bytes.zero.blit 0 (512 * (inodePosition s.part.sb n).sectors)
      (s.disk.drop (512 * (inodePosition s.part.sb n).secLba.toNat))).drop
        (inodePosition s.part.sb n).offSize.toNat) = Inode.ofBytes (s.slot n.toNat) := by
  have hfit := inodePosition_fits s.part.sb hn
  have haddr := inodePosition_addr s.part hn
  apply ofBytes_congr
  intro i hi
  rw [Bytes.drop, Bytes.blit_of_lt _ _ _ _ (Nat.zero_le _) (by omega), State.slot, ← haddr]
  change s.disk _ = s.disk _
  congr 1
  omega

/-- The heaps after `inode_open` has read an inode. -/
def State.openMem (s : State) : Memory :=
  ((s.mem.malloc true).malloc s.kernelHeap).free s.kernelHeap ⟨s.kernelHeap, false⟩

theorem inodeOpen_ok {s s' : State} {n : UInt32} {p : Ptr} (hn : n.toNat < 4096) :
    inodeOpen n s = .ok (p, s') ↔
      (s.findInode n = some p ∧ s' = s.countUp p) ∨
      (s.findInode n = none ∧ p = s.nextInode ∧
        s' = (s.pushInode (s.load n.toNat)).setMem s.openMem ∧
        s.mem.serve s.mem.calls = true ∧ s.mem.serve (s.mem.calls + 1) = true) := by
  cases hf : s.findInode n with
  | some q =>
      simp only [inodeOpen, Code.get_bind, hf, Code.modify_bind, Code.pure_ok]
      constructor
      · rintro ⟨rfl, rfl⟩
        exact Or.inl ⟨rfl, rfl⟩
      · simp
        rintro rfl rfl
        exact ⟨rfl, rfl⟩
  | none =>
      have hserve : (s.mem.malloc true).serve (s.mem.malloc true).calls =
          s.mem.serve (s.mem.calls + 1) := rfl
      simp [inodeOpen, hf, inodeLocate_eq _ hn, ofBytes_slotSectors s hn, hserve]
      constructor
      · rintro ⟨h₁, h₂, rfl, rfl⟩
        exact ⟨rfl, rfl, h₂, h₁⟩
      · rintro ⟨rfl, rfl, h₂, h₁⟩
        exact ⟨h₁, h₂, rfl, rfl⟩

/-- `inode_sync` followed by `inode_open` gives the inode back, leaves every other slot alone and
writes to the table only. -/
def SyncRoundTrip (s : State) (ino : Inode) : Prop :=
  ∃ s₁, inodeSync ino s = .ok ((), s₁) ∧
    (∃ p s₂, inodeOpen ino.iNo s₁ = .ok (p, s₂) ∧ (s₂.inode p).SameOnDisk ino ∧
      (s₂.inode p).iOpenCnts = 1 ∧ (s₂.inode p).writeDeny = false) ∧
    (∀ m < 4096, m ≠ ino.iNo.toNat → ∀ i < 76, s₁.slot m i = s.slot m i) ∧
    ∃ lba n buf, s₁ = s.writeSectors lba buf n ∧ s.part.sb.inodeTableLba.toNat ≤ lba.toNat ∧
      lba.toNat + n ≤ s.part.sb.inodeTableLba.toNat + 608

/-- `inode_delete` clears the slot of `n` and no other byte of the disk. -/
def DeletesSlot (s : State) (n : UInt32) : Prop :=
  ∃ s₁, inodeDelete n s = .ok ((), s₁) ∧ (∀ i < 76, s₁.slot n.toNat i = 0) ∧
    ∀ a, a < slotAddr s.part n.toNat ∨ slotAddr s.part n.toNat + 76 ≤ a → s₁.disk a = s.disk a

private theorem deletesSlot (s : State) {n : UInt32} (hn : n.toNat < 4096) : DeletesSlot s n := by
  refine ⟨_, inodeDelete_eq s hn, fun i hi => setSlot_slot_self s _ _ hi, fun a ha => ?_⟩
  exact Bytes.blit_of_outside _ _ _ _ ha

private theorem inodeOpen_setSlot {s : State} {n : UInt32} (hn : n.toNat < 4096)
    (habsent : s.findInode n = none) (hmem : ∀ c, s.mem.serve c = true) (m : Nat) (src : Bytes) :
    ∃ s₂, inodeOpen n (s.setSlot m src) = .ok (s.nextInode, s₂) ∧
      s₂.inode s.nextInode = (s.setSlot m src).load n.toNat := by
  refine ⟨_, (inodeOpen_ok hn).mpr (Or.inr ⟨habsent, rfl, rfl, hmem _, hmem _⟩), ?_⟩
  exact Function.update_self _ _ _

private theorem load_setSlot_self (s : State) (ino : Inode) (n : Nat) :
    (s.setSlot n ino.pureImage).load n = (Inode.ofBytes ino.pureImage).opened := by
  rw [State.load, ofBytes_congr (fun i hi => setSlot_slot_self s n ino.pureImage hi)]

private theorem load_setSlot_of_ne (s : State) {n m : Nat} (hne : m ≠ n) (src : Bytes) :
    (s.setSlot n src).load m = s.load m := by
  rw [State.load, State.load, ofBytes_congr (fun i hi => setSlot_slot_of_ne s hne src hi)]

/-- `inode_sync` keeps the number in a byte: it does what it should exactly for the numbers below
256, and otherwise only if both the slot it hits and the slot it should hit are already as they
are to become. -/
theorem inodeSync_roundTrip_iff (s : State) (ino : Inode) (hno : ino.iNo.toNat < 4096)
    (habsent : s.findInode ino.iNo = none) (hmem : ∀ c, s.mem.serve c = true) :
    (SyncRoundTrip s ino ∧ ∀ n : UInt32, n.toNat < 4096 → DeletesSlot s n) ↔
      ino.iNo.toNat < 256 ∨
        (∀ i < 76, s.slot (ino.iNo.toNat % 256) i = ino.pureImage i) ∧
          (s.load ino.iNo.toNat).SameOnDisk ino ∧ (s.load ino.iNo.toNat).writeDeny = false := by
  obtain ⟨s₂, hopen, hload⟩ := inodeOpen_setSlot hno habsent hmem (ino.iNo.toNat % 256) ino.pureImage
  constructor
  · rintro ⟨⟨s₁, hsync, ⟨p, s₃, hopen', hsame, -, hdeny⟩, hframe, -⟩, -⟩
    by_cases hlt : ino.iNo.toNat < 256
    · exact Or.inl hlt
    rw [inodeSync_eq, Except.ok.injEq, Prod.mk.injEq] at hsync
    obtain ⟨-, rfl⟩ := hsync
    rw [hopen, Except.ok.injEq, Prod.mk.injEq] at hopen'
    obtain ⟨rfl, rfl⟩ := hopen'
    rw [hload, load_setSlot_of_ne s (by omega)] at hsame hdeny
    refine Or.inr ⟨fun i hi => ?_, hsame, hdeny⟩
    rw [← hframe _ (by omega) (by omega) i hi, setSlot_slot_self s _ _ hi]
  · intro hcond
    refine ⟨⟨_, inodeSync_eq s ino, ⟨_, s₂, hopen, ?_⟩, ?_, ?_⟩, fun n hn => deletesSlot s hn⟩
    · rw [hload]
      rcases hcond with hlt | ⟨-, hsame, hdeny⟩
      · rw [Nat.mod_eq_of_lt hlt, load_setSlot_self]
        exact ⟨ofBytes_pureImage ino, rfl, ofBytes_pureImage_writeDeny ino⟩
      · by_cases hlt : ino.iNo.toNat < 256
        · rw [Nat.mod_eq_of_lt hlt, load_setSlot_self]
          exact ⟨ofBytes_pureImage ino, rfl, ofBytes_pureImage_writeDeny ino⟩
        · rw [load_setSlot_of_ne s (by omega)]
          exact ⟨hsame, rfl, hdeny⟩
    · intro m _ hne i hi
      by_cases hm : m = ino.iNo.toNat % 256
      · rcases hcond with hlt | ⟨himage, -⟩
        · omega
        · rw [hm, setSlot_slot_self s _ _ hi, himage i hi]
      · exact setSlot_slot_of_ne s hm _ hi
    · obtain ⟨lba, n, buf, hsync, hlo, hhi⟩ := inodeSync_inTable s ino
      rw [inodeSync_eq, Except.ok.injEq, Prod.mk.injEq] at hsync
      exact ⟨lba, n, buf, hsync.2, hlo, hhi⟩

theorem inodeSync_roundTrip_small :
    SyncRoundTrip (State.fresh smallPartition Bytes.zero) ⟨7, 512, 1, false, fun _ => 700⟩ :=
  ((inodeSync_roundTrip_iff (State.fresh smallPartition Bytes.zero) ⟨7, 512, 1, false, fun _ => 700⟩
    (by decide) rfl (fun _ => rfl)).mpr (Or.inl (by decide))).1

/-- Inode 256 of an empty table: its size is written to slot 0 and reads back as zero. -/
theorem inode_256_not_synced :
    ¬ SyncRoundTrip (State.fresh smallPartition Bytes.zero) ⟨256, 512, 1, false, fun _ => 700⟩ := by
  rintro ⟨s₁, hsync, ⟨p, s₂, hopen, ⟨-, hsize, -⟩, -⟩, -⟩
  obtain ⟨s₃, hopen', hload⟩ := inodeOpen_setSlot
    (s := State.fresh smallPartition Bytes.zero) (n := 256) (by decide) rfl (fun _ => rfl) 0
    (Inode.pureImage ⟨256, 512, 1, false, fun _ => 700⟩)
  rw [inodeSync_eq, Except.ok.injEq, Prod.mk.injEq] at hsync
  obtain ⟨-, rfl⟩ := hsync
  have hp : (p, s₂) = ((State.fresh smallPartition Bytes.zero).nextInode, s₃) :=
    Except.ok.inj (hopen.symm.trans hopen')
  rw [Prod.mk.injEq] at hp
  obtain ⟨rfl, rfl⟩ := hp
  rw [hload, load_setSlot_of_ne _ (by decide)] at hsize
  exact absurd hsize (by decide)

end Aitos.Fs
