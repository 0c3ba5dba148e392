import Aitos.Fs.Contents

/-!
# Writing a file

`file_write` first sees to it that every block up to the one of the new end is there, and then copies
the data behind the old end.  The sectors it writes are the indirect table, the block of the old end
and blocks that were free, and sectors outside the data area.
-/

namespace Aitos.Fs

open Framework

section Loop

variable {fd : Nat} {p : Ptr} {blocks : Nat → UInt32} {count : UInt32} {s' : State} {w : UInt32}

/-- Block `k` has one of the `left` bytes from position `pos` on. -/
def Touched (pos left k : Nat) : Prop := 0 < left ∧ pos / 512 ≤ k ∧ 512 * k < pos + left

/-- What the loop of `file_write` has done when `left` bytes are written from position `pos` on. -/
structure Stored (p : Ptr) (blocks : Nat → UInt32) (pos left : Nat) (src : Bytes)
    (s s' : State) : Prop where
  part : s'.part = s.part
  blockBitmap : s'.blockBitmap = s.blockBitmap
  inode : s'.inode = Function.update s.inode p { s.inode p with iSize := UInt32.ofNat (pos + left) }
  fits : left = 0 ∨ pos + left ≤ 71680
  others : ∀ lba, (∀ k, Touched pos left k → lba ≠ blocks k) →
    sectorOf s'.disk lba = sectorOf s.disk lba
  before : ∀ a < pos, a / 512 = pos / 512 → byteIn s'.disk blocks a = byteIn s.disk blocks a
  written : ∀ i < left, byteIn s'.disk blocks (pos + i) = src i

private theorem byteIn_sectorOf (disk : Bytes) (blocks : Nat → UInt32) (a : Nat) :
    byteIn disk blocks a = sectorOf disk (blocks (a / 512)) (a % 512) := by
  rw [sectorOf_lt _ _ (Nat.mod_lt _ (by decide)), byteIn]

variable {pos c left : Nat} {src : Bytes} {s s₁ : State}

/-- One chunk, which stays in its sector. -/
private theorem stored_turn {first : Bool} (hsec : pos / 512 < 140) (hc : 0 < c)
    (hin : pos % 512 + c ≤ 512) (hfirst : first = true ∨ pos % 512 = 0) (f : File) :
    Stored p blocks pos c src s (((s.writeSectors (blocks (pos / 512))
      (turnBuf s (blocks (pos / 512)) first (pos % 512) c src) 1).setSize p
        (UInt32.ofNat (pos + c))).setFile fd f) where
  part := rfl
  blockBitmap := rfl
  inode := rfl
  fits := Or.inr (by omega)
  others lba hlba := by
    apply sectorOf_writeSectors_of_ne
    exact hlba _ ⟨hc, le_rfl, by omega⟩
  before a ha heq := by
    have hmod : a % 512 < pos % 512 := by omega
    rw [byteIn_sectorOf, byteIn_sectorOf, heq]
    refine (sectorOf_writeSectors_self _ _ _ (by omega)).trans ?_
    rw [turnBuf, Bytes.blit_of_outside _ _ _ _ (Or.inl hmod)]
    rcases hfirst with rfl | hzero
    · rfl
    · omega
  written i hi := by
    have hdiv : (pos + i) / 512 = pos / 512 := by omega
    have hmod : (pos + i) % 512 = pos % 512 + i := by omega
    rw [byteIn_sectorOf, hdiv, hmod]
    refine (sectorOf_writeSectors_self _ _ _ (by omega)).trans ?_
    rw [turnBuf, Bytes.blit_add _ _ _ _ hi]

theorem Stored.append (h₁ : Stored p blocks pos c src s s₁)
    (h₂ : Stored p blocks (pos + c) left (src.drop c) s₁ s') (hc : 0 < c)
    (hin : pos % 512 + c ≤ 512) (hfull : pos % 512 + c = 512 ∨ left = 0)
    (hinj : ∀ j k, Touched pos (c + left) j → Touched pos (c + left) k → blocks j = blocks k →
      j = k) : Stored p blocks pos (c + left) src s s' := by
  have hlater {k : Nat} (hk : Touched (pos + c) left k) : Touched pos (c + left) k := by
    rw [Touched] at hk ⊢
    omega
  have hfirst : Touched pos (c + left) (pos / 512) := by
    rw [Touched]
    omega
  have hkept : sectorOf s'.disk (blocks (pos / 512)) = sectorOf s₁.disk (blocks (pos / 512)) := by
    apply h₂.others
    intro k hk heq
    have hsame := hinj _ _ hfirst (hlater hk) heq
    rw [Touched] at hk
    omega
  refine ⟨h₂.part.trans h₁.part, h₂.blockBitmap.trans h₁.blockBitmap, ?_, ?_, ?_, ?_, ?_⟩
  · rw [h₂.inode, h₁.inode, Function.update_idem, Function.update_self, Nat.add_assoc]
  · have hfits := h₁.fits
    rcases h₂.fits with hzero | hle
    · omega
    · omega
  · intro lba hlba
    rw [h₂.others lba fun k hk => hlba k (hlater hk)]
    apply h₁.others
    intro k hk
    apply hlba
    rw [Touched] at hk ⊢
    omega
  · intro a ha heq
    rw [← h₁.before a ha heq, byteIn_sectorOf, byteIn_sectorOf, heq, hkept]
  · intro i hi
    by_cases hic : i < c
    · rw [← h₁.written i hic, byteIn_sectorOf, byteIn_sectorOf,
        show (pos + i) / 512 = pos / 512 by omega, hkept]
    · have hnext := h₂.written (i - c) (by omega)
      rw [Bytes.drop, show pos + c + (i - c) = pos + i by omega,
        show c + (i - c) = i by omega] at hnext
      exact hnext

theorem writeLoop_stored (n : Nat) : ∀ {s : State} {first : Bool} {src : Bytes} {written : UInt32},
    written ≤ count → (first = true ∨ (s.inode p).iSize.toNat % 512 = 0 ∨ written = count) →
    ((s.inode p).iSize.toNat + (count.toNat - written.toNat) ≤ 71680 →
      ∀ j k, Touched (s.inode p).iSize.toNat (count.toNat - written.toNat) j →
        Touched (s.inode p).iSize.toNat (count.toNat - written.toNat) k → blocks j = blocks k →
        j = k) →
    writeLoop fd p blocks count n first src written s = .ok (w, s') →
    w = count ∧
      Stored p blocks (s.inode p).iSize.toNat (count.toNat - written.toNat) src s s' := by
  induction n with
  | zero =>
      intro s first src written _ _ _ h
      exact (fault_ok.mp h).elim
  | succ n ih =>
      intro s first src written hle hfirst hinj h
      have hle' := UInt32.le_iff_toNat_le.mp hle
      by_cases hdone : count ≤ written
      · obtain rfl : written = count := UInt32.le_antisymm hle hdone
        rw [writeLoop, if_pos hdone] at h
        obtain ⟨rfl, rfl⟩ := Code.pure_ok.mp h
        refine ⟨rfl, rfl, rfl, ?_, Or.inl (Nat.sub_self _), fun _ _ => rfl, fun _ _ _ => rfl, ?_⟩
        · rw [Nat.sub_self, Nat.add_zero, UInt32.ofNat_toNat, Function.update_eq_self]
        · intro i hi
          omega
      · obtain ⟨hleft, hsub⟩ := toNat_sub_pos hdone
        obtain ⟨hsec, h⟩ := writeLoop_turn hdone h
        rw [State.turn] at h
        have hadd := add_chunk hsec hleft
        have hchunk := chunkSize_toNat (s.inode p).iSize (count - written)
        obtain ⟨c, hc⟩ : ∃ c, c = chunkSize (s.inode p).iSize (count - written) := ⟨_, rfl⟩
        obtain ⟨pos, hpos⟩ : ∃ pos, pos = (s.inode p).iSize.toNat := ⟨_, rfl⟩
        have hdiv : ((s.inode p).iSize / 512).toNat = pos / 512 := by
          rw [hpos]
          exact UInt32.toNat_div _ _
        have hmod : ((s.inode p).iSize % 512).toNat = pos % 512 := by
          rw [hpos]
          exact UInt32.toNat_mod _ _
        rw [← hc, ← hpos] at hadd
        rw [← hc, ← hpos, hsub] at hchunk
        rw [hdiv] at hsec
        have hcount := count.toNat_lt
        have hwritten : (written + c).toNat = written.toNat + c.toNat := by
          rw [UInt32.toNat_add, Nat.mod_eq_of_lt (by omega)]
        have hsum : (s.inode p).iSize + c = UInt32.ofNat (pos + c.toNat) := by
          rw [← hadd, UInt32.ofNat_toNat]
        rw [← hc, hdiv, hmod, hsum] at h
        have hfirst' : first = true ∨ pos % 512 = 0 := by
          rcases hfirst with hfirst | hfirst | hfirst
          · exact Or.inl hfirst
          · exact Or.inr (hpos ▸ hfirst)
          · exact absurd (hfirst ▸ UInt32.le_refl _) hdone
        obtain ⟨s₁, hs₁⟩ : ∃ s₁, s₁ = ((s.writeSectors (blocks (pos / 512))
            (turnBuf s (blocks (pos / 512)) first (pos % 512) c.toNat src) 1).setSize p
              (UInt32.ofNat (pos + c.toNat))).setFile fd
            { s.fileTable fd with fdPos := (s.fileTable fd).fdPos + c } := ⟨_, rfl⟩
        have hturn : Stored p blocks pos c.toNat src s s₁ := by
          rw [hs₁]
          exact stored_turn hsec (by omega) (by omega) hfirst' _
        have hsize : (s₁.inode p).iSize.toNat = pos + c.toNat := by
          rw [hturn.inode, Function.update_self, UInt32.toNat_ofNat', Nat.mod_eq_of_lt (by omega)]
        have hrest : count.toNat - (written + c).toNat = count.toNat - written.toNat - c.toNat := by
          omega
        have hsplit : count.toNat - written.toNat =
          c.toNat + (count.toNat - written.toNat - c.toNat) := by omega
        have hfull : pos % 512 + c.toNat = 512 ∨ count.toNat - written.toNat - c.toNat = 0 := by
          omega
        rw [← hpos] at hinj ⊢
        rw [← hs₁] at h
        -- what is left starts a sector
        have hnext := ih (UInt32.le_iff_toNat_le.mpr (by omega)) ?_ ?_ h
        · obtain ⟨hw, hnext⟩ := hnext
          rw [hsize, hrest] at hnext
          refine ⟨hw, ?_⟩
          rw [hsplit]
          apply hturn.append hnext (by omega) (by omega) hfull
          rw [← hsplit]
          apply hinj
          have h₁ := hturn.fits
          have h₂ := hnext.fits
          omega
        · right
          rw [hsize, ← UInt32.toNat_inj, hwritten]
          omega
        · intro hend j k hj hk
          rw [hsize, hrest] at hend hj hk
          refine hinj (by omega) j k ?_ ?_
          · rw [Touched] at hj ⊢
            omega
          · rw [Touched] at hk ⊢
            omega

end Loop

section Taking

variable {p : Ptr} {s s₁ s' : State}

/-- More blocks are in use. -/
structure MoreUsed (s s' : State) : Prop where
  part : s'.part = s.part
  allocated : ∀ lba, s.Allocated lba → s'.Allocated lba

theorem MoreUsed.fresh (h : MoreUsed s s') {lba : UInt32} (hlba : s'.Fresh lba) : s.Fresh lba := by
  have hidx : s'.blockIdx lba = s.blockIdx lba := by rw [State.blockIdx, h.part, State.blockIdx]
  have hdata := hlba.data
  have hin := hlba.inMap
  rw [h.part] at hdata
  rw [hidx, State.blockBits, h.part, ← State.blockBits] at hin
  refine ⟨hdata, hin, Bool.eq_false_iff.mpr fun hbit => ?_⟩
  exact hlba.ne_allocated (h.allocated lba ⟨hdata, hin, hbit⟩) rfl

theorem MoreUsed.trans (h : MoreUsed s s₁) (h' : MoreUsed s₁ s') : MoreUsed s s' :=
  ⟨h'.part.trans h.part, fun lba hlba => h'.allocated lba (h.allocated lba hlba)⟩

/-- The blocks from index `i` to `i + n` were taken; those below `direct` are in `i_sectors`. -/
structure Takes (p : Ptr) (direct i n : Nat) (blocks blocks' : Nat → UInt32) (s s' : State) : Prop
    extends MoreUsed s s' where
  data : SameData s s'
  size : (s'.inode p).iSize = (s.inode p).iSize
  bound : n = 0 ∨ i + n ≤ 140
  same : ∀ j, j < i ∨ i + n ≤ j → blocks' j = blocks j
  fresh : ∀ j, i ≤ j → j < i + n → s.Fresh (blocks' j) ∧ s'.Allocated (blocks' j)
  distinct : ∀ j k, i ≤ j → j < k → k < i + n → blocks' j ≠ blocks' k
  pointers : ∀ j, (s'.inode p).iSectors j =
    if i ≤ j ∧ j < i + n ∧ j < direct then blocks' j else (s.inode p).iSectors j

/-- The state after block `i` of the file was taken. -/
def State.takeBlock (s : State) (p : Ptr) (direct i : Nat) (lba : UInt32) : State :=
  if i < direct then (s.take lba).setSector p i lba else s.take lba

theorem takes_block {direct i : Nat} {lba : UInt32} {blocks : Nat → UInt32} (h : s.Fresh lba)
    (hi : i < 140) :
    Takes p direct i 1 blocks (Function.update blocks i lba) s (s.takeBlock p direct i lba) := by
  have hdisk : (s.takeBlock p direct i lba).disk = (s.take lba).disk := by
    rw [State.takeBlock]
    split
    · rfl
    · rfl
  have hpart : (s.takeBlock p direct i lba).part = s.part := by
    rw [State.takeBlock]
    split
    · rfl
    · rfl
  have hall {lba' : UInt32} (h' : (s.take lba).Allocated lba') :
      (s.takeBlock p direct i lba).Allocated lba' := by
    rw [State.takeBlock]
    split
    · exact ⟨h'.data, h'.inMap, h'.bit⟩
    · exact h'
  refine ⟨⟨hpart, fun lba' h' => hall (allocated_take h')⟩, ?_, ?_, Or.inr (by omega), ?_, ?_, ?_, ?_⟩
  · intro lba' hlba'
    rw [hdisk]
    exact sameData_take h lba' hlba'
  · rw [State.takeBlock]
    split
    · simp [State.setSector, take_inode]
    · rfl
  · intro j hj
    exact Function.update_of_ne (by omega) _ _
  · intro j hj hj'
    obtain rfl : j = i := by omega
    rw [Function.update_self]
    exact ⟨h, hall (take_allocated h)⟩
  · intro j k
    omega
  · intro j
    rw [State.takeBlock]
    by_cases hj : j = i
    · subst hj
      by_cases hdirect : j < direct
      · simp [State.setSector, hdirect]
      · simp [hdirect, take_inode]
    · rw [if_neg (c := i ≤ j ∧ j < i + 1 ∧ j < direct) (by omega)]
      by_cases hdirect : i < direct
      · simp [State.setSector, hdirect, take_inode, hj]
      · simp [hdirect, take_inode]

theorem Takes.cons {direct i n : Nat} {blocks blocks₁ blocks' : Nat → UInt32}
    (h : Takes p direct i 1 blocks blocks₁ s s₁)
    (h' : Takes p direct (i + 1) n blocks₁ blocks' s₁ s') :
    Takes p direct i (n + 1) blocks blocks' s s' := by
  have hhead : blocks' i = blocks₁ i := h'.same i (Or.inl (by omega))
  obtain ⟨hfresh, hall⟩ := h.fresh i le_rfl (by omega)
  have hbound := h.bound
  refine ⟨h.toMoreUsed.trans h'.toMoreUsed, ?_, h'.size.trans h.size, ?_, ?_, ?_, ?_, ?_⟩
  · intro lba hlba
    rw [h'.data lba (by rw [h.part]; exact hlba), h.data lba hlba]
  · have hbound' := h'.bound
    omega
  · intro j hj
    rw [h'.same j (by omega), h.same j (by omega)]
  · intro j hj hj'
    by_cases hij : j = i
    · rw [hij, hhead]
      exact ⟨hfresh, h'.allocated _ hall⟩
    · obtain ⟨hf, ha⟩ := h'.fresh j (by omega) (by omega)
      exact ⟨h.toMoreUsed.fresh hf, ha⟩
  · intro j k hj hjk hk
    by_cases hij : j = i
    · rw [hij, hhead]
      exact (h'.fresh k (by omega) (by omega)).1.ne_allocated hall
    · exact h'.distinct j k (by omega) hjk (by omega)
  · intro j
    rw [h'.pointers j, h.pointers j]
    by_cases hij : j = i
    · rw [hij, if_neg (by omega), hhead]
      by_cases hd : i < direct
      · rw [if_pos (by omega), if_pos (by omega)]
      · rw [if_neg (by omega), if_neg (by omega)]
    · rw [if_neg (c := i ≤ j ∧ j < i + 1 ∧ j < direct) (by omega)]
      by_cases hd : i + 1 ≤ j ∧ j < i + 1 + n ∧ j < direct
      · rw [if_pos hd, if_pos (by omega)]
      · rw [if_neg hd, if_neg (by omega)]

private theorem allocBlocks_takes {direct : Nat} {checkIdx : Bool} {blocks' : Nat → UInt32}
    (n : Nat) (hdirect : direct ≤ 12) : ∀ {s : State} {blocks : Nat → UInt32} {i : Nat},
    allocBlocks p direct checkIdx blocks i n s = .ok (some blocks', s') →
      Takes p direct i n blocks blocks' s s' := by
  induction n with
  | zero =>
      intro s blocks i h
      obtain ⟨hblocks, rfl⟩ := Code.pure_ok.mp h
      obtain rfl := Option.some.inj hblocks
      refine ⟨⟨rfl, fun _ h => h⟩, fun _ _ => rfl, rfl, Or.inl rfl, fun _ _ => rfl, ?_, ?_, ?_⟩
      · intro j
        omega
      · intro j k
        omega
      · intro j
        rw [if_neg (by omega)]
  | succ n ih =>
      intro s blocks i h
      rw [allocBlocks] at h
      obtain ⟨r, s₁, h₁, h⟩ := Code.bind_ok.mp h
      cases r with
      | none =>
          obtain ⟨h, -⟩ := Code.pure_ok.mp h
          cases h
      | some lba =>
          obtain ⟨hfresh, rfl⟩ := blockBitmapAlloc_fresh h₁
          dsimp only at h
          rw [Code.get_bind] at h
          have hblock : (i < 140) ∧ allocBlocks p direct checkIdx (Function.update blocks i lba)
              (i + 1) n (s.takeBlock p direct i lba) = .ok (some blocks', s') := by
            rw [State.takeBlock]
            split at h
            · rename_i hi
              rw [if_pos hi]
              simp only [Code.bind_ok, assert_ok, Code.modify_bind] at h
              obtain ⟨_, s₂, ⟨rfl, -⟩, _, s₃, ⟨rfl, -⟩, _, s₄, hsync, h⟩ := h
              rw [bitmapSync_block] at hsync
              obtain ⟨-, rfl⟩ := Prod.mk.inj (Except.ok.inj hsync)
              exact ⟨by omega, h⟩
            · rename_i hi
              rw [if_neg hi]
              simp only [Code.bind_ok, require_ok] at h
              obtain ⟨_, s₂, ⟨rfl, hlt⟩, _, s₃, hsync, h⟩ := h
              rw [bitmapSync_block] at hsync
              obtain ⟨-, rfl⟩ := Prod.mk.inj (Except.ok.inj hsync)
              exact ⟨hlt, h⟩
          exact (takes_block hfresh hblock.1).cons (ih hblock.2)

end Taking

section Growing

variable {p : Ptr} {s s₁ s' : State}

/-- The first `n` block pointers are there, and the table when one of them is in it. -/
structure Covers (ino : Inode) (disk : Bytes) (n : Nat) : Prop where
  blocks : ∀ k < 140, ino.allBlocks disk k ≠ 0 ↔ k < n
  table : ino.iSectors 12 ≠ 0 ↔ 12 < n

/-- The file has got more blocks: what it had it has still, and the rest was free. -/
structure Grew (p : Ptr) (s s' : State) : Prop extends MoreUsed s s' where
  data : ∀ lba : UInt32, s.part.sb.dataStartLba.toNat ≤ lba.toNat →
    lba ≠ (s'.inode p).iSectors 12 → sectorOf s'.disk lba = sectorOf s.disk lba
  size : (s'.inode p).iSize = (s.inode p).iSize
  refs : ∀ i ≤ 140, (s'.inode p).refs s'.disk i = (s.inode p).refs s.disk i ∨
    (s.inode p).refs s.disk i = 0 ∧ s.Fresh ((s'.inode p).refs s'.disk i)
  owns : OwnsBlocks s' (s'.inode p)

theorem Grew.refl (h : OwnsBlocks s (s.inode p)) : Grew p s s :=
  ⟨⟨rfl, fun _ h => h⟩, fun _ _ _ => rfl, rfl, fun _ _ => Or.inl rfl, h⟩

theorem Grew.trans (h : Grew p s s₁) (h' : Grew p s₁ s') : Grew p s s' := by
  refine ⟨h.toMoreUsed.trans h'.toMoreUsed, ?_, h'.size.trans h.size, ?_, h'.owns⟩
  · intro lba hlba hne
    rw [h'.data lba (by rw [h.part]; exact hlba) hne]
    apply h.data lba hlba
    -- a table that was there stays the table
    rcases h'.refs 140 le_rfl with hsame | ⟨hzero, -⟩
    · rw [refs_table, refs_table] at hsame
      rwa [← hsame]
    · rw [refs_table] at hzero
      rw [hzero]
      rintro rfl
      have hdata := s.part.layout.data
      have : (0 : UInt32).toNat = 0 := rfl
      omega
  · intro i hi
    rcases h'.refs i hi with hsame | ⟨hzero, hfresh⟩
    · rw [hsame]
      exact h.refs i hi
    · rcases h.refs i hi with hsame | ⟨-, hfresh'⟩
      · exact Or.inr ⟨hsame ▸ hzero, h.toMoreUsed.fresh hfresh⟩
      · exact absurd hzero hfresh'.ne_zero

private theorem grew_of (hs : OwnsBlocks s (s.inode p)) (hmore : MoreUsed s s')
    (hdata : ∀ lba : UInt32, s.part.sb.dataStartLba.toNat ≤ lba.toNat →
      lba ≠ (s'.inode p).iSectors 12 → sectorOf s'.disk lba = sectorOf s.disk lba)
    (hsize : (s'.inode p).iSize = (s.inode p).iSize)
    (hrefs : ∀ i ≤ 140, (s'.inode p).refs s'.disk i = (s.inode p).refs s.disk i ∨
      (s.inode p).refs s.disk i = 0 ∧ s.Fresh ((s'.inode p).refs s'.disk i) ∧
        s'.Allocated ((s'.inode p).refs s'.disk i))
    (hnew : ∀ i ≤ 140, ∀ j ≤ 140, (s.inode p).refs s.disk i = 0 → (s.inode p).refs s.disk j = 0 →
      (s'.inode p).refs s'.disk i ≠ 0 →
      (s'.inode p).refs s'.disk i = (s'.inode p).refs s'.disk j → i = j) : Grew p s s' := by
  refine ⟨hmore, hdata, hsize, ?_, ?_, ?_⟩
  · intro i hi
    exact (hrefs i hi).imp_right fun h => ⟨h.1, h.2.1⟩
  · intro i hi hne
    rcases hrefs i hi with hsame | ⟨-, -, hall⟩
    · rw [hsame] at hne ⊢
      exact hmore.allocated _ (hs.allocated i hi hne)
    · exact hall
  · intro i hi j hj hne heq
    rcases hrefs i hi with hi' | ⟨hi₀, hif, -⟩
    · have hold : (s.inode p).refs s.disk i ≠ 0 := hi' ▸ hne
      rcases hrefs j hj with hj' | ⟨hj₀, hjf, -⟩
      · rw [hi', hj'] at heq
        exact hs.distinct i hi j hj hold heq
      · rw [hi'] at heq
        exact absurd heq (hjf.ne_allocated (hs.allocated i hi hold))
    · rcases hrefs j hj with hj' | ⟨hj₀, -, -⟩
      · by_cases hold : (s.inode p).refs s.disk j = 0
        · exact absurd (heq.trans (hj'.trans hold)) hne
        · rw [hj'] at heq
          exact absurd heq.symm (hif.ne_allocated (hs.allocated j hj hold))
      · exact hnew i hi j hj hi₀ hj₀ hne heq

/-- What `file_write` does to the pointers: the blocks from `has` to `will` are new, and so is the
table when the first of its entries is. -/
structure Extended (p : Ptr) (has will : Nat) (blocks : Nat → UInt32) (s s' : State) : Prop
    extends MoreUsed s s' where
  data : ∀ lba : UInt32, s.part.sb.dataStartLba.toNat ≤ lba.toNat →
    lba ≠ (s'.inode p).iSectors 12 → sectorOf s'.disk lba = sectorOf s.disk lba
  size : (s'.inode p).iSize = (s.inode p).iSize
  bound : will ≤ 140
  pointers : ∀ j < 140, (s'.inode p).allBlocks s'.disk j =
    if has ≤ j ∧ j < will then blocks j else (s.inode p).allBlocks s.disk j
  fresh : ∀ j, has ≤ j → j < will → s.Fresh (blocks j) ∧ s'.Allocated (blocks j)
  distinct : ∀ j k, has ≤ j → j < k → k < will → blocks j ≠ blocks k
  table : (s'.inode p).iSectors 12 = (s.inode p).iSectors 12 ∧ (12 < has ∨ will ≤ 12) ∨
    has ≤ 12 ∧ 12 < will ∧ s.Fresh ((s'.inode p).iSectors 12) ∧
      s'.Allocated ((s'.inode p).iSectors 12) ∧
      ∀ j, has ≤ j → j < will → blocks j ≠ (s'.inode p).iSectors 12

private theorem Extended.covers {has will : Nat} {blocks : Nat → UInt32}
    (h : Extended p has will blocks s s') (hle : has ≤ will)
    (hs : Covers (s.inode p) s.disk has) : Covers (s'.inode p) s'.disk will := by
  constructor
  · intro k hk
    rw [h.pointers k hk]
    split
    · rename_i hnew
      exact iff_of_true (h.fresh k hnew.1 hnew.2).1.ne_zero hnew.2
    · rw [hs.blocks k hk]
      omega
  · rcases h.table with ⟨hsame, hno⟩ | ⟨-, hlt, hfresh, -⟩
    · rw [hsame, hs.table]
      omega
    · exact iff_of_true hfresh.ne_zero hlt

private theorem Extended.grew {has will : Nat} {blocks : Nat → UInt32}
    (h : Extended p has will blocks s s') (hs : Covers (s.inode p) s.disk has)
    (howns : OwnsBlocks s (s.inode p)) : Grew p s s' := by
  have hblock {j : Nat} (hj : j < 140) (hold : (s.inode p).refs s.disk j = 0)
      (hne : (s'.inode p).refs s'.disk j ≠ 0) :
      (has ≤ j ∧ j < will) ∧ (s'.inode p).refs s'.disk j = blocks j := by
    rw [refs_block _ _ hj] at hold hne ⊢
    rw [h.pointers j hj] at hne ⊢
    by_cases hnew : has ≤ j ∧ j < will
    · exact ⟨hnew, if_pos hnew⟩
    · rw [if_neg hnew] at hne
      exact absurd hold hne
  have htable (hold : (s.inode p).refs s.disk 140 = 0) (hne : (s'.inode p).refs s'.disk 140 ≠ 0) :
      s.Fresh ((s'.inode p).iSectors 12) ∧ s'.Allocated ((s'.inode p).iSectors 12) ∧
      ∀ j, has ≤ j → j < will → blocks j ≠ (s'.inode p).iSectors 12 := by
    rw [refs_table] at hold hne
    rcases h.table with ⟨hsame, -⟩ | ⟨-, -, hnew⟩
    · exact absurd (hsame.trans hold) hne
    · exact hnew
  refine grew_of howns h.toMoreUsed h.data h.size ?_ ?_
  · intro i hi
    by_cases hi' : i < 140
    · rw [refs_block _ _ hi', refs_block _ _ hi', h.pointers i hi']
      split
      · rename_i hnew
        have hzero : (s.inode p).allBlocks s.disk i = 0 := by
          by_contra hne
          have := (hs.blocks i hi').mp hne
          omega
        exact Or.inr ⟨hzero, h.fresh i hnew.1 hnew.2⟩
      · exact Or.inl rfl
    · obtain rfl : i = 140 := by omega
      rw [refs_table, refs_table]
      rcases h.table with ⟨hsame, -⟩ | ⟨hno, -, hfresh, hall, -⟩
      · exact Or.inl hsame
      · have hzero : (s.inode p).iSectors 12 = 0 := by
          by_contra hne
          have := hs.table.mp hne
          omega
        exact Or.inr ⟨hzero, hfresh, hall⟩
  · intro i hi j hj hiz hjz hne heq
    have hne' : (s'.inode p).refs s'.disk j ≠ 0 := heq ▸ hne
    by_cases hi' : i < 140
    · obtain ⟨hin, hib⟩ := hblock hi' hiz hne
      by_cases hj' : j < 140
      · obtain ⟨hjn, hjb⟩ := hblock hj' hjz hne'
        rw [hib, hjb] at heq
        rcases Nat.lt_trichotomy i j with hlt | hsame | hlt
        · exact absurd heq (h.distinct i j hin.1 hlt hjn.2)
        · exact hsame
        · exact absurd heq.symm (h.distinct j i hjn.1 hlt hin.2)
      · obtain rfl : j = 140 := by omega
        rw [hib, refs_table] at heq
        exact absurd heq ((htable hjz hne').2.2 i hin.1 hin.2)
    · obtain rfl : i = 140 := by omega
      by_cases hj' : j < 140
      · obtain ⟨hjn, hjb⟩ := hblock hj' hjz hne'
        rw [hjb, refs_table] at heq
        exact absurd heq.symm ((htable hiz hne).2.2 j hjn.1 hjn.2)
      · omega

private theorem extended_direct {has n : Nat} {blocks blocks' : Nat → UInt32}
    (h : Takes p 12 has n blocks blocks' s s') (hle : has + n ≤ 12)
    (hs : Covers (s.inode p) s.disk has) : Extended p has (has + n) blocks' s s' := by
  have htable : (s'.inode p).iSectors 12 = (s.inode p).iSectors 12 := by
    rw [h.pointers 12, if_neg (by omega)]
  have hnone : (s.inode p).iSectors 12 = 0 := by
    by_contra hne
    have := hs.table.mp hne
    omega
  refine ⟨h.toMoreUsed, fun lba hlba _ => h.data lba hlba, h.size, by omega, ?_, h.fresh, h.distinct,
    Or.inl ⟨htable, by omega⟩⟩
  intro j hj
  by_cases hj' : j < 12
  · rw [allBlocks_direct _ _ hj', allBlocks_direct _ _ hj', h.pointers j]
    by_cases hnew : has ≤ j ∧ j < has + n
    · rw [if_pos hnew, if_pos ⟨hnew.1, hnew.2, hj'⟩]
    · rw [if_neg hnew, if_neg fun h => hnew ⟨h.1, h.2.1⟩]
  · rw [if_neg (by omega), allBlocks_of_noTable hnone _ (by omega),
      allBlocks_of_noTable (htable.trans hnone) _ (by omega)]

private theorem allBlocks_writeTable {table : UInt32} {blocks : Nat → UInt32} {j : Nat}
    (hj : 12 ≤ j) (hj' : j < 140) (htable : (s.inode p).iSectors 12 = table) (hne : table ≠ 0) :
    (s.inode p).allBlocks
      (s.writeSectors table (Bytes.ofWords fun k => blocks (12 + k)) 1).disk j = blocks j := by
  have hentry := allBlocks_newTable htable hne
    (fun a ha => sectorOf_writeSectors_self s table (Bytes.ofWords fun k => blocks (12 + k)) ha)
    hj hj'
  rwa [show 12 + (j - 12) = j by omega] at hentry

private theorem extended_table {has n : Nat} {blocks' : Nat → UInt32}
    (h : Takes p 0 has n (tableBlocks s.disk ((s.inode p).iSectors 12) noBlocks) blocks' s s₁)
    (hlt : 12 < has) (hlast : has ≤ 140) (hs : Covers (s.inode p) s.disk has) :
    Extended p has (has + n) blocks' s (s₁.writeSectors ((s.inode p).iSectors 12)
      (Bytes.ofWords fun k => blocks' (12 + k)) 1) := by
  have hpointers (j : Nat) : (s₁.inode p).iSectors j = (s.inode p).iSectors j := by
    rw [h.pointers j, if_neg (by omega)]
  have hne : (s.inode p).iSectors 12 ≠ 0 := hs.table.mpr hlt
  have hall {lba : UInt32} (h' : s₁.Allocated lba) :
      (s₁.writeSectors ((s.inode p).iSectors 12) (Bytes.ofWords fun k => blocks' (12 + k)) 1).Allocated
        lba := ⟨h'.data, h'.inMap, h'.bit⟩
  have hbound := h.bound
  refine ⟨⟨h.part, fun lba hlba => hall (h.allocated lba hlba)⟩, ?_, h.size, by omega, ?_, ?_,
    h.distinct, Or.inl ⟨hpointers 12, Or.inl hlt⟩⟩
  · intro lba hlba hlba'
    rw [State.writeSectors_inode, hpointers] at hlba'
    rw [sectorOf_writeSectors_of_ne _ hlba', h.data lba hlba]
  · intro j hj
    by_cases hj' : j < 12
    · rw [allBlocks_direct _ _ hj', State.writeSectors_inode, hpointers, if_neg (by omega),
        allBlocks_direct _ _ hj']
    · rw [State.writeSectors_inode, allBlocks_writeTable (by omega) hj (hpointers 12) hne]
      split
      · rfl
      · rw [h.same j (by omega), tableBlocks, if_pos ⟨by omega, hj⟩, Inode.allBlocks,
          if_neg hj', if_pos ⟨hj, hne⟩]
  · intro j hj hj'
    obtain ⟨hf, ha⟩ := h.fresh j hj hj'
    exact ⟨hf, hall ha⟩

/-- The table is taken before the blocks. -/
def State.takeTable (s : State) (p : Ptr) (table : UInt32) : State :=
  (s.setBlockBit (s.blockIdx table) true).setSector p 12 table

private theorem extended_across {has n : Nat} {table : UInt32} {blocks blocks' : Nat → UInt32}
    (hfresh : s.Fresh table) (h : Takes p 12 has n blocks blocks' (s.takeTable p table) s₁)
    (hle : has ≤ 12) (hlt : 12 < has + n) (hzero : ∀ j, has ≤ j → blocks j = 0)
    (hs : Covers (s.inode p) s.disk has) :
    Extended p has (has + n) blocks'
      s (s₁.writeSectors table (Bytes.ofWords fun k => blocks' (12 + k)) 1) := by
  have hmore : MoreUsed s (s.takeTable p table) := ⟨rfl, fun lba hlba => by
    have : (s.take table).Allocated lba := allocated_take hlba
    exact ⟨this.data, this.inMap, this.bit⟩⟩
  have htaken : (s.takeTable p table).Allocated table := by
    have := take_allocated hfresh
    exact ⟨this.data, this.inMap, this.bit⟩
  have hpointers (j : Nat) : ((s.takeTable p table).inode p).iSectors j =
      if j = 12 then table else (s.inode p).iSectors j := by
    by_cases hj : j = 12
    · simp [State.takeTable, State.setSector, hj]
    · simp [State.takeTable, State.setSector, hj]
  have htable : (s₁.inode p).iSectors 12 = table := by
    rw [h.pointers, if_neg (by omega), hpointers, if_pos rfl]
  have hnone : (s.inode p).iSectors 12 = 0 := by
    by_contra hne
    have := hs.table.mp hne
    omega
  have hall {lba : UInt32} (h' : s₁.Allocated lba) :
      (s₁.writeSectors table (Bytes.ofWords fun k => blocks' (12 + k)) 1).Allocated lba :=
    ⟨h'.data, h'.inMap, h'.bit⟩
  have hbound := h.bound
  refine ⟨⟨h.part, fun lba hlba => hall (h.allocated lba (hmore.allocated lba hlba))⟩, ?_, ?_,
    by omega, ?_, ?_, h.distinct, Or.inr ⟨hle, hlt, ?_⟩⟩
  · intro lba hlba hlba'
    rw [State.writeSectors_inode, htable] at hlba'
    rw [sectorOf_writeSectors_of_ne _ hlba', h.data lba hlba]
    rfl
  · refine h.size.trans ?_
    simp [State.takeTable, State.setSector]
  · intro j hj
    by_cases hj' : j < 12
    · rw [allBlocks_direct _ _ hj', State.writeSectors_inode, h.pointers, hpointers,
        if_neg (c := j = 12) (by omega), allBlocks_direct _ _ hj']
      by_cases hnew : has ≤ j ∧ j < has + n
      · rw [if_pos hnew, if_pos ⟨hnew.1, hnew.2, hj'⟩]
      · rw [if_neg hnew, if_neg fun h => hnew ⟨h.1, h.2.1⟩]
    · rw [State.writeSectors_inode, allBlocks_writeTable (by omega) hj htable hfresh.ne_zero]
      split
      · rfl
      · rw [h.same j (by omega), hzero j (by omega), allBlocks_of_noTable hnone _ (by omega)]
  · intro j hj hj'
    obtain ⟨hf, ha⟩ := h.fresh j hj hj'
    exact ⟨hmore.fresh hf, hall ha⟩
  · rw [State.writeSectors_inode, htable]
    refine ⟨hfresh, hall (h.allocated _ htaken), fun j hj hj' => ?_⟩
    exact ((h.fresh j hj hj').1.ne_allocated htaken).symm

theorem lastBlock_direct {has : Nat} (h : has ≤ 12) (hpos : 0 < has) (ino : Inode) (disk : Bytes) :
    Function.update noBlocks (has - 1) (ino.iSectors (has - 1)) (has - 1) =
      ino.allBlocks disk (has - 1) := by
  rw [Function.update_self, allBlocks_direct _ _ (by omega)]

theorem lastBlock_table {has : Nat} (h : 12 < has) (hlast : has ≤ 140) {ino : Inode} {disk : Bytes}
    (htable : ino.iSectors 12 ≠ 0) :
    tableBlocks disk (ino.iSectors 12) noBlocks (has - 1) = ino.allBlocks disk (has - 1) := by
  rw [tableBlocks, if_pos (by omega), Inode.allBlocks, if_neg (by omega),
    if_pos ⟨by omega, htable⟩]

private theorem moreBlocks_extended {has will : Nat} {blocks : Nat → UInt32} (hpos : 0 < has)
    (hlt : has < will) (hlast : has ≤ 140) (hs : Covers (s.inode p) s.disk has)
    (h : moreBlocks p has will s = .ok (some blocks, s')) :
    Extended p has will blocks s s' ∧
      blocks (has - 1) = (s.inode p).allBlocks s.disk (has - 1) := by
  have hsum : has + (will - has) = will := by omega
  rw [moreBlocks, Code.get_bind] at h
  split at h
  · rename_i hlow
    simp only [Code.bind_ok, require_ok, assert_ok] at h
    obtain ⟨_, s₂, ⟨rfl, -⟩, _, s₃, ⟨rfl, -⟩, h⟩ := h
    have htakes := allocBlocks_takes _ le_rfl h
    have hext := extended_direct htakes (by omega) hs
    rw [hsum] at hext
    refine ⟨hext, ?_⟩
    rw [htakes.same _ (Or.inl (by omega)), lastBlock_direct (by omega) hpos _ s₃.disk]
  · split at h
    · rename_i hhigh hlow
      obtain ⟨r, s₁, h₁, h⟩ := Code.bind_ok.mp h
      cases r with
      | none =>
          obtain ⟨h, -⟩ := Code.pure_ok.mp h
          cases h
      | some table =>
          obtain ⟨hfresh, rfl⟩ := blockBitmapAlloc_fresh h₁
          simp only [Code.bind_ok, assert_ok, Code.modify_bind] at h
          obtain ⟨_, s₂, ⟨rfl, -⟩, r, s₃, h₃, h⟩ := h
          cases r with
          | none =>
              obtain ⟨h, -⟩ := Code.pure_ok.mp h
              cases h
          | some blocks' =>
              simp only [Code.bind_ok, writeTable_ok, Code.pure_ok] at h
              obtain ⟨_, s₄, ⟨-, rfl⟩, hblocks, rfl⟩ := h
              obtain rfl := Option.some.inj hblocks
              have htakes := allocBlocks_takes _ le_rfl h₃
              have hext := extended_across hfresh htakes hlow (by omega) (fun j hj => ?_) hs
              · rw [hsum] at hext
                refine ⟨hext, ?_⟩
                rw [htakes.same _ (Or.inl (by omega)), lastBlock_direct hlow hpos _ s.disk]
              · rw [Function.update_of_ne (by omega)]
                rfl
    · rename_i hhigh hhas
      simp only [Code.bind_ok, readTable_ok] at h
      obtain ⟨_, s₂, ⟨-, rfl, rfl⟩, r, s₃, h₃, h⟩ := h
      cases r with
      | none =>
          obtain ⟨h, -⟩ := Code.pure_ok.mp h
          cases h
      | some blocks' =>
          simp only [Code.bind_ok, writeTable_ok, Code.pure_ok] at h
          obtain ⟨_, s₄, ⟨-, rfl⟩, hblocks, rfl⟩ := h
          obtain rfl := Option.some.inj hblocks
          have htakes := allocBlocks_takes _ (by decide) h₃
          have hext := extended_table htakes (by omega) hlast hs
          rw [hsum] at hext
          refine ⟨hext, ?_⟩
          rw [htakes.same _ (Or.inl (by omega)),
            lastBlock_table (by omega) hlast (hs.table.mpr (by omega))]

private theorem writeBlocks_grew {has will : Nat} {blocks : Nat → UInt32} (hpos : 0 < has)
    (hle : has ≤ will) (hlast : has ≤ 140) (hs : Covers (s.inode p) s.disk has)
    (howns : OwnsBlocks s (s.inode p)) (h : writeBlocks p has will s = .ok (some blocks, s')) :
    Grew p s s' ∧ Covers (s'.inode p) s'.disk will ∧ will ≤ 140 ∧
      ∀ k, has ≤ k + 1 → k < will → blocks k = (s'.inode p).allBlocks s'.disk k := by
  rw [writeBlocks] at h
  split at h
  · rename_i heq
    subst heq
    have hend : s' = s ∧ blocks (will - 1) = (s.inode p).allBlocks s.disk (will - 1) := by
      rw [sameBlocks, Code.get_bind] at h
      split at h
      · rename_i hlow
        obtain ⟨hblocks, rfl⟩ := Code.pure_ok.mp h
        obtain rfl := Option.some.inj hblocks
        exact ⟨rfl, lastBlock_direct hlow hpos _ _⟩
      · rename_i hhigh
        simp only [Code.bind_ok, readTable_ok, Code.pure_ok] at h
        obtain ⟨_, s₂, ⟨-, rfl, rfl⟩, hblocks, rfl⟩ := h
        obtain rfl := Option.some.inj hblocks
        exact ⟨rfl, lastBlock_table (by omega) hlast (hs.table.mpr (by omega))⟩
    obtain ⟨rfl, hblock⟩ := hend
    refine ⟨Grew.refl howns, hs, hlast, fun k hk hk' => ?_⟩
    rwa [show k = will - 1 by omega]
  · rename_i hne
    obtain ⟨hext, hblock⟩ := moreBlocks_extended hpos (by omega) hlast hs h
    refine ⟨hext.grew hs howns, hext.covers hle hs, hext.bound, fun k hk hk' => ?_⟩
    have hbound := hext.bound
    rw [hext.pointers k (by omega)]
    split
    · rfl
    · rw [show k = has - 1 by omega]
      exact hblock

theorem firstBlock_grew (howns : OwnsBlocks s (s.inode p)) (hfit : PointersFit (s.inode p) s.disk)
    (h : firstBlock p s = .ok (true, s')) :
    Grew p s s' ∧ Covers (s'.inode p) s'.disk ((s.inode p).iSize.toNat / 512 + 1) := by
  rw [firstBlock, Code.get_bind] at h
  rcases hfit.blocks with ⟨hsize, hnone⟩ | ⟨hlt, hblocks⟩
  · have hzero : (s.inode p).iSectors 0 = 0 := hnone 0 (by omega)
    have hsize' : (s.inode p).iSize.toNat = 0 := by rw [hsize]; rfl
    have hcov : Covers (s.inode p) s.disk 0 := by
      refine ⟨fun k hk => iff_of_false (not_not.mpr (hnone k hk)) (by omega), ?_⟩
      rw [hfit.table, hsize']
      omega
    rw [if_pos hzero] at h
    obtain ⟨r, s₁, h₁, h⟩ := Code.bind_ok.mp h
    cases r with
    | none =>
        obtain ⟨h, -⟩ := Code.pure_ok.mp h
        cases h
    | some lba =>
        obtain ⟨hfresh, rfl⟩ := blockBitmapAlloc_fresh h₁
        simp only [Code.modify_bind, Code.bind_ok, assert_ok, Code.pure_ok] at h
        obtain ⟨_, s₂, ⟨rfl, -⟩, _, s₃, hsync, -, rfl⟩ := h
        rw [bitmapSync_block] at hsync
        obtain ⟨-, rfl⟩ := Prod.mk.inj (Except.ok.inj hsync)
        have htakes : Takes p 12 0 1 noBlocks (Function.update noBlocks 0 lba) s
          (s.takeBlock p 12 0 lba) := takes_block hfresh (by decide)
        have hext := extended_direct htakes (by decide) hcov
        rw [hsize']
        exact ⟨hext.grew hcov howns, hext.covers (by decide) hcov⟩
  · have hne : (s.inode p).iSectors 0 ≠ 0 := (hblocks 0 (by omega)).mpr (by omega)
    rw [if_neg hne] at h
    obtain ⟨-, rfl⟩ := Code.pure_ok.mp h
    refine ⟨Grew.refl howns, fun k hk => ?_, ?_⟩
    · rw [hblocks k hk]
      omega
    · rw [hfit.table]
      omega

end Growing

section Write

/-- What a file contains. -/
def Inode.contents (ino : Inode) (disk : Bytes) : List UInt8 :=
  (List.range ino.iSize.toNat).map fun a => ino.byteAt disk a

/-- An inode number that was given out. -/
def State.InUse (s : State) (n : UInt32) : Prop :=
  n.toNat < 4096 ∧ s.inodeBitmap n.toNat = true

/-- No two files or directories have a sector in common. -/
structure DisjointBlocks (s : State) : Prop where
  owns : ∀ n, s.InUse n → OwnsBlocks s (s.inodeOf n)
  disjoint : ∀ m n, s.InUse m → s.InUse n → m ≠ n → ∀ i ≤ 140, ∀ j ≤ 140,
    (s.inodeOf m).refs s.disk i ≠ 0 → (s.inodeOf m).refs s.disk i ≠ (s.inodeOf n).refs s.disk j

/-- The file of slot `fd`, in the list `open_inode`. -/
structure OpenFile (s : State) (fd : Nat) (p : Ptr) : Prop where
  slot : (s.fileTable fd).fdInode = some p
  listed : s.findInode (s.inode p).iNo = some p
  inUse : s.InUse (s.inode p).iNo

/-- What a write of `count` bytes is to do to the file and to the others. -/
structure Wrote (s s' : State) (p : Ptr) (src : Bytes) (count : UInt32) : Prop where
  contents : (s'.inode p).contents s'.disk =
    (s.inode p).contents s.disk ++ (List.range count.toNat).map src
  size : (s'.inode p).iSize.toNat = (s.inode p).iSize.toNat + count.toNat
  fits : PointersFit (s'.inode p) s'.disk
  refs : ∀ i ≤ 140, (s'.inode p).refs s'.disk i = (s.inode p).refs s.disk i ∨
    (s.inode p).refs s.disk i = 0 ∧ s.Fresh ((s'.inode p).refs s'.disk i)
  owns : OwnsBlocks s' (s'.inode p)
  others : ∀ m, s.InUse m → m ≠ (s.inode p).iNo → ∀ i ≤ 140, (s.inodeOf m).refs s.disk i ≠ 0 →
    sectorOf s'.disk ((s.inodeOf m).refs s.disk i) = sectorOf s.disk ((s.inodeOf m).refs s.disk i)

variable {fd : Nat} {p : Ptr} {src : Bytes} {count : UInt32} {s s₂ s₃ s' : State}
  {blocks : Nat → UInt32}

/-- The inodes, the bitmap and the data area are the same. -/
structure SameFiles (s s' : State) : Prop where
  part : s'.part = s.part
  blockBitmap : s'.blockBitmap = s.blockBitmap
  inode : s'.inode = s.inode
  data : SameData s s'

theorem Allocated.congr {lba : UInt32} (h : s.Allocated lba) (hpart : s'.part = s.part)
    (hbits : s'.blockBitmap = s.blockBitmap) : s'.Allocated lba := by
  have hidx : s'.blockIdx lba = s.blockIdx lba := by rw [State.blockIdx, hpart, State.blockIdx]
  refine ⟨?_, ?_, ?_⟩
  · rw [hpart]
    exact h.data
  · rw [hidx, State.blockBits, hpart]
    exact h.inMap
  · rw [hidx, hbits]
    exact h.bit

theorem OwnsBlocks.congr {ino ino' : Inode} (h : OwnsBlocks s ino) (hpart : s'.part = s.part)
    (hbits : s'.blockBitmap = s.blockBitmap)
    (hrefs : ∀ i ≤ 140, ino'.refs s'.disk i = ino.refs s.disk i) : OwnsBlocks s' ino' := by
  constructor
  · intro i hi hne
    rw [hrefs i hi] at hne ⊢
    exact Allocated.congr (h.allocated i hi hne) hpart hbits
  · intro i hi j hj hne heq
    rw [hrefs i hi] at hne
    rw [hrefs i hi, hrefs j hj] at heq
    exact h.distinct i hi j hj hne heq

/-- The stages of a write: the blocks are there in `s₂`, the data is in them in `s₃`, and the rest
concerns the inode table and the heap. -/
structure Stages (p : Ptr) (src : Bytes) (count : UInt32) (blocks : Nat → UInt32)
    (s s₂ s₃ s' : State) : Prop where
  fit : PointersFit (s.inode p) s.disk
  grew : Grew p s s₂
  bound : ((s.inode p).iSize.toNat + count.toNat) / 512 < 140
  covers : Covers (s₂.inode p) s₂.disk (((s.inode p).iSize.toNat + count.toNat) / 512 + 1)
  collected : ∀ k, (s.inode p).iSize.toNat / 512 ≤ k →
    k ≤ ((s.inode p).iSize.toNat + count.toNat) / 512 →
    blocks k = (s₂.inode p).allBlocks s₂.disk k
  stored : Stored p blocks (s.inode p).iSize.toNat count.toNat src s₂ s₃
  same : SameFiles s₃ s'

private theorem Stages.sector_kept (h : Stages p src count blocks s s₂ s₃ s') {lba : UInt32}
    (hdata : s.part.sb.dataStartLba.toNat ≤ lba.toNat) (htouched : ∀ k,
      Touched (s.inode p).iSize.toNat count.toNat k → lba ≠ blocks k) :
    sectorOf s'.disk lba = sectorOf s₂.disk lba := by
  rw [h.same.data lba (by rw [h.stored.part, h.grew.part]; exact hdata), h.stored.others lba htouched]

private theorem Stages.touched (h : Stages p src count blocks s s₂ s₃ s') {k : Nat}
    (hk : Touched (s.inode p).iSize.toNat count.toNat k) :
    k < 140 ∧ blocks k = (s₂.inode p).allBlocks s₂.disk k ∧ blocks k ≠ 0 := by
  have hbound := h.bound
  rw [Touched] at hk
  have hlt : k < 140 := by omega
  have heq := h.collected k hk.2.1 (by omega)
  refine ⟨hlt, heq, ?_⟩
  rw [heq, h.covers.blocks k hlt]
  omega

theorem Stages.iSectors (h : Stages p src count blocks s s₂ s₃ s') :
    (s'.inode p).iSectors = (s₂.inode p).iSectors := by
  rw [h.same.inode, h.stored.inode, Function.update_self]

theorem Stages.size (h : Stages p src count blocks s s₂ s₃ s') :
    (s'.inode p).iSize.toNat = (s.inode p).iSize.toNat + count.toNat := by
  have hbound := h.bound
  rw [h.same.inode, h.stored.inode, Function.update_self, UInt32.toNat_ofNat',
    Nat.mod_eq_of_lt (by omega)]

private theorem Grew.data_start (h : Grew p s s₂) :
    s₂.part.sb.dataStartLba = s.part.sb.dataStartLba := by
  rw [h.part]

theorem Stages.pointers (h : Stages p src count blocks s s₂ s₃ s') (i : Nat) :
    (s'.inode p).allBlocks s'.disk i = (s₂.inode p).allBlocks s₂.disk i := by
  apply allBlocks_congr
  · intro i _
    rw [h.iSectors]
  · intro htable
    apply h.sector_kept
    · have hdata := (h.grew.owns.table htable).data
      rwa [h.grew.data_start] at hdata
    · intro k hk
      obtain ⟨hlt, heq, -⟩ := h.touched hk
      rw [heq]
      exact h.grew.owns.table_ne hlt htable

theorem Stages.refs (h : Stages p src count blocks s s₂ s₃ s') (i : Nat) :
    (s'.inode p).refs s'.disk i = (s₂.inode p).refs s₂.disk i := by
  rw [Inode.refs, Inode.refs, h.pointers, h.iSectors]

private theorem Stages.old_block (h : Stages p src count blocks s s₂ s₃ s') {k : Nat} (hk : k < 140)
    (hne : (s.inode p).allBlocks s.disk k ≠ 0) :
    (s₂.inode p).allBlocks s₂.disk k = (s.inode p).allBlocks s.disk k := by
  have hrefs := h.grew.refs k (by omega)
  rw [refs_block _ _ hk, refs_block _ _ hk] at hrefs
  exact hrefs.resolve_right fun hzero => hne hzero.1

private theorem Stages.old_byte (h : Stages p src count blocks s s₂ s₃ s') {a : Nat}
    (ha : a < (s.inode p).iSize.toNat) :
    (s'.inode p).byteAt s'.disk a = (s.inode p).byteAt s.disk a := by
  have hbound := h.bound
  have hne : (s.inode p).allBlocks s.disk (a / 512) ≠ 0 := by
    rcases h.fit.blocks with ⟨hzero, -⟩ | ⟨-, hblocks⟩
    · rw [hzero] at ha
      exact absurd ha (Nat.not_lt_zero _)
    · rw [hblocks _ (by omega)]
      omega
  have hold := h.old_block (by omega) hne
  have hall := h.grew.owns.block (i := a / 512) (by omega) (hold ▸ hne)
  have hdata := hall.data
  rw [h.grew.data_start] at hdata
  have htable : (s₂.inode p).allBlocks s₂.disk (a / 512) ≠ (s₂.inode p).iSectors 12 := by
    by_cases hzero : (s₂.inode p).iSectors 12 = 0
    · rw [hzero, hold]
      exact hne
    · exact (h.grew.owns.table_ne (by omega) hzero).symm
  rw [Inode.byteAt, Inode.byteAt, byteIn_sectorOf, byteIn_sectorOf, h.pointers, ← hold,
    ← h.grew.data _ hdata htable]
  by_cases hlast : a / 512 = (s.inode p).iSize.toNat / 512
  · -- the block of the old end was read before it was written
    have hb := h.collected (a / 512) (by omega) (by omega)
    have hbefore := h.stored.before a ha hlast
    rw [byteIn_sectorOf, byteIn_sectorOf, hb] at hbefore
    rw [h.same.data _ (by rw [h.stored.part, h.grew.part]; exact hdata), hbefore]
  · rw [h.sector_kept hdata]
    intro k hk
    obtain ⟨hlt, heq, -⟩ := h.touched hk
    rw [Touched] at hk
    rw [heq]
    exact h.grew.owns.block_ne (by omega) hlt (by omega) (hold ▸ hne)

private theorem Stages.new_byte (h : Stages p src count blocks s s₂ s₃ s') {i : Nat}
    (hi : i < count.toNat) :
    (s'.inode p).byteAt s'.disk ((s.inode p).iSize.toNat + i) = src i := by
  have htouched : Touched (s.inode p).iSize.toNat count.toNat
      (((s.inode p).iSize.toNat + i) / 512) := by
    rw [Touched]
    omega
  obtain ⟨hlt, heq, hne⟩ := h.touched htouched
  have hdata := (h.grew.owns.block hlt (heq ▸ hne)).data
  rw [h.grew.data_start, ← h.grew.part, ← h.stored.part] at hdata
  rw [← h.stored.written i hi, Inode.byteAt, byteIn_sectorOf, byteIn_sectorOf, h.pointers, heq,
    h.same.data _ hdata]

theorem Stages.contents (h : Stages p src count blocks s s₂ s₃ s') :
    (s'.inode p).contents s'.disk =
      (s.inode p).contents s.disk ++ (List.range count.toNat).map src := by
  rw [Inode.contents, h.size, List.range_add, List.map_append, List.map_map, Inode.contents]
  congr 1
  · apply List.map_congr_left
    intro a ha
    exact h.old_byte (List.mem_range.mp ha)
  · apply List.map_congr_left
    intro i hi
    exact h.new_byte (List.mem_range.mp hi)

theorem Stages.fits (h : Stages p src count blocks s s₂ s₃ s') :
    PointersFit (s'.inode p) s'.disk := by
  have hsize := h.size
  refine ⟨Or.inr ⟨by rw [hsize]; exact h.bound, fun k hk => ?_⟩, ?_⟩
  · rw [h.pointers, h.covers.blocks k hk, hsize]
    omega
  · rw [h.iSectors, h.covers.table, hsize]
    omega

theorem Stages.others (h : Stages p src count blocks s s₂ s₃ s') (hs : DisjointBlocks s)
    (hfile : OpenFile s fd p) {m : UInt32} (hm : s.InUse m) (hne : m ≠ (s.inode p).iNo) {i : Nat}
    (hi : i ≤ 140) (href : (s.inodeOf m).refs s.disk i ≠ 0) :
    sectorOf s'.disk ((s.inodeOf m).refs s.disk i) =
      sectorOf s.disk ((s.inodeOf m).refs s.disk i) := by
  have hfileOf : s.inodeOf (s.inode p).iNo = s.inode p := by rw [State.inodeOf, hfile.listed]
  have hall := (hs.owns m hm).allocated i hi href
  have hother {j : Nat} (hj : j ≤ 140) :
      (s.inodeOf m).refs s.disk i ≠ (s₂.inode p).refs s₂.disk j := by
    rcases h.grew.refs j hj with hsame | ⟨-, hfresh⟩
    · rw [hsame, ← hfileOf]
      exact hs.disjoint m _ hm hfile.inUse hne i hi j hj href
    · exact hfresh.ne_allocated hall
  rw [h.sector_kept hall.data, h.grew.data _ hall.data]
  · have := hother (j := 140) le_rfl
    rwa [refs_table] at this
  · intro k hk
    obtain ⟨hlt, heq, -⟩ := h.touched hk
    rw [heq, ← refs_block _ _ hlt]
    exact hother (by omega)

private theorem Stages.wrote (h : Stages p src count blocks s s₂ s₃ s') (hs : DisjointBlocks s)
    (hfile : OpenFile s fd p) : Wrote s s' p src count where
  contents := h.contents
  size := h.size
  fits := h.fits
  refs i hi := by
    rw [h.refs]
    exact h.grew.refs i hi
  owns := by
    apply h.grew.owns.congr (h.same.part.trans h.stored.part)
      (h.same.blockBitmap.trans h.stored.blockBitmap)
    intro i _
    exact h.refs i
  others m hm hne i hi href := h.others hs hfile hm hne hi href

theorem grew_of_same (howns : OwnsBlocks s (s.inode p)) (hpart : s'.part = s.part)
    (hbits : s'.blockBitmap = s.blockBitmap) (hdisk : s'.disk = s.disk)
    (hinode : s'.inode = s.inode) : Grew p s s' := by
  have hrefs (i : Nat) : (s'.inode p).refs s'.disk i = (s.inode p).refs s.disk i := by
    rw [hdisk, hinode]
  refine ⟨⟨hpart, fun lba h => Allocated.congr h hpart hbits⟩, fun lba _ _ => ?_, ?_,
    fun i _ => Or.inl (hrefs i), howns.congr hpart hbits fun i _ => hrefs i⟩
  · rw [hdisk]
  · rw [hinode]

private theorem writeFile_blocks {s₁ : State} (howns : OwnsBlocks s (s.inode p))
    (hfit : PointersFit (s.inode p) s.disk) (hfirst : firstBlock p s = .ok (true, s₁))
    (hblocks : writeBlocks p ((s₁.inode p).iSize / 512 + 1).toNat
      (((s₁.inode p).iSize + count) / 512 + 1).toNat s₁ = .ok (some blocks, s₂))
    (hend : (s.inode p).iSize.toNat + count.toNat ≤ 71680) :
    Grew p s s₂ ∧
      Covers (s₂.inode p) s₂.disk (((s.inode p).iSize.toNat + count.toNat) / 512 + 1) ∧
      ((s.inode p).iSize.toNat + count.toNat) / 512 < 140 ∧
      ∀ k, (s.inode p).iSize.toNat / 512 ≤ k →
        k ≤ ((s.inode p).iSize.toNat + count.toNat) / 512 →
        blocks k = (s₂.inode p).allBlocks s₂.disk k := by
  have hsize := hfit.size_lt
  obtain ⟨hgrew, hcov⟩ := firstBlock_grew howns hfit hfirst
  have hone : (1 : UInt32).toNat = 1 := rfl
  have hhas : ((s₁.inode p).iSize / 512 + 1).toNat = (s.inode p).iSize.toNat / 512 + 1 := by
    rw [hgrew.size, UInt32.toNat_add, UInt32.toNat_div, hone]
    change ((s.inode p).iSize.toNat / 512 + 1) % 2 ^ 32 = _
    omega
  have hwill : (((s₁.inode p).iSize + count) / 512 + 1).toNat =
      ((s.inode p).iSize.toNat + count.toNat) / 512 + 1 := by
    rw [hgrew.size, UInt32.toNat_add, UInt32.toNat_div, UInt32.toNat_add, hone]
    change (((s.inode p).iSize.toNat + count.toNat) % 2 ^ 32 / 512 + 1) % 2 ^ 32 = _
    omega
  rw [hhas, hwill] at hblocks
  obtain ⟨hgrew', hcov', hlast, hall⟩ := writeBlocks_grew (by omega) (by omega) (by omega) hcov
    hgrew.owns hblocks
  exact ⟨hgrew.trans hgrew', hcov', by omega, fun k hk hk' => hall k (by omega) (by omega)⟩

/-- A write that returns went through the stages. -/
theorem writeFile_stages {s₀ : State} {r : UInt32}
    (hfit : PointersFit (s.inode p) s.disk) (hgrew : Grew p s s₀) (hinode : s₀.inode = s.inode)
    (hdisk : s₀.disk = s.disk) (h : writeFile fd p src count s₀ = .ok (some r, s')) :
    r = count ∧ ∃ blocks s₂ s₃, Stages p src count blocks s s₂ s₃ s' := by
  rw [writeFile] at h
  obtain ⟨ok, s₁, hfirst, h⟩ := Code.bind_ok.mp h
  cases ok with
  | false =>
      obtain ⟨h, -⟩ := Code.pure_ok.mp h
      cases h
  | true =>
      simp only [↓reduceIte, Code.get_bind, Code.bind_ok, assert_ok] at h
      obtain ⟨_, _, ⟨rfl, -⟩, r', s₂, hblocks, h⟩ := h
      cases r' with
      | none =>
          obtain ⟨h, -⟩ := Code.pure_ok.mp h
          cases h
      | some blocks =>
          dsimp only at h
          have hfit₀ : PointersFit (s₀.inode p) s₀.disk := by
            rw [hinode, hdisk]
            exact hfit
          have hall := writeFile_blocks hgrew.owns hfit₀ hfirst hblocks
          rw [hinode] at hall
          have hsize₂ : (s₂.inode p).iSize = (s.inode p).iSize := by
            rw [(unmoved_writeBlocks _ _ _ _ _ _ hblocks).size p,
              (stable_unmoved.firstBlock p _ _ _ hfirst).size p, hinode]
          rw [writeData, Code.modify_bind] at h
          obtain ⟨w, s₃, hloop, hrest⟩ := Code.bind_ok.mp h
          obtain ⟨s₂', hs₂'⟩ : ∃ s₂' : State, s₂' = s₂.setFile fd
            { s₂.fileTable fd with fdPos := (s₂.inode p).iSize - 1 } := ⟨_, rfl⟩
          rw [← hs₂'] at hloop
          have hinode₂ : s₂'.inode = s₂.inode := by
            rw [hs₂']
            rfl
          have hdisk₂ : s₂'.disk = s₂.disk := by
            rw [hs₂']
            rfl
          have hzero : count.toNat - (0 : UInt32).toNat = count.toNat := rfl
          have hinj (hend : (s₂'.inode p).iSize.toNat + (count.toNat - (0 : UInt32).toNat) ≤ 71680)
              (j k : Nat)
              (hj : Touched (s₂'.inode p).iSize.toNat (count.toNat - (0 : UInt32).toNat) j)
              (hk : Touched (s₂'.inode p).iSize.toNat (count.toNat - (0 : UInt32).toNat) k)
              (heq : blocks j = blocks k) : j = k := by
            rw [hinode₂, hsize₂, hzero] at hend hj hk
            obtain ⟨hg, hcov, hlast, hcollected⟩ := hall hend
            rw [Touched] at hj hk
            rw [hcollected j (by omega) (by omega), hcollected k (by omega) (by omega)] at heq
            by_contra hne
            refine hg.owns.block_ne (by omega) (by omega) hne ?_ heq
            exact (hcov.blocks j (by omega)).mpr (by omega)
          obtain ⟨rfl, hstored⟩ := writeLoop_stored 142 UInt32.zero_le (Or.inl rfl) hinj hloop
          rw [hinode₂, hsize₂, hzero] at hstored
          have hend : (s.inode p).iSize.toNat + w.toNat ≤ 71680 := by
            have hsize := hfit.size_lt
            have hfits := hstored.fits
            omega
          obtain ⟨hg, hcov, hlast, hcollected⟩ := hall hend
          rw [← hdisk₂, ← hinode₂] at hcov hcollected
          have hg' : Grew p s₂ s₂' := grew_of_same hg.owns (by rw [hs₂']; rfl) (by rw [hs₂']; rfl)
            hdisk₂ hinode₂
          simp only [Code.bind_ok, sysMalloc_ok] at hrest
          obtain ⟨ok, s₄, ⟨-, rfl⟩, hrest⟩ := hrest
          split at hrest
          · obtain ⟨hrest, -⟩ := Code.pure_ok.mp hrest
            cases hrest
          · rw [Code.get_bind, Code.bind_of_ok (inodeSync_eq _ _)] at hrest
            simp only [Code.bind_ok, sysFree_ok, Code.pure_ok] at hrest
            obtain ⟨_, _, rfl, _, _, rfl, _, _, rfl, hr, rfl⟩ := hrest
            refine ⟨Option.some.inj hr, blocks, s₂', s₃, hfit, (hgrew.trans hg).trans hg', hlast,
              hcov, hcollected, hstored, rfl, rfl, rfl, ?_⟩
            exact sameData_setSlot (s := s₃.setMem s₃.malloc)
              (Nat.lt_trans (Nat.mod_lt _ (by decide)) (by decide)) _

theorem file_write_appends (hs : DisjointBlocks s) (hfile : OpenFile s fd p)
    (hfit : PointersFit (s.inode p) s.disk)
    (h : fileWrite fd src count s = .ok (some count, s')) : Wrote s s' p src count := by
  have howns : OwnsBlocks s (s.inode p) := by
    have := hs.owns _ hfile.inUse
    rwa [State.inodeOf, hfile.listed] at this
  rw [fileWrite, Code.get_bind, hfile.slot] at h
  dsimp only at h
  split at h
  · obtain ⟨h, -⟩ := Code.pure_ok.mp h
    cases h
  simp only [Code.bind_ok, sysMalloc_ok] at h
  obtain ⟨ok, s₁, ⟨-, rfl⟩, h⟩ := h
  split at h
  · obtain ⟨h, -⟩ := Code.pure_ok.mp h
    cases h
  simp only [Code.bind_ok, sysMalloc_ok] at h
  obtain ⟨ok', s₁, ⟨-, rfl⟩, h⟩ := h
  split at h
  · obtain ⟨h, -⟩ := Code.pure_ok.mp h
    cases h
  have hgrew : Grew p s ((s.setMem s.malloc).setMem (s.setMem s.malloc).malloc) :=
    grew_of_same howns rfl rfl rfl rfl
  obtain ⟨-, blocks, s₂, s₃, hstages⟩ := writeFile_stages hfit hgrew rfl rfl h
  exact hstages.wrote hs hfile

/-- An empty file with number 1, just created and open in slot 3. -/
def createdState : State :=
  { State.fresh smallPartition Bytes.zero with
    blockBitmap := fun i => i = 0
    inodeBitmap := fun i => i < 2
    inode := fun _ => (inodeInit 1).opened
    openInode := [1]
    nextInode := 2
    fileTable := Function.update (fun _ => ⟨0, 0, none⟩) 3 ⟨0, oRdwr, some 1⟩ }

private theorem created_noBlocks (n : UInt32) (i : Nat) :
    (createdState.inodeOf n).iSectors i = 0 := by
  rw [State.inodeOf]
  split
  · rfl
  · rw [Inode.ofBytes]
    dsimp only
    split
    · rfl
    · rfl

theorem refs_of_noBlocks {ino : Inode} (h : ∀ i, ino.iSectors i = 0) (disk : Bytes) (i : Nat) :
    ino.refs disk i = 0 := by
  rw [Inode.refs]
  split
  · exact h 12
  · by_cases hi : i < 12
    · rw [allBlocks_direct _ _ hi, h]
    · exact allBlocks_of_noTable (h 12) disk (by omega)

private theorem created_disjoint : DisjointBlocks createdState := by
  refine ⟨fun n _ => ⟨?_, ?_⟩, ?_⟩
  · intro i _ hne
    exact absurd (refs_of_noBlocks (created_noBlocks n) _ i) hne
  · intro i _ j _ hne
    exact absurd (refs_of_noBlocks (created_noBlocks n) _ i) hne
  · intro m n _ _ _ i _ j _ hne
    exact absurd (refs_of_noBlocks (created_noBlocks m) _ i) hne

private theorem created_fits : PointersFit (createdState.inode 1) createdState.disk := by
  refine ⟨Or.inl ⟨rfl, fun k hk => ?_⟩, by decide⟩
  have hrefs : (createdState.inode 1).refs createdState.disk k = 0 :=
    refs_of_noBlocks (fun _ => rfl) _ k
  rwa [refs_block _ _ hk] at hrefs

theorem file_write_appends_created : ∃ s', fileWrite 3 (fun _ => 7) 600 createdState =
    .ok (some 600, s') ∧ Wrote createdState s' 1 (fun _ => 7) 600 := by
  obtain ⟨s', h⟩ : ∃ s', fileWrite 3 (fun _ => 7) 600 createdState = .ok (some 600, s') :=
    Code.returns_of_toOption (by decide +kernel)
  exact ⟨s', h, file_write_appends created_disjoint ⟨rfl, rfl, by decide, by decide⟩ created_fits h⟩

end Write

end Aitos.Fs
