import Aitos.Fs.Allocation

/-!
# Directory images

What the 24 bytes of an entry are read back as, and a directory of any number of entries that the
pointers of an inode can hold, its slots filled in order.
-/

namespace Aitos.Fs

open Framework

section Image

private theorem cstr_nul (n : Nat) : ∀ {b : Bytes}, (cstr b n).length < n →
    b (cstr b n).length = 0 := by
  induction n with
  | zero =>
      intro b h
      omega
  | succ n ih =>
      intro b h
      rw [cstr] at h ⊢
      split
      · rename_i hzero
        exact hzero
      · rename_i hzero
        rw [if_neg hzero, List.length_cons] at h
        have hnul := ih (b := b.drop 1) (by omega)
        rw [Bytes.drop, Nat.add_comm] at hnul
        exact hnul

variable {name : List UInt8} {iNo fType : UInt32} {buf : Bytes} {k : Nat}

private theorem entryImage_name {a : Nat} (ha : a < 16) :
    entryImage name iNo fType a = name.getD a 0 := by
  rw [entryImage, Bytes.blit_of_outside _ _ _ _ (by omega), Bytes.blit_of_outside _ _ _ _ (by omega),
    storeName]
  by_cases hlt : a < name.length
  · rw [Bytes.blit_of_lt _ _ _ _ (Nat.zero_le _) (by omega), Nat.sub_zero]
  · rw [Bytes.blit_of_outside _ _ _ _ (by omega), List.getD_eq_default _ _ (by omega)]
    rfl

private theorem entryImage_number {a : Nat} (ha : a < 4) :
    entryImage name iNo fType (16 + a) = Bytes.ofWord iNo a := by
  rw [entryImage, Bytes.blit_of_outside _ _ _ _ (by omega), Bytes.blit_add _ _ _ _ ha]

private theorem entryImage_type {a : Nat} (ha : a < 4) :
    entryImage name iNo fType (20 + a) = Bytes.ofWord fType a := Bytes.blit_add _ _ _ _ ha

theorem entryAt_image (h : ∀ a < 24, buf (24 * k + a) = entryImage name iNo fType a) :
    entryAt buf k = ⟨iNo, fType⟩ := by
  have hno : buf.word (24 * k + 16) = iNo := by
    rw [← Bytes.word_ofWord iNo]
    apply Bytes.word_congr
    intro a ha
    rw [Nat.add_assoc, h _ (by omega), entryImage_number ha, Nat.zero_add]
  have htype : buf.word (24 * k + 20) = fType := by
    rw [← Bytes.word_ofWord fType]
    apply Bytes.word_congr
    intro a ha
    rw [Nat.add_assoc, h _ (by omega), entryImage_type ha, Nat.zero_add]
  rw [entryAt, hno, htype]

/-- A name is read back exactly when a NUL follows it: a name of sixteen characters fills its field,
and the first byte of the inode number follows. -/
theorem entryName_image (hk : k < entriesPerSec) (hnul : 0 ∉ name) (hlen : name.length ≤ 16)
    (h : ∀ a < 24, buf (24 * k + a) = entryImage name iNo fType a) :
    entryName buf k = name ↔ name.length ≤ 15 ∨ iNo.toNat % 256 = 0 := by
  rw [entriesPerSec] at hk
  have hbyte : (Bytes.ofWord iNo 0).toNat = iNo.toNat % 256 := by
    rw [Bytes.toNat_ofWord, Nat.pow_zero, Nat.div_one]
  constructor
  · intro hname
    by_contra hcond
    obtain ⟨hlong, hbyte'⟩ := not_or.mp hcond
    have hsixteen : name.length = 16 := by omega
    have hend := cstr_nul (512 - 24 * k) (b := buf.drop (24 * k))
    rw [entryName] at hname
    rw [hname, hsixteen] at hend
    have hzero := hend (by omega)
    rw [Bytes.drop, h 16 (by omega), entryImage_number (a := 0) (by omega)] at hzero
    rw [hzero] at hbyte
    exact hbyte' hbyte.symm
  · intro hcond
    apply cstr_eq hnul (by omega)
    · intro i hi
      rw [Bytes.drop, h i (by omega), entryImage_name (by omega)]
    · rw [Bytes.drop, h _ (by omega)]
      by_cases hshort : name.length ≤ 15
      · rw [entryImage_name (by omega), List.getD_eq_default _ _ le_rfl]
      · have hsixteen : name.length = 16 := by omega
        rw [hsixteen, entryImage_number (a := 0) (by omega)]
        apply UInt8.toNat_inj.mp
        rw [hbyte]
        exact hcond.resolve_left hshort

end Image

section Filled

/-- A partition with a data area of 1388 sectors. -/
def widePartition : Partition where
  startLba := 1
  secCnt := 2000
  sb := ⟨3, 1, 4, 1, 5, 613⟩
  layout := ⟨by decide, by decide, by decide, by decide, by decide, by decide, by decide, by decide,
    by decide⟩

/-- The entry number `t` of the directory, counted from `.` on. -/
def filledName (t : Nat) : List UInt8 :=
  if t = 0 then dot
  else if t = 1 then dotdot
  else [UInt8.ofNat (128 + t / 64), UInt8.ofNat (128 + t % 64)]

def filledNo (t : Nat) : UInt32 := if t = 0 then 1 else if t = 1 then 0 else UInt32.ofNat (100 + t)

def filledType (t : Nat) : UInt32 := if t < 2 then ftDirectory else ftRegular

/-- Inode 1 is a directory with `n` entries: block `i` is sector `614 + i`, the table sector 763. -/
def filledInode (n : Nat) : Inode where
  iNo := 1
  iSize := UInt32.ofNat (24 * n)
  iOpenCnts := 1
  writeDeny := false
  iSectors i :=
    if i < 12 then if 21 * i < n then UInt32.ofNat (614 + i) else 0
    else if i = 12 ∧ 252 < n then 763 else 0

def filledDisk (n : Nat) : Bytes := fun a =>
  if a / 512 = 763 then
    Bytes.ofWords (fun j => if 21 * (12 + j) < n then UInt32.ofNat (614 + (12 + j)) else 0) (a % 512)
  else if 614 ≤ a / 512 ∧ a / 512 < 754 then
    if a % 512 / 24 < 21 ∧ 21 * (a / 512 - 614) + a % 512 / 24 < n then
      entryImage (filledName (21 * (a / 512 - 614) + a % 512 / 24))
        (filledNo (21 * (a / 512 - 614) + a % 512 / 24))
        (filledType (21 * (a / 512 - 614) + a % 512 / 24)) (a % 512 % 24)
    else 0
  else if 2636 ≤ a ∧ a < 2712 then (filledInode n).pureImage (a - 2636)
  else 0

/-- The directory is open; the first 200 blocks are in use. -/
def filledState (n : Nat) : State :=
  { State.fresh widePartition (filledDisk n) with
    blockBitmap := fun i => i < 200
    inode := fun _ => filledInode n
    nextInode := 2
    openInode := [1]
    dir := fun _ => ⟨1, 0⟩ }

variable {n : Nat}

theorem filled_lba {i : Nat} (hi : i < 140) : (UInt32.ofNat (614 + i)).toNat = 614 + i := by
  rw [UInt32.toNat_ofNat', Nat.mod_eq_of_lt (by omega)]

theorem filled_allBlocks (n i : Nat) : (filledInode n).allBlocks (filledDisk n) i =
    if i < 140 ∧ 21 * i < n then UInt32.ofNat (614 + i) else 0 := by
  by_cases hi : i < 12
  · have hcond : (i < 140 ∧ 21 * i < n) ↔ 21 * i < n := by omega
    rw [allBlocks_direct _ _ hi]
    simp only [filledInode, if_pos hi, hcond]
  by_cases htable : 252 < n
  · have h12 : (filledInode n).iSectors 12 = 763 := by
      simp only [filledInode, Nat.lt_irrefl, if_false, true_and, if_pos htable]
    by_cases hi' : i < 140
    · have hw : (sectorOf (filledDisk n) 763).word (4 * (i - 12)) =
          (Bytes.ofWords fun j => if 21 * (12 + j) < n then UInt32.ofNat (614 + (12 + j)) else 0).word
            (4 * (i - 12)) := by
        apply Bytes.word_congr
        intro a ha
        have hsec : (763 : UInt32).toNat = 763 := rfl
        rw [sectorOf_lt _ _ (by omega), hsec, filledDisk, if_pos (by omega)]
        congr 1
        omega
      rw [allBlocks_table _ _ (by omega) hi' (by rw [h12]; decide), h12, hw, Bytes.word_ofWords,
        show 12 + (i - 12) = i by omega]
      simp only [hi', true_and]
    · rw [allBlocks_of_ge _ _ (by omega), if_neg (by omega)]
  · have h12 : (filledInode n).iSectors 12 = 0 := by
      simp only [filledInode, Nat.lt_irrefl, if_false, true_and, if_neg htable]
    rw [allBlocks_of_noTable h12 _ (by omega), if_neg (by omega)]

private theorem filled_slot {i k a : Nat} (hi : i < 140) (hk : k < 21) (ha : a < 24) :
    sectorOf (filledDisk n) (UInt32.ofNat (614 + i)) (24 * k + a) =
      if 21 * i + k < n then
        entryImage (filledName (21 * i + k)) (filledNo (21 * i + k)) (filledType (21 * i + k)) a
      else 0 := by
  have hsec : (512 * (614 + i) + (24 * k + a)) / 512 = 614 + i := by omega
  have hoff : (512 * (614 + i) + (24 * k + a)) % 512 = 24 * k + a := by omega
  have hslot : (24 * k + a) / 24 = k := by omega
  have hbyte : (24 * k + a) % 24 = a := by omega
  have hblock : 614 + i - 614 = i := by omega
  rw [sectorOf_lt _ _ (by omega), filled_lba hi, filledDisk, hsec, hoff, hslot, hbyte, hblock,
    if_neg (by omega), if_pos (by omega)]
  simp only [hk, true_and]

private theorem filled_bytes {i k : Nat} (hi : i < 140) (hk : k < 21) (ht : 21 * i + k < n) :
    ∀ a < 24, sectorOf (filledDisk n) (UInt32.ofNat (614 + i)) (24 * k + a) =
      entryImage (filledName (21 * i + k)) (filledNo (21 * i + k)) (filledType (21 * i + k)) a := by
  intro a ha
  rw [filled_slot hi hk ha, if_pos ht]

theorem filled_mem_slots {x : Nat × Nat} : x ∈ (filledInode n).slots (filledDisk n) ↔
    x.1 < 140 ∧ 21 * x.1 < n ∧ x.2 < 21 := by
  rw [mem_slots, filled_allBlocks]
  constructor
  · rintro ⟨hi, hne, hk⟩
    refine ⟨hi, ?_, hk⟩
    by_contra hlt
    rw [if_neg (by omega)] at hne
    exact hne rfl
  · rintro ⟨hi, hlt, hk⟩
    refine ⟨hi, ?_, hk⟩
    rw [if_pos ⟨hi, hlt⟩]
    intro hzero
    have := congrArg UInt32.toNat hzero
    rw [filled_lba hi] at this
    have hzero' : (0 : UInt32).toNat = 0 := rfl
    omega

theorem filledName_length (t : Nat) : (filledName t).length ≤ 2 ∧ filledName t ≠ [] := by
  rw [filledName]
  split
  · decide
  · split
    · decide
    · simp

private theorem filledName_bytes {t : Nat} (ht : t < 2940) :
    (UInt8.ofNat (128 + t / 64)).toNat = 128 + t / 64 ∧
      (UInt8.ofNat (128 + t % 64)).toNat = 128 + t % 64 := by
  constructor
  · rw [UInt8.toNat_ofNat', Nat.mod_eq_of_lt (by omega)]
  · rw [UInt8.toNat_ofNat', Nat.mod_eq_of_lt (by omega)]

private theorem filledName_nul {t : Nat} (ht : t < 2940) : 0 ∉ filledName t := by
  obtain ⟨h₁, h₂⟩ := filledName_bytes ht
  have hzero : (0 : UInt8).toNat = 0 := rfl
  rw [filledName]
  split
  · decide
  · split
    · decide
    · simp only [List.mem_cons, List.not_mem_nil, or_false, not_or]
      constructor
      · intro h
        rw [← h] at h₁
        omega
      · intro h
        rw [← h] at h₂
        omega

private theorem filledName_ne_dots {t : Nat} (ht : t < 2940) (h2 : 2 ≤ t) :
    filledName t ≠ dot ∧ filledName t ≠ dotdot := by
  obtain ⟨h₁, -⟩ := filledName_bytes ht
  have hdot : (46 : UInt8).toNat = 46 := rfl
  rw [filledName, if_neg (by omega), if_neg (by omega), dot, dotdot]
  simp only [ne_eq, List.cons.injEq, reduceCtorEq, and_false, not_false_eq_true, and_true, true_and,
    not_and]
  intro h
  rw [h] at h₁
  omega

private theorem filledName_injective {t u : Nat} (ht : t < 2940) (hu : u < 2940)
    (h : filledName t = filledName u) : t = u := by
  by_cases ht2 : 2 ≤ t
  · by_cases hu2 : 2 ≤ u
    · obtain ⟨h₁, h₂⟩ := filledName_bytes ht
      obtain ⟨h₃, h₄⟩ := filledName_bytes hu
      rw [filledName, if_neg (by omega), if_neg (by omega), filledName, if_neg (by omega),
        if_neg (by omega)] at h
      simp only [List.cons.injEq, and_true] at h
      rw [h.1, h₃] at h₁
      rw [h.2, h₄] at h₂
      omega
    · obtain ⟨h₁, h₂⟩ := filledName_ne_dots ht ht2
      obtain rfl | rfl : u = 0 ∨ u = 1 := by omega
      · exact absurd h h₁
      · exact absurd h h₂
  · obtain rfl | rfl : t = 0 ∨ t = 1 := by omega
    all_goals
      by_cases hu2 : 2 ≤ u
      · obtain ⟨h₁, h₂⟩ := filledName_ne_dots hu hu2
        first
          | exact absurd h.symm h₁
          | exact absurd h.symm h₂
      · obtain rfl | rfl : u = 0 ∨ u = 1 := by omega
        all_goals first
          | rfl
          | exact absurd h (by decide)

theorem filled_nameIn {i k : Nat} (hn : n ≤ 2940) (hi : i < 140) (hlt : 21 * i < n) (hk : k < 21) :
    (filledInode n).nameIn (filledDisk n) (i, k) =
      if 21 * i + k < n then filledName (21 * i + k) else [] := by
  rw [Inode.nameIn, filled_allBlocks, if_pos ⟨hi, hlt⟩]
  split
  · rename_i ht
    have hlen := (filledName_length (21 * i + k)).1
    exact (entryName_image hk (filledName_nul (by omega)) (by omega) (filled_bytes hi hk ht)).mpr
      (Or.inl (by omega))
  · rename_i ht
    apply entryName_zero hk
    have := filled_slot (n := n) (a := 0) hi hk (by omega)
    rwa [if_neg ht, Nat.add_zero] at this

theorem filled_entryIn {i k : Nat} (hi : i < 140) (hlt : 21 * i < n) (hk : k < 21) :
    (filledInode n).entryIn (filledDisk n) (i, k) =
      if 21 * i + k < n then ⟨filledNo (21 * i + k), filledType (21 * i + k)⟩
      else ⟨0, ftUnknown⟩ := by
  rw [Inode.entryIn, filled_allBlocks, if_pos ⟨hi, hlt⟩]
  split
  · rename_i ht
    exact entryAt_image (filled_bytes hi hk ht)
  · rename_i ht
    have hzero : entryAt (sectorOf (filledDisk n) (UInt32.ofNat (614 + i))) k =
        entryAt Bytes.zero k := entryAt_congr fun a ha => by
      rw [filled_slot hi hk ha, if_neg ht]
      rfl
    rw [hzero]
    rfl

theorem filledType_ne (t : Nat) : filledType t ≠ ftUnknown := by
  rw [filledType]
  split
  · decide
  · decide

private theorem filled_live_iff {x : Nat × Nat} (hx : x ∈ (filledInode n).slots (filledDisk n)) :
    ((filledInode n).entryIn (filledDisk n) x).fType ≠ ftUnknown ↔ 21 * x.1 + x.2 < n := by
  obtain ⟨hi, hlt, hk⟩ := filled_mem_slots.mp hx
  rw [filled_entryIn hi hlt hk]
  split
  · rename_i ht
    exact ⟨fun _ => ht, fun _ => filledType_ne _⟩
  · rename_i ht
    exact ⟨fun h => absurd rfl h, fun h => absurd h ht⟩

private theorem length_filter_range (c n m : Nat) :
    ((List.range' 0 m).filter fun k => c + k < n).length = min m (n - c) := by
  rw [← List.range_eq_range']
  induction m with
  | zero => simp
  | succ m ih =>
      rw [List.range_succ, List.filter_append, List.length_append, ih, List.filter_singleton]
      by_cases h : c + m < n
      · simp [h]
        omega
      · simp [h]
        omega

private theorem length_filter_slotsFrom {blocks : Nat → UInt32} (n m : Nat) : ∀ i,
    (∀ j, i ≤ j → j < i + m → (blocks j ≠ 0 ↔ 21 * j < n)) →
    ((slotsFrom blocks i m).filter fun x => 21 * x.1 + x.2 < n).length =
      min (21 * m) (n - 21 * i) := by
  induction m with
  | zero =>
      intro i _
      simp [slotsFrom]
  | succ m ih =>
      intro i hblocks
      have hrest := ih (i + 1) fun j h₁ h₂ => hblocks j (by omega) (by omega)
      have hi := hblocks i le_rfl (by omega)
      rw [slotsFrom]
      split
      · rename_i hzero
        have hge : ¬ 21 * i < n := fun h => (hi.mpr h) hzero
        rw [hrest]
        omega
      · rename_i hne
        have hlt := hi.mp hne
        rw [List.filter_append, List.length_append, hrest, List.filter_map, List.length_map]
        have hrow := length_filter_range (21 * i) n entriesPerSec
        simp only [Function.comp_def]
        rw [hrow, entriesPerSec]
        omega

theorem filled_live_length (hn : n ≤ 2940) :
    ((filledInode n).live (filledDisk n)).length = n := by
  have hfilter : (filledInode n).live (filledDisk n) =
      ((filledInode n).slots (filledDisk n)).filter fun x => 21 * x.1 + x.2 < n := by
    apply List.filter_congr
    intro x hx
    exact decide_eq_decide.mpr (filled_live_iff hx)
  rw [hfilter, Inode.slots, length_filter_slotsFrom n 140 0 fun j _ hj => ?_]
  · omega
  · rw [filled_allBlocks]
    have hlba := filled_lba (i := j) (by omega)
    split
    · rename_i h
      refine ⟨fun _ => h.2, fun _ hzero => ?_⟩
      rw [hzero] at hlba
      have hzero' : (0 : UInt32).toNat = 0 := rfl
      omega
    · rename_i h
      exact ⟨fun hne => absurd rfl hne, fun hlt => absurd ⟨by omega, hlt⟩ h⟩

private theorem filled_refs (n : Nat) {i : Nat} (hi : i ≤ 140)
    (hne : (filledInode n).refs (filledDisk n) i ≠ 0) :
    ((filledInode n).refs (filledDisk n) i).toNat = if i = 140 then 763 else 614 + i := by
  rw [Inode.refs] at hne ⊢
  split
  · rename_i h140
    rw [if_pos h140] at hne
    by_cases htable : 252 < n
    · simp only [filledInode, Nat.lt_irrefl, if_false, true_and, if_pos htable]
      rfl
    · simp [filledInode, htable] at hne
  · rename_i h140
    rw [if_neg h140, filled_allBlocks] at hne
    rw [filled_allBlocks]
    split
    · exact filled_lba (by omega)
    · rename_i hcond
      rw [if_neg hcond] at hne
      exact absurd rfl hne

private theorem filled_owns (n : Nat) : OwnsBlocks (filledState n) (filledInode n) where
  allocated i hi hne := by
    have hlba := filled_refs n hi hne
    have hdata : (filledState n).part.sb.dataStartLba.toNat = 613 := rfl
    have hbits : (filledState n).blockBits = 4096 := rfl
    have hge : 613 ≤ ((filledInode n).refs (filledDisk n) i).toNat := by
      rw [hlba]
      split <;> omega
    have hidx : (filledState n).blockIdx ((filledInode n).refs (filledDisk n) i) < 200 := by
      rw [toNat_blockIdx (by rw [hdata]; exact hge), hdata, hlba]
      split <;> omega
    refine ⟨hge, ?_, ?_⟩
    · change (filledState n).blockIdx ((filledInode n).refs (filledDisk n) i) < _
      rw [hbits]
      omega
    · exact decide_eq_true hidx
  distinct i hi j hj hne heq := by
    have h₁ := filled_refs n hi hne
    have hne' : (filledInode n).refs (filledDisk n) j ≠ 0 := by
      rw [← show _ = (filledInode n).refs (filledDisk n) j from heq]
      exact hne
    have h₂ := filled_refs n hj hne'
    rw [show (filledInode n).refs (filledDisk n) i = (filledInode n).refs (filledDisk n) j from heq,
      h₂] at h₁
    split at h₁
    all_goals split at h₁ <;> omega

theorem filledNo_toNat {t : Nat} (h2 : 2 ≤ t) (ht : t < 2940) :
    (filledNo t).toNat = 100 + t := by
  rw [filledNo, if_neg (by omega), if_neg (by omega), UInt32.toNat_ofNat',
    Nat.mod_eq_of_lt (by omega)]

theorem filled_holds {x : Nat × Nat} (hn : n ≤ 2940)
    (hx : x ∈ (filledInode n).slots (filledDisk n)) :
    (filledInode n).HoldsIn (filledDisk n) x ↔ 2 ≤ 21 * x.1 + x.2 ∧ 21 * x.1 + x.2 < n := by
  obtain ⟨hi, hlt, hk⟩ := filled_mem_slots.mp hx
  have hname := filled_nameIn hn hi hlt hk
  change ((filledInode n).entryIn (filledDisk n) x).fType ≠ ftUnknown ∧
    (filledInode n).nameIn (filledDisk n) x ≠ dot ∧
    (filledInode n).nameIn (filledDisk n) x ≠ dotdot ↔ _
  rw [filled_live_iff hx]
  constructor
  · rintro ⟨ht, hdot, hdotdot⟩
    rw [hname, if_pos ht] at hdot hdotdot
    refine ⟨?_, ht⟩
    by_contra h2
    obtain h | h : 21 * x.1 + x.2 = 0 ∨ 21 * x.1 + x.2 = 1 := by omega
    · exact hdot (by rw [h]; rfl)
    · exact hdotdot (by rw [h]; rfl)
  · rintro ⟨h2, ht⟩
    rw [hname, if_pos ht]
    exact ⟨ht, filledName_ne_dots (by omega) h2⟩

theorem filled_wellFormed (h2 : 2 ≤ n) (hn : n ≤ 2940) :
    WellFormedDir (filledState n) (filledInode n) where
  toOwnsBlocks := filled_owns n
  short x hx := by
    obtain ⟨hi, hlt, hk⟩ := filled_mem_slots.mp hx
    have hlen := (filledName_length (21 * x.1 + x.2)).1
    have hname : (filledInode n).nameIn (filledState n).disk x = _ := filled_nameIn hn hi hlt hk
    rw [hname]
    split
    · omega
    · exact Nat.zero_le _
  free x hx := by
    obtain ⟨hi, hlt, hk⟩ := filled_mem_slots.mp hx
    have hname : (filledInode n).nameIn (filledState n).disk x = _ := filled_nameIn hn hi hlt hk
    have hentry : (filledInode n).entryIn (filledState n).disk x = _ := filled_entryIn hi hlt hk
    rw [hname, hentry]
    split
    · exact ⟨fun h => absurd h (filledName_length _).2, fun h => absurd h (filledType_ne _)⟩
    · exact ⟨fun _ => rfl, fun _ => rfl⟩
  unique x hx y hy hne heq := by
    obtain ⟨hi, hlt, hk⟩ := filled_mem_slots.mp hx
    obtain ⟨hi', hlt', hk'⟩ := filled_mem_slots.mp hy
    have hname : (filledInode n).nameIn (filledState n).disk x = _ := filled_nameIn hn hi hlt hk
    have hname' : (filledInode n).nameIn (filledState n).disk y = _ :=
      filled_nameIn hn hi' hlt' hk'
    rw [hname] at hne heq
    rw [hname'] at heq
    split at hne
    · rename_i ht
      rw [if_pos ht] at heq
      split at heq
      · have := filledName_injective (by omega) (by omega) heq
        apply Prod.ext <;> omega
      · exact absurd heq hne
    · exact absurd rfl hne
  numbers x hx y hy hholds hholds' heq := by
    obtain ⟨hi, hlt, hk⟩ := filled_mem_slots.mp hx
    obtain ⟨hi', hlt', hk'⟩ := filled_mem_slots.mp hy
    obtain ⟨h₁, ht₁⟩ := (filled_holds hn hx).mp hholds
    obtain ⟨h₂, ht₂⟩ := (filled_holds hn hy).mp hholds'
    have hentry : (filledInode n).entryIn (filledState n).disk x = _ := filled_entryIn hi hlt hk
    have hentry' : (filledInode n).entryIn (filledState n).disk y = _ :=
      filled_entryIn hi' hlt' hk'
    rw [hentry, hentry', if_pos ht₁, if_pos ht₂] at heq
    have hno := congrArg UInt32.toNat (show filledNo _ = filledNo _ from heq)
    rw [filledNo_toNat h₁ (by omega), filledNo_toNat h₂ (by omega)] at hno
    apply Prod.ext <;> omega
  firstBlock := by
    have h := filled_allBlocks n 0
    rw [allBlocks_direct _ _ (by decide), if_pos (by omega)] at h
    change (filledInode n).iSectors 0 ≠ 0
    rw [h]
    decide
  dot := by
    have h : (filledInode n).nameIn (filledState n).disk (0, 0) = _ :=
      filled_nameIn hn (by decide) (by omega) (by decide)
    rw [h, if_pos (by omega)]
    rfl
  dotdot := by
    have h : (filledInode n).nameIn (filledState n).disk (0, 1) = _ :=
      filled_nameIn hn (by decide) (by omega) (by decide)
    rw [h, if_pos (by omega)]
    rfl
  size := by
    have hlen : ((filledInode n).live (filledState n).disk).length = n := filled_live_length hn
    rw [hlen]
    change (UInt32.ofNat (24 * n)).toNat = _
    rw [UInt32.toNat_ofNat', Nat.mod_eq_of_lt (by omega)]

end Filled

end Aitos.Fs
