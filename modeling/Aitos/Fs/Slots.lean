import Aitos.Fs.Tree

/-!
# The slots of a directory

A directory is the sequence of the slots of its sectors, in the order in which `search_dir_entry`
and `dir_read` visit them.  A name is answered by the first slot that holds it.  In a well-formed
directory a slot is read within its own bytes, so that what happens to other slots and other sectors
does not change it.
-/

namespace Aitos.Fs

open Framework

section Sectors

theorem sectorOf_lt (disk : Bytes) (lba : UInt32) {a : Nat} (ha : a < 512) :
    sectorOf disk lba a = disk (512 * lba.toNat + a) := by
  rw [sectorOf, Bytes.blit_of_lt _ _ _ _ (Nat.zero_le _) (by omega), Nat.sub_zero, Bytes.drop]

theorem sectorOf_congr {disk disk' : Bytes} {lba lba' : UInt32}
    (h : ∀ a < 512, disk' (512 * lba'.toNat + a) = disk (512 * lba.toNat + a)) :
    sectorOf disk' lba' = sectorOf disk lba := by
  funext a
  by_cases ha : a < 512
  · rw [sectorOf_lt _ _ ha, sectorOf_lt _ _ ha, h a ha]
  · rw [sectorOf, sectorOf, Bytes.blit_of_outside _ _ _ _ (by omega),
      Bytes.blit_of_outside _ _ _ _ (by omega)]

theorem sectorOf_blit_self (disk buf : Bytes) (lba : UInt32) {a : Nat} (ha : a < 512) :
    sectorOf (disk.blit (512 * lba.toNat) (512 * 1) buf) lba a = buf a := by
  rw [sectorOf_lt _ _ ha, Bytes.blit_add _ _ _ _ (by omega)]

theorem sectorOf_blit_of_ne (disk buf : Bytes) {lba lba' : UInt32} (h : lba' ≠ lba) :
    sectorOf (disk.blit (512 * lba.toNat) (512 * 1) buf) lba' = sectorOf disk lba' := by
  apply sectorOf_congr
  intro a ha
  have hne : lba'.toNat ≠ lba.toNat := fun h' => h (UInt32.toNat_inj.mp h')
  apply Bytes.blit_of_outside
  omega

theorem allBlocks_table (ino : Inode) (disk : Bytes) {i : Nat} (hi : 12 ≤ i) (hi' : i < 140)
    (ht : ino.iSectors 12 ≠ 0) :
    ino.allBlocks disk i = (sectorOf disk (ino.iSectors 12)).word (4 * (i - 12)) := by
  rw [Inode.allBlocks, if_neg (by omega), if_pos ⟨hi', ht⟩]
  apply Bytes.word_congr
  intro a ha
  rw [sectorOf_lt _ _ (by omega)]
  congr 1
  omega

theorem allBlocks_newTable {ino : Inode} {disk : Bytes} {lba : UInt32} {w : Nat → UInt32}
    (ht : ino.iSectors 12 = lba) (hne : lba ≠ 0)
    (htable : ∀ a < 512, sectorOf disk lba a = Bytes.ofWords w a) {i : Nat} (hi : 12 ≤ i)
    (hi' : i < 140) : ino.allBlocks disk i = w (i - 12) := by
  rw [allBlocks_table _ _ hi hi' (by rw [ht]; exact hne), ht, ← Bytes.word_ofWords w (i - 12)]
  apply Bytes.word_congr
  intro a ha
  exact htable _ (by omega)

theorem allBlocks_direct (ino : Inode) (disk : Bytes) {i : Nat} (hi : i < 12) :
    ino.allBlocks disk i = ino.iSectors i := if_pos hi

theorem allBlocks_of_noTable {ino : Inode} (ht : ino.iSectors 12 = 0) (disk : Bytes) {i : Nat}
    (hi : 12 ≤ i) : ino.allBlocks disk i = 0 := by
  rw [Inode.allBlocks, if_neg (by omega), if_neg]
  exact fun h => h.2 ht

theorem allBlocks_of_ge (ino : Inode) (disk : Bytes) {i : Nat} (hi : 140 ≤ i) :
    ino.allBlocks disk i = 0 := by
  rw [Inode.allBlocks, if_neg (by omega), if_neg]
  omega

theorem allBlocks_congr {ino ino' : Inode} {disk disk' : Bytes}
    (h : ∀ i ≤ 12, ino'.iSectors i = ino.iSectors i)
    (ht : ino.iSectors 12 ≠ 0 →
      sectorOf disk' (ino.iSectors 12) = sectorOf disk (ino.iSectors 12)) (i : Nat) :
    ino'.allBlocks disk' i = ino.allBlocks disk i := by
  by_cases hi : i < 12
  · rw [allBlocks_direct _ _ hi, allBlocks_direct _ _ hi, h i (by omega)]
  by_cases htable : ino.iSectors 12 = 0
  · rw [allBlocks_of_noTable htable _ (by omega),
      allBlocks_of_noTable ((h 12 (by omega)).trans htable) _ (by omega)]
  by_cases hi' : i < 140
  · rw [allBlocks_table _ _ (by omega) hi' htable,
      allBlocks_table _ _ (by omega) hi' (by rw [h 12 (by omega)]; exact htable),
      h 12 (by omega), ht htable]
  · rw [allBlocks_of_ge _ _ (by omega), allBlocks_of_ge _ _ (by omega)]

end Sectors

section Names

private theorem cstr_congr (n : Nat) : ∀ {b b' : Bytes}, (cstr b n).length < n →
    (∀ a ≤ (cstr b n).length, b' a = b a) → cstr b' n = cstr b n := by
  induction n with
  | zero =>
      intro b b' h
      omega
  | succ n ih =>
      intro b b' h hsame
      have hhead := hsame 0 (Nat.zero_le _)
      rw [cstr] at h hsame ⊢
      rw [cstr, hhead]
      split
      · rfl
      · rename_i hne
        rw [if_neg hne, List.length_cons] at h hsame
        have htail : cstr (b'.drop 1) n = cstr (b.drop 1) n :=
          ih (by omega) fun a ha => hsame (1 + a) (by omega)
        rw [htail]

theorem entryName_congr {buf buf' : Bytes} {k : Nat} (hk : k < entriesPerSec)
    (hlen : (entryName buf k).length ≤ 15)
    (h : ∀ a < 24, buf' (24 * k + a) = buf (24 * k + a)) : entryName buf' k = entryName buf k := by
  rw [entriesPerSec] at hk
  rw [entryName] at hlen
  apply cstr_congr
  · omega
  · intro a ha
    exact h a (by omega)

theorem entryAt_congr {buf buf' : Bytes} {k : Nat}
    (h : ∀ a < 24, buf' (24 * k + a) = buf (24 * k + a)) : entryAt buf' k = entryAt buf k := by
  have hno : buf'.word (24 * k + 16) = buf.word (24 * k + 16) := Bytes.word_congr fun a ha => by
    rw [Nat.add_assoc, Nat.add_comm 16, h _ (by omega)]
  have htype : buf'.word (24 * k + 20) = buf.word (24 * k + 20) := Bytes.word_congr fun a ha => by
    rw [Nat.add_assoc, Nat.add_comm 20, h _ (by omega)]
  rw [entryAt, entryAt, hno, htype]

theorem entryName_zero {buf : Bytes} {k : Nat} (hk : k < entriesPerSec) (h : buf (24 * k) = 0) :
    entryName buf k = [] := by
  rw [entriesPerSec] at hk
  obtain ⟨n, hn⟩ : ∃ n, 512 - 24 * k = n + 1 := ⟨511 - 24 * k, by omega⟩
  rw [entryName, hn, cstr, if_pos]
  exact h

end Names

section Slots

/-- The slots of the blocks from index `i` on. -/
def slotsFrom (blocks : Nat → UInt32) (i : Nat) : Nat → List (Nat × Nat)
  | 0 => []
  | n + 1 =>
      if blocks i = 0 then slotsFrom blocks (i + 1) n
      else (List.range' 0 entriesPerSec).map (fun k => (i, k)) ++ slotsFrom blocks (i + 1) n

theorem mem_slotsFrom {blocks : Nat → UInt32} (n : Nat) : ∀ {i : Nat} {x : Nat × Nat},
    x ∈ slotsFrom blocks i n ↔
      i ≤ x.1 ∧ x.1 < i + n ∧ blocks x.1 ≠ 0 ∧ x.2 < entriesPerSec := by
  induction n with
  | zero =>
      intro i x
      simp [slotsFrom]
      omega
  | succ n ih =>
      intro i x
      obtain ⟨j, k⟩ := x
      rw [slotsFrom]
      split
      · rename_i hblock
        rw [ih]
        constructor
        · rintro ⟨h₁, h₂, h₃⟩
          exact ⟨by omega, by omega, h₃⟩
        · rintro ⟨h₁, h₂, h₃, h₄⟩
          have hne : j ≠ i := fun h => h₃ (by rw [h]; exact hblock)
          exact ⟨by omega, by omega, h₃, h₄⟩
      · rename_i hblock
        rw [List.mem_append, ih]
        simp only [List.mem_map, List.mem_range'_1, Prod.mk.injEq]
        constructor
        · rintro (⟨k', hk', rfl, rfl⟩ | ⟨h₁, h₂, h₃⟩)
          · exact ⟨le_rfl, by omega, hblock, by omega⟩
          · exact ⟨by omega, by omega, h₃⟩
        · rintro ⟨h₁, h₂, h₃, h₄⟩
          by_cases hj : j = i
          · exact Or.inl ⟨k, ⟨Nat.zero_le _, by omega⟩, hj.symm, rfl⟩
          · exact Or.inr ⟨by omega, by omega, h₃, h₄⟩

/-- The slots of a directory. -/
def Inode.slots (ino : Inode) (disk : Bytes) : List (Nat × Nat) :=
  slotsFrom (ino.allBlocks disk) 0 140

/-- The name and the entry in a slot. -/
def Inode.nameIn (ino : Inode) (disk : Bytes) (x : Nat × Nat) : List UInt8 :=
  entryName (sectorOf disk (ino.allBlocks disk x.1)) x.2

def Inode.entryIn (ino : Inode) (disk : Bytes) (x : Nat × Nat) : DirEntry :=
  entryAt (sectorOf disk (ino.allBlocks disk x.1)) x.2

variable {ino : Inode} {disk : Bytes}

theorem mem_slots {x : Nat × Nat} : x ∈ ino.slots disk ↔
    x.1 < 140 ∧ ino.allBlocks disk x.1 ≠ 0 ∧ x.2 < entriesPerSec := by
  rw [Inode.slots, mem_slotsFrom]
  simp

/-- The slot that answers a name. -/
def Inode.answer (ino : Inode) (disk : Bytes) (name : List UInt8) : Option (Nat × Nat) :=
  (ino.slots disk).find? fun x => ino.nameIn disk x = name

private theorem findEntry_eq (buf : Bytes) (name : List UInt8) (n : Nat) : ∀ k,
    findEntry buf name k n =
      ((List.range' k n).find? fun k => entryName buf k = name).map (entryAt buf) := by
  induction n with
  | zero =>
      intro k
      rfl
  | succ n ih =>
      intro k
      rw [findEntry, List.range'_succ]
      split
      · rename_i hname
        rw [List.find?_cons_of_pos (by simpa using hname)]
        rfl
      · rename_i hname
        rw [List.find?_cons_of_neg (by simpa using hname), ih]

private theorem searchBlocks_eq (ino : Inode) (disk : Bytes) (name : List UInt8) (n : Nat) : ∀ i,
    searchBlocks disk (ino.allBlocks disk) name i n =
      ((slotsFrom (ino.allBlocks disk) i n).find? fun x => ino.nameIn disk x = name).map
        (ino.entryIn disk) := by
  induction n with
  | zero =>
      intro i
      rfl
  | succ n ih =>
      intro i
      rw [searchBlocks, slotsFrom]
      split
      · exact ih _
      · have hsector : Bytes.zero.blit 0 512 (disk.drop (512 * (ino.allBlocks disk i).toNat)) =
            sectorOf disk (ino.allBlocks disk i) := rfl
        rw [hsector, ih, findEntry_eq, List.find?_append, List.find?_map]
        cases hfind : (List.range' 0 entriesPerSec).find? fun k =>
            entryName (sectorOf disk (ino.allBlocks disk i)) k = name with
        | some k =>
            have hfind' : (List.range' 0 entriesPerSec).find?
                ((fun x => decide (ino.nameIn disk x = name)) ∘ fun k => (i, k)) = some k := hfind
            rw [hfind']
            rfl
        | none =>
            have hfind' : (List.range' 0 entriesPerSec).find?
                ((fun x => decide (ino.nameIn disk x = name)) ∘ fun k => (i, k)) = none := hfind
            rw [hfind']
            rfl

/-- `search_dir_entry` gives out the entry of the slot that answers. -/
theorem lookup_eq_answer (name : List UInt8) :
    ino.lookup disk name = (ino.answer disk name).map (ino.entryIn disk) :=
  searchBlocks_eq ino disk name 140 0

theorem answer_some {name : List UInt8} {x : Nat × Nat} (h : ino.answer disk name = some x) :
    x ∈ ino.slots disk ∧ ino.nameIn disk x = name :=
  ⟨List.mem_of_find?_eq_some h, by simpa using List.find?_some h⟩

theorem answer_none {name : List UInt8} :
    ino.answer disk name = none ↔ ∀ x ∈ ino.slots disk, ino.nameIn disk x ≠ name := by
  simp [Inode.answer, List.find?_eq_none]

theorem answer_of_unique {name : List UInt8} {x : Nat × Nat} (hx : x ∈ ino.slots disk)
    (hname : ino.nameIn disk x = name)
    (hu : ∀ y ∈ ino.slots disk, ino.nameIn disk y = name → y = x) :
    ino.answer disk name = some x := by
  cases h : ino.answer disk name with
  | none => exact absurd hname (answer_none.mp h x hx)
  | some y =>
      obtain ⟨hy, hname'⟩ := answer_some h
      rw [hu y hy hname']

/-- A slot with an entry other than `.` and `..`. -/
def Holds (buf : Bytes) (k : Nat) : Prop :=
  (entryAt buf k).fType ≠ ftUnknown ∧ entryName buf k ≠ dot ∧ entryName buf k ≠ dotdot

instance (buf : Bytes) (k : Nat) : Decidable (Holds buf k) := inferInstanceAs (Decidable (_ ∧ _))

def Inode.HoldsIn (ino : Inode) (disk : Bytes) (x : Nat × Nat) : Prop :=
  Holds (sectorOf disk (ino.allBlocks disk x.1)) x.2

instance (ino : Inode) (disk : Bytes) (x : Nat × Nat) : Decidable (ino.HoldsIn disk x) :=
  inferInstanceAs (Decidable (Holds _ _))

/-- The slots that are in use. -/
def Inode.live (ino : Inode) (disk : Bytes) : List (Nat × Nat) :=
  (ino.slots disk).filter fun x => (ino.entryIn disk x).fType ≠ ftUnknown

end Slots

section WellFormed

/-- A sector of the data area whose bit in the block bitmap is set. -/
structure State.Allocated (s : State) (lba : UInt32) : Prop where
  data : s.part.sb.dataStartLba.toNat ≤ lba.toNat
  inMap : s.blockIdx lba < s.blockBits
  bit : s.blockBitmap (s.blockIdx lba) = true

/-- What an inode refers to: its 140 blocks and the indirect table. -/
def Inode.refs (ino : Inode) (disk : Bytes) (i : Nat) : UInt32 :=
  if i = 140 then ino.iSectors 12 else ino.allBlocks disk i

theorem refs_block (ino : Inode) (disk : Bytes) {i : Nat} (hi : i < 140) :
    ino.refs disk i = ino.allBlocks disk i := if_neg (by omega)

theorem refs_table (ino : Inode) (disk : Bytes) : ino.refs disk 140 = ino.iSectors 12 := if_pos rfl

theorem refs_congr {ino ino' : Inode} {disk disk' : Bytes}
    (hblocks : ∀ i, ino'.allBlocks disk' i = ino.allBlocks disk i)
    (h12 : ino'.iSectors 12 = ino.iSectors 12) (i : Nat) :
    ino'.refs disk' i = ino.refs disk i := by
  rw [Inode.refs, Inode.refs, hblocks, h12]

/-- The inode refers to sectors in use, and to each of them once. -/
structure OwnsBlocks (s : State) (ino : Inode) : Prop where
  allocated : ∀ i ≤ 140, ino.refs s.disk i ≠ 0 → s.Allocated (ino.refs s.disk i)
  distinct : ∀ i ≤ 140, ∀ j ≤ 140, ino.refs s.disk i ≠ 0 →
    ino.refs s.disk i = ino.refs s.disk j → i = j

/-- A directory as `sys_mkdir`, `sync_dir_entry` and `delete_dir_entry` are to leave it.  A name ends
inside its slot, and the slots without a name are the free ones. -/
structure WellFormedDir (s : State) (ino : Inode) : Prop extends OwnsBlocks s ino where
  short : ∀ x ∈ ino.slots s.disk, (ino.nameIn s.disk x).length ≤ 15
  free : ∀ x ∈ ino.slots s.disk,
    ino.nameIn s.disk x = [] ↔ (ino.entryIn s.disk x).fType = ftUnknown
  unique : ∀ x ∈ ino.slots s.disk, ∀ y ∈ ino.slots s.disk, ino.nameIn s.disk x ≠ [] →
    ino.nameIn s.disk x = ino.nameIn s.disk y → x = y
  numbers : ∀ x ∈ ino.slots s.disk, ∀ y ∈ ino.slots s.disk, ino.HoldsIn s.disk x →
    ino.HoldsIn s.disk y → (ino.entryIn s.disk x).iNo = (ino.entryIn s.disk y).iNo → x = y
  firstBlock : ino.iSectors 0 ≠ 0
  dot : ino.nameIn s.disk (0, 0) = Fs.dot
  dotdot : ino.nameIn s.disk (0, 1) = Fs.dotdot
  size : ino.iSize.toNat = 24 * (ino.live s.disk).length

variable {s : State} {ino : Inode}

theorem OwnsBlocks.block_ne (h : OwnsBlocks s ino) {i j : Nat} (hi : i < 140) (hj : j < 140)
    (hne : i ≠ j) (hblock : ino.allBlocks s.disk i ≠ 0) :
    ino.allBlocks s.disk i ≠ ino.allBlocks s.disk j := by
  rw [← refs_block ino s.disk hi] at hblock ⊢
  rw [← refs_block ino s.disk hj]
  exact fun heq => hne (h.distinct i (by omega) j (by omega) hblock heq)

theorem OwnsBlocks.table_ne (h : OwnsBlocks s ino) {i : Nat} (hi : i < 140)
    (ht : ino.iSectors 12 ≠ 0) : ino.iSectors 12 ≠ ino.allBlocks s.disk i := by
  rw [← refs_table ino s.disk] at ht ⊢
  rw [← refs_block ino s.disk hi]
  intro heq
  have := h.distinct 140 le_rfl i (by omega) ht heq
  omega

theorem OwnsBlocks.block (h : OwnsBlocks s ino) {i : Nat} (hi : i < 140)
    (hblock : ino.allBlocks s.disk i ≠ 0) : s.Allocated (ino.allBlocks s.disk i) := by
  rw [← refs_block ino s.disk hi] at hblock ⊢
  exact h.allocated i (by omega) hblock

theorem OwnsBlocks.table (h : OwnsBlocks s ino) (ht : ino.iSectors 12 ≠ 0) :
    s.Allocated (ino.iSectors 12) := by
  rw [← refs_table ino s.disk] at ht ⊢
  exact h.allocated 140 le_rfl ht

end WellFormed

end Aitos.Fs
