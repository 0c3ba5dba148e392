import Aitos.Fs.DirImage
import Aitos.Fs.Search

/-!
# Inserting a directory entry

`sync_dir_entry` puts an entry into the first free slot of the twelve direct blocks, into a new direct
block, or into the first block of a new indirect table.  An indirect table that is there already is
not read: when the direct blocks are full, it is replaced.
-/

namespace Aitos.Fs

open Framework

section Free

private theorem freeEntry_some {buf : Bytes} (n : Nat) : ∀ {k j : Nat}, freeEntry buf k n = some j →
    k ≤ j ∧ j < k + n ∧ (entryAt buf j).fType = ftUnknown := by
  induction n with
  | zero =>
      intro k j h
      cases h
  | succ n ih =>
      intro k j h
      rw [freeEntry] at h
      split at h
      · rename_i hfree
        obtain rfl := Option.some.inj h
        exact ⟨le_rfl, by omega, hfree⟩
      · obtain ⟨h₁, h₂, h₃⟩ := ih h
        exact ⟨by omega, by omega, h₃⟩

private theorem freeEntry_none {buf : Bytes} (n : Nat) : ∀ {k : Nat}, freeEntry buf k n = none →
    ∀ j, k ≤ j → j < k + n → (entryAt buf j).fType ≠ ftUnknown := by
  induction n with
  | zero =>
      intro k _ j h₁ h₂
      omega
  | succ n ih =>
      intro k h j h₁ h₂
      rw [freeEntry] at h
      split at h
      · cases h
      · rename_i hused
        by_cases hj : j = k
        · rw [hj]
          exact hused
        · exact ih h j (by omega) (by omega)

end Free

section Code

variable {s s' : State} {p : Ptr} {de : Bytes} {blocks : Nat → UInt32}

private theorem writeEntry_eq (s : State) (p : Ptr) (lba : UInt32) (buf : Bytes) (k : Nat)
    (de : Bytes) :
    writeEntry p lba buf k de s = .ok ((), (s.writeSectors lba (buf.blit (24 * k) 24 de) 1).setSize p
      ((s.inode p).iSize + 24)) := rfl

private theorem writeEntry_ok {lba : UInt32} {buf : Bytes} {k : Nat}
    (h : writeEntry p lba buf k de s = .ok ((), s')) :
    (s'.inode p).iSectors = (s.inode p).iSectors ∧
      (s'.inode p).iSize = (s.inode p).iSize + 24 ∧
      s'.disk = (s.writeSectors lba (buf.blit (24 * k) 24 de) 1).disk := by
  rw [writeEntry_eq] at h
  cases h
  simp [State.setSize]

/-- All slots of a sector are in use. -/
def Full (buf : Bytes) : Prop := ∀ k < entriesPerSec, (entryAt buf k).fType ≠ ftUnknown

instance (buf : Bytes) : Decidable (Full buf) :=
  inferInstanceAs (Decidable (∀ k < entriesPerSec, _))

private theorem syncLoop_place (n : Nat) : ∀ {i : Nat},
    syncLoop p de blocks i n s = .ok (true, s') → ∃ j, i ≤ j ∧ j < i + n ∧
      (∀ m, i ≤ m → m < j → blocks m ≠ 0 ∧ Full (sectorOf s.disk (blocks m))) ∧
      (blocks j = 0 ∧ growDir p de blocks j s = .ok (true, s') ∨
        blocks j ≠ 0 ∧ ∃ k < entriesPerSec,
          (entryAt (sectorOf s.disk (blocks j)) k).fType = ftUnknown ∧
          writeEntry p (blocks j) (sectorOf s.disk (blocks j)) k de s = .ok ((), s')) := by
  induction n with
  | zero =>
      intro i h
      cases h
  | succ n ih =>
      intro i h
      rw [syncLoop] at h
      split at h
      · rename_i hblock
        exact ⟨i, le_rfl, by omega, fun m h₁ h₂ => by omega, Or.inl ⟨hblock, h⟩⟩
      · rename_i hblock
        obtain ⟨buf, s₁, hread, h⟩ := Code.bind_ok.mp h
        obtain ⟨hbuf, hs⟩ := ideRead_ok.mp hread
        subst s₁
        obtain rfl : buf = sectorOf s.disk (blocks i) := hbuf
        cases hfree : freeEntry (sectorOf s.disk (blocks i)) 0 entriesPerSec with
        | some k =>
            rw [hfree] at h
            obtain ⟨_, s₂, hwrite, h⟩ := Code.bind_ok.mp h
            obtain ⟨-, rfl⟩ := Code.pure_ok.mp h
            obtain ⟨-, hk, htype⟩ := freeEntry_some _ hfree
            exact ⟨i, le_rfl, by omega, fun m h₁ h₂ => by omega,
              Or.inr ⟨hblock, k, by simpa using hk, htype, hwrite⟩⟩
        | none =>
            rw [hfree] at h
            obtain ⟨j, h₁, h₂, hfull, hj⟩ := ih h
            refine ⟨j, by omega, by omega, fun m hm hmj => ?_, hj⟩
            by_cases hmi : m = i
            · subst hmi
              refine ⟨hblock, fun k hk => ?_⟩
              exact freeEntry_none _ hfree k (Nat.zero_le _) (by simpa using hk)
            · exact hfull m (by omega) hmj

private theorem growDir_direct {i : Nat} (hi : i < 12)
    (h : growDir p de blocks i s = .ok (true, s')) :
    ∃ lba, s.Fresh lba ∧ writeEntry p lba Bytes.zero 0 de ((s.take lba).setSector p i lba) =
      .ok ((), s') := by
  rw [growDir] at h
  obtain ⟨r, s₁, halloc, h⟩ := Code.bind_ok.mp h
  cases r with
  | none => cases h
  | some lba =>
      obtain ⟨hfresh, rfl⟩ := blockBitmapAlloc_fresh halloc
      simp only [Code.get_bind, if_pos hi, Code.bind_ok, assert_ok] at h
      obtain ⟨_, s₂, ⟨rfl, -⟩, _, s₃, hsync, _, s₄, hset, _, s₅, hwrite, h⟩ := h
      obtain ⟨-, rfl⟩ := Code.pure_ok.mp h
      cases hsync
      cases hset
      exact ⟨lba, hfresh, hwrite⟩

private theorem growDir_table (h : growDir p de blocks 12 s = .ok (true, s')) :
    ∃ lba lba', s.Fresh lba ∧ (s.take lba).Fresh lba' ∧
      writeEntry p lba' Bytes.zero 0 de
        ((((s.take lba).setSector p 12 lba).take lba').writeSectors lba
          (Bytes.ofWords fun k => Function.update blocks 12 lba' (12 + k)) 1) = .ok ((), s') := by
  rw [growDir] at h
  obtain ⟨r, s₁, halloc, h⟩ := Code.bind_ok.mp h
  cases r with
  | none => cases h
  | some lba =>
      obtain ⟨hfresh, rfl⟩ := blockBitmapAlloc_fresh halloc
      simp only [Code.get_bind, Nat.lt_irrefl, if_false, if_true, Code.bind_ok, assert_ok] at h
      obtain ⟨_, s₂, ⟨rfl, -⟩, _, s₃, hsync, _, s₄, hset, r', s₅, halloc', h⟩ := h
      cases hsync
      cases hset
      cases r' with
      | none =>
          simp only [Code.bind_ok] at h
          obtain ⟨_, _, -, _, _, -, h⟩ := h
          cases h
      | some lba' =>
          obtain ⟨hfresh', rfl⟩ := blockBitmapAlloc_fresh halloc'
          simp only [Code.bind_ok, assert_ok] at h
          obtain ⟨_, s₆, ⟨rfl, -⟩, _, s₇, hsync', _, s₈, htable, _, s₉, hwrite, h⟩ := h
          obtain ⟨-, rfl⟩ := Code.pure_ok.mp h
          cases hsync'
          cases htable
          exact ⟨lba, lba', hfresh, ⟨hfresh'.data, hfresh'.inMap, hfresh'.bit⟩, hwrite⟩

end Code

section Effect

/-- Slot `y` holds the same bytes in both directories. -/
def SameSlot (ino ino' : Inode) (disk disk' : Bytes) (y : Nat × Nat) : Prop :=
  ∀ a < 24, sectorOf disk' (ino'.allBlocks disk' y.1) (24 * y.2 + a) =
    sectorOf disk (ino.allBlocks disk y.1) (24 * y.2 + a)

/-- The 24 bytes `de` were put into slot `x`.  The other slots are slots from before, as they were, or
new and empty. -/
structure Inserted (ino ino' : Inode) (disk disk' : Bytes) (x : Nat × Nat) (de : Bytes) : Prop where
  slot : x ∈ ino'.slots disk'
  entry : ∀ a < 24, sectorOf disk' (ino'.allBlocks disk' x.1) (24 * x.2 + a) = de a
  others : ∀ y ∈ ino'.slots disk', y ≠ x → y ∈ ino.slots disk ∧ SameSlot ino ino' disk disk' y ∨
    sectorOf disk' (ino'.allBlocks disk' y.1) (24 * y.2) = 0

variable {s s' : State} {ino ino' : Inode} {disk disk' : Bytes} {x y : Nat × Nat} {de : Bytes}

theorem SameSlot.nameIn (h : SameSlot ino ino' disk disk' y) (hy : y ∈ ino.slots disk)
    (hlen : (ino.nameIn disk y).length ≤ 15) : ino'.nameIn disk' y = ino.nameIn disk y :=
  entryName_congr (mem_slots.mp hy).2.2 hlen h

theorem SameSlot.entryIn (h : SameSlot ino ino' disk disk' y) :
    ino'.entryIn disk' y = ino.entryIn disk y := entryAt_congr h

theorem Inserted.nameIn_other (h : Inserted ino ino' disk disk' x de)
    (hlen : ∀ y ∈ ino.slots disk, (ino.nameIn disk y).length ≤ 15) (hy : y ∈ ino'.slots disk')
    (hne : y ≠ x) (hname : ino'.nameIn disk' y ≠ []) :
    y ∈ ino.slots disk ∧ ino'.nameIn disk' y = ino.nameIn disk y ∧
      ino'.entryIn disk' y = ino.entryIn disk y := by
  rcases h.others y hy hne with ⟨hold, hsame⟩ | hzero
  · exact ⟨hold, hsame.nameIn hold (hlen y hold), hsame.entryIn⟩
  · exact absurd (entryName_zero (mem_slots.mp hy).2.2 hzero) hname

private theorem Inserted.answer_of_absent (h : Inserted ino ino' disk disk' x de)
    (hlen : ∀ y ∈ ino.slots disk, (ino.nameIn disk y).length ≤ 15) {name : List UInt8}
    (hne : name ≠ []) (habsent : ino.lookup disk name = none) :
    ino'.answer disk' name = if ino'.nameIn disk' x = name then some x else none := by
  rw [lookup_eq_answer, Option.map_eq_none_iff] at habsent
  have hother : ∀ y ∈ ino'.slots disk', ino'.nameIn disk' y = name → y = x := by
    intro y hy hname
    by_contra hyx
    obtain ⟨hold, hsame, -⟩ := h.nameIn_other hlen hy hyx (by rw [hname]; exact hne)
    exact answer_none.mp habsent y hold (hsame.symm.trans hname)
  split
  · rename_i hname
    exact answer_of_unique h.slot hname hother
  · rename_i hname
    rw [answer_none]
    intro y hy hyname
    obtain rfl := hother y hy hyname
    exact hname hyname

theorem Inserted.lookup_other (h : Inserted ino ino' disk disk' x de) (hs : WellFormedDir s ino)
    (hdisk : s.disk = disk)
    (hkept : ∀ y ∈ ino.slots disk, y ≠ x →
      y ∈ ino'.slots disk' ∧ SameSlot ino ino' disk disk' y)
    {name : List UInt8} (hne : name ≠ [])
    (hold : x ∈ ino.slots disk → ino.nameIn disk x ≠ name) (hx : ino'.nameIn disk' x ≠ name) :
    ino'.lookup disk' name = ino.lookup disk name := by
  subst hdisk
  rw [lookup_eq_answer, lookup_eq_answer]
  cases ha : ino.answer s.disk name with
  | none =>
      have hnone : ino'.answer disk' name = none := by
        rw [answer_none]
        intro y hy hname
        have hyx : y ≠ x := fun heq => hx (heq ▸ hname)
        obtain ⟨hold, hsame, -⟩ := h.nameIn_other hs.short hy hyx (by rw [hname]; exact hne)
        exact answer_none.mp ha y hold (hsame.symm.trans hname)
      rw [hnone]
      rfl
  | some y =>
      obtain ⟨hy, hname⟩ := answer_some ha
      have hyx : y ≠ x := by
        rintro rfl
        exact hold hy hname
      obtain ⟨hy', hsame⟩ := hkept y hy hyx
      have hname' := hsame.nameIn hy (hs.short y hy)
      have hanswer : ino'.answer disk' name = some y := by
        refine answer_of_unique hy' (hname'.trans hname) fun z hz hzname => ?_
        have hzx : z ≠ x := fun heq => hx (heq ▸ hzname)
        obtain ⟨hold, hzsame, -⟩ := h.nameIn_other hs.short hz hzx (by rw [hzname]; exact hne)
        refine hs.unique z hold y hy ?_ ?_
        · rw [← hzsame, hzname]
          exact hne
        · rw [← hzsame, hzname, hname]
      rw [hanswer, Option.map_some, Option.map_some, hsame.entryIn]

theorem rewriteSlot (hown : OwnsBlocks s ino) (hx : x ∈ ino.slots s.disk)
    (hsec : ∀ i ≤ 12, ino'.iSectors i = ino.iSectors i)
    (hself : ∀ a < 512, sectorOf disk' (ino.allBlocks s.disk x.1) a =
      (sectorOf s.disk (ino.allBlocks s.disk x.1)).blit (24 * x.2) 24 de a)
    (hother : ∀ lba, s.Allocated lba → lba ≠ ino.allBlocks s.disk x.1 →
      sectorOf disk' lba = sectorOf s.disk lba) :
    (∀ i, ino'.allBlocks disk' i = ino.allBlocks s.disk i) ∧
      (∀ a < 24, sectorOf disk' (ino.allBlocks s.disk x.1) (24 * x.2 + a) = de a) ∧
      ∀ y ∈ ino.slots s.disk, y ≠ x → SameSlot ino ino' s.disk disk' y := by
  obtain ⟨j, k⟩ := x
  obtain ⟨hj, hblock, hk⟩ := mem_slots.mp hx
  rw [entriesPerSec] at hk
  simp only at hj hblock hk hself hother
  have hblocks : ∀ i, ino'.allBlocks disk' i = ino.allBlocks s.disk i :=
    allBlocks_congr hsec fun ht => hother _ (hown.table ht) (hown.table_ne hj ht)
  refine ⟨hblocks, fun a ha => ?_, fun y hy hne a ha => ?_⟩
  · rw [hself _ (by omega), Bytes.blit_add _ _ _ _ ha]
  · obtain ⟨i, l⟩ := y
    obtain ⟨hi, hblock', hl⟩ := mem_slots.mp hy
    rw [entriesPerSec] at hl
    simp only at hi hblock' hl
    rw [hblocks]
    by_cases hij : i = j
    · subst hij
      have hkl : l ≠ k := fun h => hne (by rw [h])
      rw [hself _ (by omega), Bytes.blit_of_outside _ _ _ _ (by omega)]
    · rw [hother _ (hown.block hi hblock') (hown.block_ne hi hj hij hblock')]

private theorem allBlocks_update {lba : UInt32} {j : Nat} (hj : j < 12)
    (hsec : ∀ i ≤ 12, ino'.iSectors i = if i = j then lba else ino.iSectors i)
    (ht : ino.iSectors 12 ≠ 0 →
      sectorOf disk' (ino.iSectors 12) = sectorOf disk (ino.iSectors 12)) (i : Nat) :
    ino'.allBlocks disk' i = if i = j then lba else ino.allBlocks disk i := by
  by_cases hij : i = j
  · subst hij
    rw [if_pos rfl, allBlocks_direct _ _ hj, hsec i (by omega), if_pos rfl]
  have htable : ino'.iSectors 12 = ino.iSectors 12 := by
    rw [hsec 12 le_rfl, if_neg (by omega)]
  rw [if_neg hij]
  by_cases hi : i < 12
  · rw [allBlocks_direct _ _ hi, allBlocks_direct _ _ hi, hsec i (by omega), if_neg hij]
  · have hsame : ino'.allBlocks disk' i =
        ({ ino with iSectors := ino'.iSectors } : Inode).allBlocks disk i :=
      allBlocks_congr (fun _ _ => rfl) (fun h => by rw [htable] at h ⊢; exact ht h) i
    rw [hsame, Inode.allBlocks, Inode.allBlocks, if_neg hi, if_neg hi, htable]

private theorem inserted_newBlock {lba : UInt32} {j : Nat} (hj : j < 140)
    (hlba : ino'.allBlocks disk' j = lba) (hne : lba ≠ 0)
    (hself : ∀ a < 512, sectorOf disk' lba a = Bytes.zero.blit 0 24 de a)
    (hblocks : ∀ i < 140, i ≠ j → ino'.allBlocks disk' i ≠ 0 →
      ino'.allBlocks disk' i = ino.allBlocks disk i)
    (hother : ∀ i < 140, i ≠ j → ino'.allBlocks disk' i ≠ 0 →
      sectorOf disk' (ino'.allBlocks disk' i) = sectorOf disk (ino.allBlocks disk i)) :
    Inserted ino ino' disk disk' (j, 0) de where
  slot := mem_slots.mpr ⟨hj, by rw [hlba]; exact hne, Nat.zero_lt_succ _⟩
  entry a ha := by
    rw [hlba, hself _ (by omega), Nat.mul_zero, Bytes.blit_add _ _ _ _ ha]
  others y hy hyx := by
    obtain ⟨i, k⟩ := y
    obtain ⟨hi, hne', hk⟩ := mem_slots.mp hy
    simp only at hi hne' hk
    by_cases hij : i = j
    · subst hij
      have hk0 : k ≠ 0 := fun h => hyx (by rw [h])
      rw [entriesPerSec] at hk
      refine Or.inr ?_
      rw [hlba, hself _ (by omega), Bytes.blit_of_outside _ _ _ _ (by omega)]
      rfl
    · refine Or.inl ⟨mem_slots.mpr ⟨hi, ?_, hk⟩, fun a _ => ?_⟩
      · rw [← hblocks i hi hij hne']
        exact hne'
      · rw [hother i hi hij hne']

/-- There is no indirect table yet, or a direct block is missing or has a free slot. -/
def Inode.HasRoom (ino : Inode) (disk : Bytes) : Prop :=
  ino.iSectors 12 = 0 ∨ ∃ i < 12, ino.iSectors i = 0 ∨ ¬ Full (sectorOf disk (ino.iSectors i))

/-- What `sync_dir_entry` does to the directory inode `p` when it returns true: with room, all slots
and all references stay; without, the indirect table from before is no longer referred to. -/
structure Synced (s s' : State) (p : Ptr) (x : Nat × Nat) (de : Bytes) : Prop where
  inserted : Inserted (s.inode p) (s'.inode p) s.disk s'.disk x de
  size : (s'.inode p).iSize = (s.inode p).iSize + 24
  free : (s.inode p).HasRoom s.disk → x ∈ (s.inode p).slots s.disk →
    ((s.inode p).entryIn s.disk x).fType = ftUnknown
  slots : (s.inode p).HasRoom s.disk → ∀ y ∈ (s.inode p).slots s.disk, y ≠ x →
    y ∈ (s'.inode p).slots s'.disk ∧ SameSlot (s.inode p) (s'.inode p) s.disk s'.disk y
  refs : (s.inode p).HasRoom s.disk → ∀ i ≤ 140, (s.inode p).refs s.disk i ≠ 0 →
    (s'.inode p).refs s'.disk i = (s.inode p).refs s.disk i
  dropped : ¬ (s.inode p).HasRoom s.disk → ∀ j ≤ 140,
    (s'.inode p).refs s'.disk j ≠ (s.inode p).iSectors 12

variable {p : Ptr}

private theorem synced_existing {j k : Nat} (hs : WellFormedDir s (s.inode p)) (hj : j < 12)
    (hblock : (s.inode p).iSectors j ≠ 0) (hk : k < entriesPerSec)
    (hfree : (entryAt (sectorOf s.disk ((s.inode p).iSectors j)) k).fType = ftUnknown)
    (h : writeEntry p ((s.inode p).iSectors j) (sectorOf s.disk ((s.inode p).iSectors j)) k de s =
      .ok ((), s')) : Synced s s' p (j, k) de := by
  obtain ⟨hsec, hsize, hdisk⟩ := writeEntry_ok h
  have hdirect := allBlocks_direct (s.inode p) s.disk hj
  have hroom : (s.inode p).HasRoom s.disk :=
    Or.inr ⟨j, hj, Or.inr fun hfull => hfull k hk hfree⟩
  rw [← hdirect] at hblock hfree hdisk
  have hx : (j, k) ∈ (s.inode p).slots s.disk :=
    mem_slots.mpr ⟨Nat.lt_trans hj (by decide), hblock, hk⟩
  obtain ⟨hblocks, hentry, hsame⟩ : (∀ i, (s'.inode p).allBlocks s'.disk i =
      (s.inode p).allBlocks s.disk i) ∧ (∀ a < 24, _ = de a) ∧ _ :=
    rewriteSlot hs.toOwnsBlocks hx (fun i _ => by rw [hsec])
      (fun a ha => by rw [hdisk]; exact sectorOf_writeSectors_self s _ _ ha)
      (fun lba' _ hne => by rw [hdisk]; exact sectorOf_writeSectors_of_ne _ hne)
  have hslots : (s'.inode p).slots s'.disk = (s.inode p).slots s.disk := by
    rw [Inode.slots, Inode.slots, funext hblocks]
  refine ⟨⟨?_, fun a ha => ?_, fun y hy hne => ?_⟩, hsize, fun _ _ => hfree, fun _ y hy hne => ?_,
    fun _ i _ _ => ?_, fun hno => absurd hroom hno⟩
  · rw [hslots]
    exact hx
  · rw [hblocks]
    exact hentry a ha
  · rw [hslots] at hy
    exact Or.inl ⟨hy, hsame y hy hne⟩
  · rw [hslots]
    exact ⟨hy, hsame y hy hne⟩
  · rw [Inode.refs, Inode.refs, hblocks, hsec]

private theorem synced_direct {j : Nat} {lba : UInt32} (hs : WellFormedDir s (s.inode p))
    (hj : j < 12) (hblock : (s.inode p).iSectors j = 0) (hfresh : s.Fresh lba)
    (h : writeEntry p lba Bytes.zero 0 de ((s.take lba).setSector p j lba) = .ok ((), s')) :
    Synced s s' p (j, 0) de := by
  obtain ⟨hsec, hsize, hdisk⟩ := writeEntry_ok h
  have hino : ((s.take lba).setSector p j lba).inode p =
      { s.inode p with iSectors := Function.update (s.inode p).iSectors j lba } :=
    Function.update_self _ _ _
  rw [hino] at hsec hsize
  have hsec' : ∀ i ≤ 12, (s'.inode p).iSectors i =
      if i = j then lba else (s.inode p).iSectors i := by
    intro i _
    rw [hsec]
    exact Function.update_apply _ _ _ _
  have hother : ∀ lba', s.Allocated lba' → sectorOf s'.disk lba' = sectorOf s.disk lba' := by
    intro lba' hlba'
    rw [hdisk, sectorOf_writeSectors_of_ne _ (hfresh.ne_allocated hlba')]
    exact sameData_take hfresh lba' hlba'.data
  have hself : ∀ a < 512, sectorOf s'.disk lba a = Bytes.zero.blit 0 24 de a := by
    intro a ha
    rw [hdisk]
    exact sectorOf_writeSectors_self _ _ _ ha
  have hblocks := allBlocks_update hj hsec' fun ht => hother _ (hs.table ht)
  have hzero : (s.inode p).allBlocks s.disk j = 0 := by rw [allBlocks_direct _ _ hj, hblock]
  have hroom : (s.inode p).HasRoom s.disk := Or.inr ⟨j, hj, Or.inl hblock⟩
  have hsame : ∀ i < 140, i ≠ j → (s.inode p).allBlocks s.disk i ≠ 0 →
      sectorOf s'.disk ((s'.inode p).allBlocks s'.disk i) =
        sectorOf s.disk ((s.inode p).allBlocks s.disk i) := by
    intro i hi hij hne
    rw [hblocks, if_neg hij]
    exact hother _ (hs.block hi hne)
  refine ⟨inserted_newBlock (by omega) (by rw [hblocks, if_pos rfl]) hfresh.ne_zero hself
    (fun i _ hij _ => by rw [hblocks, if_neg hij]) (fun i hi hij hne => ?_), hsize,
    fun _ hx => absurd hzero (mem_slots.mp hx).2.1, fun _ y hy _ => ?_, fun _ i _ hne => ?_, fun hno => absurd hroom hno⟩
  · rw [hblocks, if_neg hij] at hne
    exact hsame i hi hij hne
  · obtain ⟨hi, hne, hk⟩ := mem_slots.mp hy
    have hyj : y.1 ≠ j := fun heq => hne (by rw [heq]; exact hzero)
    refine ⟨mem_slots.mpr ⟨hi, ?_, hk⟩, fun a _ => ?_⟩
    · rw [hblocks, if_neg hyj]
      exact hne
    · rw [hsame _ hi hyj hne]
  · by_cases hi : i = 140
    · subst hi
      rw [refs_table, refs_table, hsec' 12 le_rfl, if_neg (by omega)]
    · rw [Inode.refs, if_neg hi] at hne
      have hij : i ≠ j := fun heq => hne (by rw [heq]; exact hzero)
      rw [Inode.refs, if_neg hi, hblocks, if_neg hij, Inode.refs, if_neg hi]

/-- The disk and the inode with a new table at `lba` and the new block `lba'` in it. -/
structure NewTable (s s' : State) (p : Ptr) (lba lba' : UInt32) (de : Bytes) : Prop where
  iSectors : ∀ i, (s'.inode p).iSectors i = if i = 12 then lba else (s.inode p).iSectors i
  size : (s'.inode p).iSize = (s.inode p).iSize + 24
  ne_zero : lba ≠ 0
  ne_zero' : lba' ≠ 0
  other : ∀ lba'', s.Allocated lba'' →
    lba'' ≠ lba ∧ lba'' ≠ lba' ∧ sectorOf s'.disk lba'' = sectorOf s.disk lba''
  table : ∀ a < 512, sectorOf s'.disk lba a =
    Bytes.ofWords (fun k => if k = 0 then lba' else 0) a
  entry : ∀ a < 512, sectorOf s'.disk lba' a = Bytes.zero.blit 0 24 de a

theorem newTable {lba lba' : UInt32} {blocks : Nat → UInt32}
    (hblocks : ∀ i, 12 ≤ i → blocks i = 0) (hfresh : s.Fresh lba)
    (hfresh' : (s.take lba).Fresh lba')
    (h : writeEntry p lba' Bytes.zero 0 de ((((s.take lba).setSector p 12 lba).take
      lba').writeSectors lba (Bytes.ofWords fun k => Function.update blocks 12 lba' (12 + k)) 1) =
        .ok ((), s')) :
    NewTable s s' p lba lba' de := by
  obtain ⟨hsec, hsize, hdisk⟩ := writeEntry_ok h
  have hino : ((((s.take lba).setSector p 12 lba).take lba').writeSectors lba
      (Bytes.ofWords fun k => Function.update blocks 12 lba' (12 + k)) 1).inode p =
      { s.inode p with iSectors := Function.update (s.inode p).iSectors 12 lba } :=
    Function.update_self _ _ _
  have hne : lba ≠ lba' := hfresh'.ne_allocated (take_allocated hfresh)
  have hfresh₂ : ((s.take lba).setSector p 12 lba).Fresh lba' :=
    ⟨hfresh'.data, hfresh'.inMap, hfresh'.bit⟩
  have hzero : lba' ≠ 0 := hfresh'.ne_zero
  have hwords : (fun k => Function.update blocks 12 lba' (12 + k)) =
      fun k => if k = 0 then lba' else 0 := by
    funext k
    rw [Function.update_apply, hblocks (12 + k) (by omega)]
    simp
  rw [hino] at hsec hsize
  refine ⟨fun i => ?_, hsize, hfresh.ne_zero, hzero, fun lba'' hlba => ?_, fun a ha => ?_,
    fun a ha => ?_⟩
  · rw [hsec]
    exact Function.update_apply _ _ _ _
  · have h₁ := hfresh.ne_allocated hlba
    have h₂ := hfresh'.ne_allocated (allocated_take hlba)
    refine ⟨h₁, h₂, ?_⟩
    rw [hdisk, sectorOf_writeSectors_of_ne _ h₂, sectorOf_writeSectors_of_ne _ h₁,
      sameData_take hfresh₂ lba'' hlba.data]
    exact sameData_take hfresh lba'' hlba.data
  · rw [hdisk, sectorOf_writeSectors_of_ne _ hne, ← hwords]
    exact sectorOf_writeSectors_self _ _ _ ha
  · rw [hdisk]
    exact sectorOf_writeSectors_self _ _ _ ha

theorem NewTable.blocks {lba lba' : UInt32} (h : NewTable s s' p lba lba' de) {i : Nat}
    (hi : i < 140) : (s'.inode p).allBlocks s'.disk i =
      if i < 12 then (s.inode p).iSectors i else if i = 12 then lba' else 0 := by
  by_cases hlt : i < 12
  · rw [allBlocks_direct _ _ hlt, h.iSectors, if_neg (by omega), if_pos hlt]
  · have h12 : (s'.inode p).iSectors 12 = lba := by rw [h.iSectors, if_pos rfl]
    have hindex : i - 12 = 0 ↔ i = 12 := by omega
    rw [allBlocks_newTable h12 h.ne_zero h.table (by omega) hi, if_neg hlt]
    simp only [hindex]

private theorem synced_table {lba lba' : UInt32} (hs : WellFormedDir s (s.inode p))
    (hfull : ∀ i < 12, (s.inode p).iSectors i ≠ 0 ∧ Full (sectorOf s.disk ((s.inode p).iSectors i)))
    (h : NewTable s s' p lba lba' de) : Synced s s' p (12, 0) de := by
  have hroom : (s.inode p).HasRoom s.disk → (s.inode p).iSectors 12 = 0 := by
    rintro (h₁ | ⟨i, hi, h₁ | h₁⟩)
    · exact h₁
    · exact absurd h₁ (hfull i hi).1
    · exact absurd (hfull i hi).2 h₁
  have hdirect : ∀ i < 12, (s'.inode p).allBlocks s'.disk i = (s.inode p).allBlocks s.disk i ∧
      s.Allocated ((s.inode p).allBlocks s.disk i) := by
    intro i hi
    have hne := (hfull i hi).1
    rw [← allBlocks_direct (s.inode p) s.disk hi] at hne
    refine ⟨?_, hs.block (by omega) hne⟩
    rw [h.blocks (by omega), if_pos hi, allBlocks_direct _ _ hi]
  have hlow : ∀ i < 140, i ≠ 12 → (s'.inode p).allBlocks s'.disk i ≠ 0 → i < 12 := by
    intro i hi hi12 hne
    by_contra hlt
    rw [h.blocks hi, if_neg hlt, if_neg hi12] at hne
    exact hne rfl
  refine ⟨inserted_newBlock (by omega) (h.blocks (by omega)) h.ne_zero' h.entry
    (fun i hi hi12 hne => (hdirect i (hlow i hi hi12 hne)).1) (fun i hi hi12 hne => ?_), h.size,
    fun hr hx => ?_, fun hr y hy _ => ?_, fun hr i hi hne => ?_, fun hno j hj => ?_⟩
  · obtain ⟨hsame, halloc⟩ := hdirect i (hlow i hi hi12 hne)
    rw [hsame]
    exact (h.other _ halloc).2.2
  · exact absurd (allBlocks_of_noTable (hroom hr) _ le_rfl) (mem_slots.mp hx).2.1
  · -- without a table the slots from before are in the direct blocks
    obtain ⟨hi, hne, hk⟩ := mem_slots.mp hy
    have hlt : y.1 < 12 := by
      by_contra hge
      exact hne (allBlocks_of_noTable (hroom hr) _ (by omega))
    obtain ⟨hsame, halloc⟩ := hdirect y.1 hlt
    refine ⟨mem_slots.mpr ⟨hi, by rw [hsame]; exact hne, hk⟩, fun a _ => ?_⟩
    rw [hsame, (h.other _ halloc).2.2]
  · by_cases hlt : i < 12
    · rw [refs_block _ _ (by omega), refs_block _ _ (by omega)]
      exact (hdirect i hlt).1
    · refine absurd ?_ hne
      rw [Inode.refs]
      split
      · exact hroom hr
      · exact allBlocks_of_noTable (hroom hr) _ (by omega)
  · -- the old table is neither one of the old blocks nor one of the two new sectors
    have h12 : (s.inode p).iSectors 12 ≠ 0 := fun h₁ => hno (Or.inl h₁)
    obtain ⟨hne, hne', -⟩ := h.other _ (hs.table h12)
    rw [Inode.refs]
    split
    · rw [h.iSectors, if_pos rfl]
      exact hne.symm
    · by_cases hlt : j < 12
      · rw [(hdirect j hlt).1]
        exact (hs.table_ne (by omega) h12).symm
      · rw [h.blocks (by omega), if_neg hlt]
        split
        · exact hne'.symm
        · exact h12.symm

private theorem syncDirEntry_synced {d : DirPtr} (hs : WellFormedDir s (s.dirInode d))
    (h : syncDirEntry d de s = .ok (true, s')) :
    ∃ x, Synced s s' (s.dir d).inode x de := by
  simp only [syncDirEntry, Code.get_bind, Code.bind_ok, assert_ok] at h
  obtain ⟨_, s₁, ⟨rfl, -⟩, h⟩ := h
  obtain ⟨j, -, hj, hfull, hcase⟩ := syncLoop_place 140 h
  rcases hcase with ⟨hblock, hgrow⟩ | ⟨hblock, k, hk, hfree, hwrite⟩
  · by_cases hlt : j < 12
    · obtain ⟨lba, hfresh, hwrite⟩ := growDir_direct hlt hgrow
      rw [if_pos hlt] at hblock
      exact ⟨_, synced_direct hs hlt hblock hfresh hwrite⟩
    · -- the loop stops at index 12, where its array is empty
      obtain rfl : j = 12 := by
        by_contra hne
        exact (hfull 12 (by omega) (by omega)).1 rfl
      obtain ⟨lba, lba', hfresh, hfresh', hwrite⟩ := growDir_table hgrow
      refine ⟨_, synced_table hs (fun i hi => ?_)
        (newTable (fun i hi => if_neg (by omega)) hfresh hfresh' hwrite)⟩
      have := hfull i (by omega) hi
      rwa [if_pos hi] at this
  · have hlt : j < 12 := by
      by_contra hge
      exact hblock (if_neg hge)
    rw [if_pos hlt] at hblock hfree hwrite
    exact ⟨_, synced_existing hs hlt hblock hk hfree hwrite⟩

end Effect

section Added

/-- `search_dir_entry` returns `r`. -/
def State.Searches (s : State) (d : DirPtr) (name : List UInt8) (r : Option DirEntry) : Prop :=
  ∃ s₁, searchDirEntry d name s = .ok (r, s₁)

variable {s s' : State} {d : DirPtr} {name : List UInt8} {iNo fType : UInt32} {x : Nat × Nat}

theorem searches_iff (hmem : s.Served) {r : Option DirEntry} :
    s.Searches d name r ↔ r = (s.dirInode d).lookup s.disk name := by
  obtain ⟨s₁, h₁⟩ := searchDirEntry_returns hmem d name
  constructor
  · rintro ⟨s₂, h₂⟩
    rw [h₁] at h₂
    cases h₂
    rfl
  · rintro rfl
    exact ⟨s₁, h₁⟩

/-- The handles and the answers of `sys_malloc` are the same. -/
def SameHandles (s s' : State) : Prop := s'.dir = s.dir ∧ s'.mem.serve = s.mem.serve

instance : IsPreorder State SameHandles where
  refl _ := ⟨rfl, rfl⟩
  trans _ _ _ h h' := ⟨h'.1.trans h.1, h'.2.trans h.2⟩

private theorem stable_sameHandles : Stable SameHandles where
  mem _ _ h := ⟨rfl, h⟩
  disk _ _ _ _ := ⟨rfl, rfl⟩
  blockBit _ _ _ := ⟨rfl, rfl⟩
  inodeBit _ _ _ := ⟨rfl, rfl⟩
  sector _ _ _ _ := ⟨rfl, rfl⟩

private theorem sameHandles_syncDirEntry (d : DirPtr) (de : Bytes) :
    Keeps SameHandles (syncDirEntry d de) :=
  stable_sameHandles.syncDirEntry (.self _)
    (fun _ _ _ _ => (stable_sameHandles.ideWrite _ _ _).bind fun _ =>
      Keeps.modify fun _ => ⟨rfl, rfl⟩) d

theorem SameHandles.served (h : SameHandles s s') (hmem : s.Served) : s'.Served := by
  intro k
  rw [h.2]
  exact hmem k

theorem SameHandles.dirInode (h : SameHandles s s') (d : DirPtr) :
    s'.dirInode d = s'.inode (s.dir d).inode := by rw [State.dirInode, h.1]

/-- The entry `e` called `name` was added to the directory and nothing else has changed in it. -/
structure EntryAdded (s s' : State) (d : DirPtr) (name : List UInt8) (e : DirEntry) : Prop where
  found : s'.Searches d name (some e)
  others : ∀ name', name' ≠ [] → name' ≠ name → ∀ r, s.Searches d name' r ↔ s'.Searches d name' r
  size : (s'.dirInode d).iSize.toNat = (s.dirInode d).iSize.toNat + 24
  refs : ∀ i ≤ 140, (s.dirInode d).refs s.disk i ≠ 0 →
    ∃ j ≤ 140, (s'.dirInode d).refs s'.disk j = (s.dirInode d).refs s.disk i

private theorem Synced.found_iff (hs : WellFormedDir s (s.dirInode d)) (hmem : s'.Served)
    (hsame : SameHandles s s') (hne : name ≠ []) (hnul : 0 ∉ name) (hlen : name.length ≤ 16)
    (habsent : (s.dirInode d).lookup s.disk name = none)
    (h : Synced s s' (s.dir d).inode x (entryImage name iNo fType)) :
    s'.Searches d name (some ⟨iNo, fType⟩) ↔ name.length ≤ 15 ∨ iNo.toNat % 256 = 0 := by
  have hk := (mem_slots.mp h.inserted.slot).2.2
  have hanswer := h.inserted.answer_of_absent hs.short hne habsent
  have hname : (s'.inode (s.dir d).inode).nameIn s'.disk x = name ↔ _ :=
    entryName_image hk hnul hlen h.inserted.entry
  have hentry : (s'.inode (s.dir d).inode).entryIn s'.disk x = ⟨iNo, fType⟩ :=
    entryAt_image h.inserted.entry
  rw [searches_iff hmem, hsame.dirInode, lookup_eq_answer, hanswer, ← hname]
  split
  · rename_i heq
    rw [Option.map_some, hentry]
    exact ⟨fun _ => heq, fun _ => rfl⟩
  · rename_i hne'
    refine ⟨fun hno => ?_, fun heq => absurd heq hne'⟩
    cases hno

/-- A table that is replaced is a reference that is lost. -/
private theorem Synced.not_entryAdded {de : Bytes} {e : DirEntry} (hsame : SameHandles s s')
    (h : Synced s s' (s.dir d).inode x de) (hno : ¬ (s.dirInode d).HasRoom s.disk) :
    ¬ EntryAdded s s' d name e := by
  intro hadded
  have h12 : (s.dirInode d).iSectors 12 ≠ 0 := fun h₁ => hno (Or.inl h₁)
  obtain ⟨j, hj, href⟩ := hadded.refs 140 le_rfl (by rw [refs_table]; exact h12)
  rw [refs_table, hsame.dirInode] at href
  exact h.dropped hno j hj href

/-- `sync_dir_entry` adds an entry and keeps the directory exactly when the name reads back and the
direct blocks have room or there is no indirect table. -/
theorem sync_dir_entry_adds_iff (hs : WellFormedDir s (s.dirInode d)) (hmem : s.Served)
    (hcount : ((s.dirInode d).live s.disk).length < 140 * 21) (hne : name ≠ []) (hnul : 0 ∉ name)
    (hlen : name.length ≤ 16) (habsent : s.Searches d name none)
    (h : syncDirEntry d (entryImage name iNo fType) s = .ok (true, s')) :
    EntryAdded s s' d name ⟨iNo, fType⟩ ↔
      (name.length ≤ 15 ∨ iNo.toNat % 256 = 0) ∧ (s.dirInode d).HasRoom s.disk := by
  have hsame := sameHandles_syncDirEntry d _ s _ s' h
  have hmem' := hsame.served hmem
  obtain ⟨x, hx⟩ := syncDirEntry_synced hs h
  have habsent' := ((searches_iff hmem).mp habsent).symm
  have hfound := hx.found_iff hs hmem' hsame hne hnul hlen habsent'
  constructor
  · intro hadded
    refine ⟨hfound.mp hadded.found, ?_⟩
    by_contra hno
    exact hx.not_entryAdded hsame hno hadded
  · rintro ⟨hname, hroom⟩
    have hxname : (s'.inode (s.dir d).inode).nameIn s'.disk x = name :=
      (entryName_image (mem_slots.mp hx.inserted.slot).2.2 hnul hlen hx.inserted.entry).mpr hname
    refine ⟨hfound.mpr hname, fun name' hne' hother r => ?_, ?_, fun i hi href => ⟨i, hi, ?_⟩⟩
    · have hlookup := hx.inserted.lookup_other hs rfl (hx.slots hroom) hne'
        (fun hmem hold => hne' (hold.symm.trans ((hs.free x hmem).mpr (hx.free hroom hmem))))
        (by rw [hxname]; exact hother.symm)
      rw [searches_iff hmem, searches_iff hmem', hsame.dirInode, hlookup]
      rfl
    · have hsize := hs.size
      have h24 : (24 : UInt32).toNat = 24 := rfl
      rw [hsame.dirInode, hx.size, UInt32.toNat_add, h24]
      apply Nat.mod_eq_of_lt
      change (s.dirInode d).iSize.toNat + 24 < _
      omega
    · rw [hsame.dirInode]
      exact hx.refs hroom i hi href

private theorem filled_absent {n : Nat} (h2 : 2 ≤ n) (hn : n ≤ 2940) {name : List UInt8}
    (hne : name ≠ []) (hname : ∀ t < 2940, filledName t ≠ name) :
    (filledState n).Searches d name none := by
  rw [searches_iff fun _ => rfl, eq_comm, lookup_eq_answer, Option.map_eq_none_iff, answer_none]
  intro x hx
  obtain ⟨hi, hlt, hk⟩ := filled_mem_slots.mp hx
  have h : ((filledState n).dirInode d).nameIn (filledState n).disk x = _ :=
    filled_nameIn hn hi hlt hk
  rw [h]
  split
  · exact hname _ (by omega)
  · exact hne.symm

private theorem filledName_ne_single {t : Nat} {c : UInt8} (hc : c ≠ 46) : filledName t ≠ [c] := by
  rw [filledName]
  split
  · intro h
    exact hc (List.cons.inj h).1.symm
  · split
    · simp [dotdot]
    · simp

private theorem filled_absent_long (hlong : 2 < name.length) :
    (filledState 3).Searches d name none := by
  refine filled_absent (by decide) (by decide) ?_ fun t _ hname => ?_
  · rintro rfl
    exact absurd hlong (by decide)
  · have hlen := (filledName_length t).1
    rw [hname] at hlen
    omega

/-- A directory with `.`, `..` and one more entry gets another one. -/
theorem sync_dir_entry_adds_filled : ∃ s', syncDirEntry 0 (entryImage [97] 5 ftRegular)
    (filledState 3) = .ok (true, s') ∧ EntryAdded (filledState 3) s' 0 [97] ⟨5, ftRegular⟩ := by
  obtain ⟨s', h⟩ : ∃ s', syncDirEntry 0 (entryImage [97] 5 ftRegular) (filledState 3) =
    .ok (true, s') := Code.returns_of_toOption (by decide +kernel)
  refine ⟨s', h, ?_⟩
  refine (sync_dir_entry_adds_iff (filled_wellFormed (by decide) (by decide)) (fun _ => rfl)
    ?_ (by decide) (by decide) (by decide) ?_ h).mpr ⟨Or.inl (by decide), Or.inl rfl⟩
  · change ((filledInode 3).live (filledDisk 3)).length < 140 * 21
    rw [filled_live_length (by decide)]
    decide
  · exact filled_absent (by decide) (by decide) (by decide) fun t _ => filledName_ne_single (by decide)

private theorem filled_full {n i : Nat} (hi : i < 12) (hlt : 21 * (i + 1) ≤ n) :
    Full (sectorOf (filledDisk n) ((filledInode n).iSectors i)) := by
  intro k hk
  rw [entriesPerSec] at hk
  have hentry := filled_entryIn (n := n) (i := i) (by omega) (by omega) hk
  rw [Inode.entryIn, allBlocks_direct _ _ hi, if_pos (by omega)] at hentry
  rw [hentry]
  exact filledType_ne _

private theorem filled_noRoom : ¬ (filledInode 253).HasRoom (filledDisk 253) := by
  rintro (h | ⟨i, hi, h | h⟩)
  · exact absurd h (by decide)
  · rw [← allBlocks_direct (filledInode 253) (filledDisk 253) hi, filled_allBlocks,
      if_pos (by omega)] at h
    have := congrArg UInt32.toNat h
    rw [filled_lba (by omega)] at this
    exact absurd this (by simp)
  · exact h (filled_full hi (by omega))

/-- The entry behind the direct blocks is lost when one more is added. -/
theorem sync_dir_entry_drops_table : WellFormedDir (filledState 253)
    ((filledState 253).dirInode 0) ∧ (filledState 253).Searches 0 [97] none ∧
    ∃ s', syncDirEntry 0 (entryImage [97] 5 ftRegular) (filledState 253) = .ok (true, s') ∧
      ¬ EntryAdded (filledState 253) s' 0 [97] ⟨5, ftRegular⟩ := by
  have hs : WellFormedDir (filledState 253) ((filledState 253).dirInode 0) :=
    filled_wellFormed (by decide) (by decide)
  refine ⟨hs, filled_absent (by decide) (by decide) (by decide)
    fun t _ => filledName_ne_single (by decide), ?_⟩
  obtain ⟨s', h⟩ : ∃ s', syncDirEntry 0 (entryImage [97] 5 ftRegular) (filledState 253) =
    .ok (true, s') := Code.returns_of_toOption (by decide +kernel)
  obtain ⟨x, hx⟩ := syncDirEntry_synced hs h
  exact ⟨s', h, hx.not_entryAdded (sameHandles_syncDirEntry _ _ _ _ _ h) filled_noRoom⟩

/-- A slot holds the entry; a search for its name is answered with it, and no other search. -/
def Retrievable (s : State) (d : DirPtr) (name : List UInt8) (iNo fType : UInt32) : Prop :=
  s.Searches d name (some ⟨iNo, fType⟩) ∧
  ∃ x ∈ (s.dirInode d).slots s.disk,
    (∀ a < 24, sectorOf s.disk ((s.dirInode d).allBlocks s.disk x.1) (24 * x.2 + a) =
      entryImage name iNo fType a) ∧
    (s.dirInode d).answer s.disk name = some x ∧
    ∀ name', name' ≠ name → (s.dirInode d).answer s.disk name' ≠ some x

/-- An entry is found under its name, and under no other, exactly when the name has at most fifteen
characters, or sixteen and a zero low byte of the inode number behind it.  The names that are in the
directory before end inside their sixteen bytes. -/
theorem dir_entry_retrievable_iff (hs : WellFormedDir s (s.dirInode d)) (hmem : s.Served)
    (hne : name ≠ []) (hnul : 0 ∉ name) (hlen : name.length ≤ 16)
    (habsent : s.Searches d name none)
    (h : (do syncDirEntry d (← createDirEntry name iNo fType)) s = .ok (true, s')) :
    Retrievable s' d name iNo fType ↔ name.length ≤ 15 ∨ iNo.toNat % 256 = 0 := by
  simp only [createDirEntry, Code.bind_ok, assert_ok, Code.pure_ok] at h
  obtain ⟨de, s₁, ⟨_, s₂, ⟨rfl, -⟩, rfl, rfl⟩, h⟩ := h
  have hsame := sameHandles_syncDirEntry d _ _ _ s' h
  have hmem' := hsame.served hmem
  obtain ⟨x, hx⟩ := syncDirEntry_synced hs h
  have habsent' := ((searches_iff hmem).mp habsent).symm
  have hfound := hx.found_iff hs hmem' hsame hne hnul hlen habsent'
  refine ⟨fun hr => hfound.mp hr.1, fun hname => ⟨hfound.mpr hname, x, ?_⟩⟩
  have hxname : (s'.inode (s₁.dir d).inode).nameIn s'.disk x = name :=
    (entryName_image (mem_slots.mp hx.inserted.slot).2.2 hnul hlen hx.inserted.entry).mpr hname
  have hanswer := hx.inserted.answer_of_absent hs.short hne habsent'
  rw [if_pos hxname] at hanswer
  rw [hsame.dirInode]
  refine ⟨hx.inserted.slot, hx.inserted.entry, hanswer, fun name' hother hx' => ?_⟩
  exact hother ((answer_some hx').2.symm.trans hxname)

/-- A name of fifteen characters. -/
theorem dir_entry_retrievable_fifteen : ∃ s',
    (do syncDirEntry 0 (← createDirEntry (List.replicate 15 97) 5 ftRegular)) (filledState 3) =
      .ok (true, s') ∧ Retrievable s' 0 (List.replicate 15 97) 5 ftRegular := by
  obtain ⟨s', h⟩ : ∃ s', (do syncDirEntry 0 (← createDirEntry (List.replicate 15 97) 5 ftRegular))
    (filledState 3) = .ok (true, s') := Code.returns_of_toOption (by decide +kernel)
  refine ⟨s', h, ?_⟩
  refine (dir_entry_retrievable_iff (filled_wellFormed (by decide) (by decide)) (fun _ => rfl)
    (by decide) (by decide) (by decide) (filled_absent_long (by decide)) h).mpr (Or.inl (by decide))

/-- A name of sixteen characters and inode number 5: the entry is there and is not found. -/
theorem dir_entry_sixteen_lost : WellFormedDir (filledState 3) ((filledState 3).dirInode 0) ∧
    (filledState 3).Searches 0 (List.replicate 16 97) none ∧
    ∃ s', (do syncDirEntry 0 (← createDirEntry (List.replicate 16 97) 5 ftRegular)) (filledState 3) =
      .ok (true, s') ∧ ¬ Retrievable s' 0 (List.replicate 16 97) 5 ftRegular := by
  have hs : WellFormedDir (filledState 3) ((filledState 3).dirInode 0) :=
    filled_wellFormed (by decide) (by decide)
  have habsent : (filledState 3).Searches 0 (List.replicate 16 97) none :=
    filled_absent_long (by decide)
  have hmem : (filledState 3).Served := fun _ => rfl
  obtain ⟨s', h⟩ : ∃ s', (do syncDirEntry 0 (← createDirEntry (List.replicate 16 97) 5 ftRegular))
    (filledState 3) = .ok (true, s') := Code.returns_of_toOption (by decide +kernel)
  refine ⟨hs, habsent, s', h, fun hr => ?_⟩
  have hsync : syncDirEntry 0 (entryImage (List.replicate 16 97) 5 ftRegular) (filledState 3) =
    .ok (true, s') := h
  have hsame := sameHandles_syncDirEntry _ _ _ _ _ hsync
  obtain ⟨x, hx⟩ := syncDirEntry_synced hs hsync
  have hcond := (hx.found_iff hs (hsame.served hmem) hsame (by decide) (by decide) (by decide)
    ((searches_iff hmem).mp habsent).symm).mp hr.1
  exact absurd hcond (by decide)

end Added

end Aitos.Fs
