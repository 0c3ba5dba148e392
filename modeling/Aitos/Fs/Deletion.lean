import Aitos.Fs.Insertion

/-!
# Deleting a directory entry

`delete_dir_entry` clears the slot of the entry, or gives its block back when no other entry is left
in it.  Giving back a direct block changes an array on the stack only; for an indirect block the loop
that counts the blocks of the table does not end.
-/

namespace Aitos.Fs

open Framework

section Loop

/-- The loop that counts the indirect blocks, which does not advance `indirect_block_idx`. -/
def countIndirect (blocks : Nat → UInt32) : Nat → Nat → Nat → FsM (Nat × Nat)
  | 0, _, _ => fault .diverge
  | fuel + 1, idx, cnt =>
      if idx < 140 then countIndirect blocks fuel idx (if blocks idx ≠ 0 then cnt + 1 else cnt)
      else return (idx, cnt)

/-- Take an indirect block out of its table, and the table out of the inode when it is the last one. -/
def dropIndirect (fuel : Nat) (p : Ptr) (blocks : Nat → UInt32) : FsM Unit := do
  let (idx, cnt) ← countIndirect blocks fuel 12 0
  assert (1 ≤ cnt)
  require (idx < 140) .outOfBounds
  let s ← get
  ideWrite ((s.inode p).iSectors 12)
    (Bytes.ofWords fun k => Function.update blocks idx 0 (12 + k)) 1
  if cnt ≤ 1 then
    releaseBlock (Function.update blocks idx 0 12)
    modify fun s => s.setSector p 12 0

/-- `clearEntry` with the counting loop spelled out. -/
def clearEntryFor (fuel : Nat) (p : Ptr) (blocks : Nat → UInt32) (i : Nat) (buf : Bytes) (k : Nat)
    (sc : Scan) : FsM Unit :=
  if sc.lastEntry then do
    releaseBlock (blocks i)
    if i < 12 then return
    else dropIndirect fuel p blocks
  else ideWrite (blocks i) (buf.fill (24 * k) 24 0) 1

/-- The end of `delete_dir_entry`: the size and the inode. -/
def finishDelete (p : Ptr) : FsM Bool := do
  let s ← get
  assert (24 ≤ (s.inode p).iSize)
  modify fun s => s.setSize p ((s.inode p).iSize - 24)
  inodeSync ((← get).inode p)
  return true

def deleteLoopFor (fuel : Nat) (p : Ptr) (inodeNo : UInt32) (blocks : Nat → UInt32) (i : Nat) :
    Nat → FsM Bool
  | 0 => return false
  | n + 1 =>
      if blocks i = 0 then deleteLoopFor fuel p inodeNo blocks (i + 1) n
      else do
        let buf ← ideRead (blocks i) Bytes.zero 1
        let sc := scanSector buf inodeNo
        assert (sc.twice = false)
        match sc.found with
        | none => deleteLoopFor fuel p inodeNo blocks (i + 1) n
        | some k =>
            clearEntryFor fuel p blocks i buf k sc
            finishDelete p

/-- `delete_dir_entry`, of whose counting loop `fuel` turns are looked at. -/
def deleteDirEntryFor (fuel : Nat) (pdir : DirPtr) (inodeNo : UInt32) : FsM Bool := do
  let s ← get
  let p := (s.dir pdir).inode
  deleteLoopFor fuel p inodeNo ((s.inode p).allBlocks s.disk) 0 140

private theorem countIndirect_diverges (blocks : Nat → UInt32) (fuel : Nat) :
    ∀ {idx : Nat} (cnt : Nat), idx < 140 → countIndirect blocks fuel idx cnt = fault .diverge := by
  induction fuel with
  | zero =>
      intro idx cnt _
      rfl
  | succ fuel ih =>
      intro idx cnt hidx
      rw [countIndirect, if_pos hidx]
      exact ih _ hidx

private theorem dropIndirect_diverges (fuel : Nat) (p : Ptr) (blocks : Nat → UInt32) :
    dropIndirect fuel p blocks = fault .diverge := by
  rw [dropIndirect, countIndirect_diverges blocks fuel 0 (by decide)]
  rfl

private theorem clearEntryFor_eq (fuel : Nat) (p : Ptr) (blocks : Nat → UInt32) (i : Nat)
    (buf : Bytes) (k : Nat) (sc : Scan) :
    clearEntryFor fuel p blocks i buf k sc = clearEntry blocks i buf k sc := by
  rw [clearEntryFor, clearEntry]
  split
  · congr 1
    funext _
    rw [dropIndirect_diverges, require]
  · rfl

/-- No number of turns makes a difference: the loop never ends. -/
private theorem deleteLoopFor_eq (fuel : Nat) (p : Ptr) (inodeNo : UInt32) (blocks : Nat → UInt32)
    (n : Nat) : ∀ i, deleteLoopFor fuel p inodeNo blocks i n = deleteLoop p inodeNo blocks i n := by
  induction n with
  | zero =>
      intro i
      rfl
  | succ n ih =>
      intro i
      rw [deleteLoopFor, deleteLoop]
      split
      · exact ih _
      · simp only [ih, clearEntryFor_eq]
        rfl

private theorem deleteDirEntryFor_eq (fuel : Nat) (pdir : DirPtr) (inodeNo : UInt32) :
    deleteDirEntryFor fuel pdir inodeNo = deleteDirEntry pdir inodeNo := by
  rw [deleteDirEntryFor, deleteDirEntry]
  simp only [deleteLoopFor_eq]

end Loop

section Scan

variable {buf : Bytes} {n : UInt32}

/-- What `delete_dir_entry` knows after `m` slots of a sector. -/
structure Scanned (buf : Bytes) (n : UInt32) (m : Nat) (sc : Scan) : Prop where
  first : sc.isDirFirstBlock = true ↔
    ∃ k < m, (entryAt buf k).fType ≠ ftUnknown ∧ entryName buf k = dot
  count : sc.dirEntryCnt = ((List.range m).filter fun k => Holds buf k).length
  absent : sc.found = none → ∀ k < m, Holds buf k → (entryAt buf k).iNo ≠ n
  found : ∀ k, sc.found = some k → k < m ∧ Holds buf k ∧ (entryAt buf k).iNo = n
  twice : sc.twice = true → ∃ k < m, ∃ l < m, k ≠ l ∧ (Holds buf k ∧ (entryAt buf k).iNo = n) ∧
    Holds buf l ∧ (entryAt buf l).iNo = n

private theorem exists_lt_succ_iff {P : Nat → Prop} {m : Nat} :
    (∃ k < m + 1, P k) ↔ (∃ k < m, P k) ∨ P m := by
  constructor
  · rintro ⟨k, hk, h⟩
    by_cases hkm : k = m
    · exact Or.inr (hkm ▸ h)
    · exact Or.inl ⟨k, by omega, h⟩
  · rintro (⟨k, hk, h⟩ | h)
    · exact ⟨k, by omega, h⟩
    · exact ⟨m, by omega, h⟩

private theorem length_filter_range_succ {P : Nat → Prop} [DecidablePred P] (m : Nat) :
    ((List.range (m + 1)).filter fun k => P k).length =
      ((List.range m).filter fun k => P k).length + if P m then 1 else 0 := by
  rw [List.range_succ, List.filter_append, List.length_append, List.filter_singleton]
  by_cases h : P m
  · simp [h]
  · simp [h]

theorem Scanned.skip {m : Nat} {sc : Scan} (h : Scanned buf n m sc) (hno : ¬ Holds buf m)
    (b : Bool) (hb : b = true ↔ sc.isDirFirstBlock = true ∨
      (entryAt buf m).fType ≠ ftUnknown ∧ entryName buf m = dot) :
    Scanned buf n (m + 1) { sc with isDirFirstBlock := b } where
  first := by rw [exists_lt_succ_iff, ← h.first, hb]
  count := by
    rw [length_filter_range_succ, if_neg hno, ← h.count]
    rfl
  absent hf k hk hholds := by
    have hkm : k ≠ m := fun heq => hno (heq ▸ hholds)
    exact h.absent hf k (by omega) hholds
  found k hk := by
    obtain ⟨hlt, hrest⟩ := h.found k hk
    exact ⟨by omega, hrest⟩
  twice ht := by
    obtain ⟨k, hk, l, hl, hrest⟩ := h.twice ht
    exact ⟨k, by omega, l, by omega, hrest⟩

private theorem scanned_entry {m : Nat} {sc : Scan} (h : Scanned buf n m sc) :
    Scanned buf n (m + 1) (sc.entry buf n m) := by
  have hself : sc = { sc with isDirFirstBlock := sc.isDirFirstBlock } := rfl
  rw [Scan.entry]
  split
  · rename_i hfree
    rw [hself]
    refine h.skip (fun hholds => hholds.1 hfree) _ ⟨Or.inl, ?_⟩
    rintro (hb | hb)
    · exact hb
    · exact absurd hfree hb.1
  rename_i hused
  split
  · rename_i hdot
    exact h.skip (fun hholds => hholds.2.1 hdot) true ⟨fun _ => Or.inr ⟨hused, hdot⟩, fun _ => rfl⟩
  rename_i hdot
  split
  · rename_i hdotdot
    rw [hself]
    refine h.skip (fun hholds => hholds.2.2 hdotdot) _ ⟨Or.inl, ?_⟩
    rintro (hb | hb)
    · exact hb
    · exact absurd hb.2 hdot
  rename_i hdotdot
  have hholds : Holds buf m := ⟨hused, hdot, hdotdot⟩
  have hfirst : sc.isDirFirstBlock = true ↔
      ∃ k < m + 1, (entryAt buf k).fType ≠ ftUnknown ∧ entryName buf k = dot := by
    rw [exists_lt_succ_iff, ← h.first]
    refine ⟨Or.inl, ?_⟩
    rintro (hb | hb)
    · exact hb
    · exact absurd hb.2 hdot
  have hcount : sc.dirEntryCnt + 1 = ((List.range (m + 1)).filter fun k => Holds buf k).length := by
    rw [length_filter_range_succ, if_pos hholds, h.count]
  split
  · rename_i hno
    refine ⟨hfirst, hcount, fun hf => ?_, fun k hk => ?_, fun ht => ?_⟩
    · cases hf
    · obtain rfl := Option.some.inj hk
      exact ⟨Nat.lt_succ_self _, hholds, hno⟩
    · rcases (Bool.or_eq_true _ _).mp ht with ht | ht
      · obtain ⟨k, hk, l, hl, hrest⟩ := h.twice ht
        exact ⟨k, by omega, l, by omega, hrest⟩
      · obtain ⟨k, hk⟩ := Option.isSome_iff_exists.mp ht
        obtain ⟨hlt, hrest⟩ := h.found k hk
        exact ⟨k, by omega, m, by omega, by omega, hrest, hholds, hno⟩
  · rename_i hno
    refine ⟨hfirst, hcount, fun hf k hk hk' => ?_, fun k hk => ?_, fun ht => ?_⟩
    · by_cases hkm : k = m
      · rw [hkm]
        exact hno
      · exact h.absent hf k (by omega) hk'
    · obtain ⟨hlt, hrest⟩ := h.found k hk
      exact ⟨by omega, hrest⟩
    · obtain ⟨k, hk, l, hl, hrest⟩ := h.twice ht
      exact ⟨k, by omega, l, by omega, hrest⟩

private theorem scanned_range (buf : Bytes) (n : UInt32) (m : Nat) :
    Scanned buf n m ((List.range m).foldl (fun sc k => sc.entry buf n k) ⟨false, 0, none, false⟩) := by
  induction m with
  | zero =>
      refine ⟨?_, rfl, fun _ k hk => ?_, fun k hk => ?_, fun ht => ?_⟩
      · simp
      · omega
      · cases hk
      · cases ht
  | succ m ih =>
      rw [List.range_succ, List.foldl_append]
      exact scanned_entry ih

private theorem scanned_sector (buf : Bytes) (n : UInt32) :
    Scanned buf n entriesPerSec (scanSector buf n) := scanned_range buf n entriesPerSec

private theorem scanSector_found {k : Nat} (hk : k < entriesPerSec) (hholds : Holds buf k)
    (hno : (entryAt buf k).iNo = n)
    (hone : ∀ l < entriesPerSec, Holds buf l → (entryAt buf l).iNo = n → l = k) :
    (scanSector buf n).found = some k ∧ (scanSector buf n).twice = false := by
  have h := scanned_sector buf n
  constructor
  · cases hf : (scanSector buf n).found with
    | none => exact absurd hno (h.absent hf k hk hholds)
    | some l =>
        obtain ⟨hl, hl', hlno⟩ := h.found l hf
        rw [hone l hl hl' hlno]
  · by_contra ht
    obtain ⟨l, hl, l', hl', hne, ⟨h₁, h₂⟩, h₃, h₄⟩ := h.twice (by simpa using ht)
    exact hne ((hone l hl h₁ h₂).trans (hone l' hl' h₃ h₄).symm)

private theorem scanSector_absent
    (hno : ∀ k < entriesPerSec, Holds buf k → (entryAt buf k).iNo ≠ n) :
    (scanSector buf n).found = none ∧ (scanSector buf n).twice = false := by
  have h := scanned_sector buf n
  constructor
  · by_contra hf
    obtain ⟨k, hk⟩ := Option.ne_none_iff_exists'.mp hf
    obtain ⟨hlt, hholds, hkno⟩ := h.found k hk
    exact hno k hlt hholds hkno
  · by_contra ht
    obtain ⟨k, hk, -, -, -, ⟨h₁, h₂⟩, -⟩ := h.twice (by simpa using ht)
    exact hno k hk h₁ h₂

/-- The block is given back when its only entry goes and `.` is not in it. -/
private theorem lastEntry_scanSector {k : Nat} (hk : k < entriesPerSec) (hholds : Holds buf k) :
    (scanSector buf n).lastEntry = true ↔
      (∀ l < entriesPerSec, Holds buf l → l = k) ∧
      ∀ l < entriesPerSec, (entryAt buf l).fType ≠ ftUnknown → entryName buf l ≠ dot := by
  have h := scanned_sector buf n
  have hcount : (scanSector buf n).dirEntryCnt = 1 ↔ ∀ l < entriesPerSec, Holds buf l → l = k := by
    rw [h.count, List.length_eq_one_iff]
    constructor
    · rintro ⟨a, ha⟩ l hl hl'
      have hmem : ∀ {l}, l < entriesPerSec → Holds buf l → l = a := by
        intro l hl hl'
        have : l ∈ (List.range entriesPerSec).filter fun k => Holds buf k :=
          List.mem_filter.mpr ⟨List.mem_range.mpr hl, decide_eq_true hl'⟩
        rw [ha] at this
        exact List.mem_singleton.mp this
      rw [hmem hl hl', hmem hk hholds]
    · intro hone
      refine ⟨k, ?_⟩
      apply List.perm_singleton.mp
      rw [List.perm_ext_iff_of_nodup (List.nodup_range.filter _) (List.nodup_singleton k)]
      intro l
      simp only [List.mem_filter, List.mem_range, decide_eq_true_eq, List.mem_singleton]
      refine ⟨fun hl => hone l hl.1 hl.2, ?_⟩
      rintro rfl
      exact ⟨hk, hholds⟩
  have hfirst : (scanSector buf n).isDirFirstBlock = false ↔
      ∀ l < entriesPerSec, (entryAt buf l).fType ≠ ftUnknown → entryName buf l ≠ dot := by
    rw [← Bool.not_eq_true, h.first]
    push Not
    rfl
  rw [Scan.lastEntry, Bool.and_eq_true, Bool.not_eq_true', decide_eq_true_eq, hcount, hfirst]

end Scan

section Run

variable {s : State} {p : Ptr} {n : UInt32} {blocks : Nat → UInt32}

private theorem deleteLoop_absent (m : Nat) : ∀ {i : Nat},
    (∀ j, i ≤ j → j < i + m → blocks j ≠ 0 → ∀ k < entriesPerSec,
      Holds (sectorOf s.disk (blocks j)) k → (entryAt (sectorOf s.disk (blocks j)) k).iNo ≠ n) →
    deleteLoop p n blocks i m s = .ok (false, s) := by
  induction m with
  | zero =>
      intro i _
      rfl
  | succ m ih =>
      intro i hno
      have hrest := ih (i := i + 1) fun j h₁ h₂ => hno j (by omega) (by omega)
      rw [deleteLoop]
      split
      · exact hrest
      · rename_i hblock
        obtain ⟨hfound, htwice⟩ := scanSector_absent (hno i le_rfl (by omega) hblock)
        have hread : ideRead (blocks i) Bytes.zero 1 s = .ok (sectorOf s.disk (blocks i), s) := rfl
        have hassert : assert ((scanSector (sectorOf s.disk (blocks i)) n).twice = false) s =
          .ok ((), s) := assert_ok.mpr ⟨rfl, Or.inr htwice⟩
        rw [Code.bind_of_ok hread, Code.bind_of_ok hassert, hfound]
        exact hrest

private theorem deleteLoop_found {j k : Nat} (hblock : blocks j ≠ 0) (hk : k < entriesPerSec)
    (hholds : Holds (sectorOf s.disk (blocks j)) k)
    (hno : (entryAt (sectorOf s.disk (blocks j)) k).iNo = n) (m : Nat) : ∀ {i : Nat},
    i ≤ j → j < i + m →
    (∀ j', i ≤ j' → j' < i + m → blocks j' ≠ 0 → ∀ l < entriesPerSec,
      Holds (sectorOf s.disk (blocks j')) l →
        (entryAt (sectorOf s.disk (blocks j')) l).iNo = n → j' = j ∧ l = k) →
    deleteLoop p n blocks i m s = (do
      clearEntry blocks j (sectorOf s.disk (blocks j)) k (scanSector (sectorOf s.disk (blocks j)) n)
      finishDelete p) s := by
  induction m with
  | zero =>
      intro i h₁ h₂
      omega
  | succ m ih =>
      intro i h₁ h₂ hone
      rw [deleteLoop]
      by_cases hij : i = j
      · subst hij
        obtain ⟨hfound, htwice⟩ := scanSector_found hk hholds hno fun l hl hl' hlno =>
          (hone i le_rfl (by omega) hblock l hl hl' hlno).2
        have hread : ideRead (blocks i) Bytes.zero 1 s = .ok (sectorOf s.disk (blocks i), s) := rfl
        have hassert : assert ((scanSector (sectorOf s.disk (blocks i)) n).twice = false) s =
          .ok ((), s) := assert_ok.mpr ⟨rfl, Or.inr htwice⟩
        rw [if_neg hblock, Code.bind_of_ok hread, Code.bind_of_ok hassert, hfound]
        rfl
      · have hrest := ih (i := i + 1) (by omega) (by omega) fun j' h₃ h₄ =>
          hone j' (by omega) (by omega)
        split
        · exact hrest
        · rename_i hblock'
          have hno' : ∀ l < entriesPerSec, Holds (sectorOf s.disk (blocks i)) l →
              (entryAt (sectorOf s.disk (blocks i)) l).iNo ≠ n := fun l hl hl' hlno =>
            hij (hone i le_rfl (by omega) hblock' l hl hl' hlno).1
          obtain ⟨hfound, htwice⟩ := scanSector_absent hno'
          have hread : ideRead (blocks i) Bytes.zero 1 s = .ok (sectorOf s.disk (blocks i), s) := rfl
          have hassert : assert ((scanSector (sectorOf s.disk (blocks i)) n).twice = false) s =
            .ok ((), s) := assert_ok.mpr ⟨rfl, Or.inr htwice⟩
          rw [Code.bind_of_ok hread, Code.bind_of_ok hassert, hfound]
          exact hrest

/-- The state after the end of `delete_dir_entry`. -/
def State.shrink (s : State) (p : Ptr) : State :=
  (s.setSize p ((s.inode p).iSize - 24)).setSlot ((s.inode p).iNo.toNat % 256)
    ({ s.inode p with iSize := (s.inode p).iSize - 24 } : Inode).pureImage

private theorem finishDelete_eq (h : 24 ≤ (s.inode p).iSize) :
    finishDelete p s = .ok (true, s.shrink p) := by
  have hassert : assert (24 ≤ (s.inode p).iSize) s = .ok ((), s) := assert_ok.mpr ⟨rfl, Or.inr h⟩
  have hino : (s.setSize p ((s.inode p).iSize - 24)).inode p =
      { s.inode p with iSize := (s.inode p).iSize - 24 } := Function.update_self _ _ _
  rw [finishDelete, Code.get_bind, Code.bind_of_ok hassert, Code.modify_bind, Code.get_bind, hino,
    Code.bind_of_ok (inodeSync_eq _ _)]
  rfl

end Run

section Directory

variable {s : State} {d : DirPtr} {n : UInt32} {x : Nat × Nat}

/-- No other entry is in the block of slot `x`, which is not the first block. -/
def Inode.Last (ino : Inode) (disk : Bytes) (x : Nat × Nat) : Prop :=
  x.1 ≠ 0 ∧ ∀ y ∈ ino.slots disk, ino.HoldsIn disk y → y.1 = x.1 → y = x

private theorem WellFormedDir.slot_zero (hs : WellFormedDir s (s.dirInode d)) :
    (0, 0) ∈ (s.dirInode d).slots s.disk := by
  refine mem_slots.mpr ⟨by decide, ?_, by decide⟩
  rw [allBlocks_direct _ _ (by decide)]
  exact hs.firstBlock

private theorem lastEntry_iff (hs : WellFormedDir s (s.dirInode d))
    (hx : x ∈ (s.dirInode d).slots s.disk)
    (hholds : (s.dirInode d).HoldsIn s.disk x) (n : UInt32) :
    (scanSector (sectorOf s.disk ((s.dirInode d).allBlocks s.disk x.1)) n).lastEntry = true ↔
      (s.dirInode d).Last s.disk x := by
  obtain ⟨hi, hblock, hk⟩ := mem_slots.mp hx
  have hslot : ∀ l < entriesPerSec, (x.1, l) ∈ (s.dirInode d).slots s.disk :=
    fun l hl => mem_slots.mpr ⟨hi, hblock, hl⟩
  rw [lastEntry_scanSector hk hholds]
  constructor
  · rintro ⟨hone, hdot⟩
    refine ⟨fun h0 => ?_, fun y hy hy' hyx => ?_⟩
    · -- block 0 has `.` in its first slot
      obtain ⟨i, k⟩ := x
      obtain rfl : i = 0 := h0
      have hne : (s.dirInode d).nameIn s.disk (0, 0) ≠ [] := by
        rw [hs.dot]
        decide
      exact hdot 0 (by decide) (mt (hs.free _ hs.slot_zero).mpr hne) hs.dot
    · obtain ⟨i, l⟩ := y
      obtain rfl : i = x.1 := hyx
      have := hone l (mem_slots.mp hy).2.2 hy'
      rw [this]
  · rintro ⟨h0, hone⟩
    refine ⟨fun l hl hl' => ?_, fun l hl _ hname => ?_⟩
    · exact congrArg Prod.snd (hone (x.1, l) (hslot l hl) hl' rfl)
    · have hne : (s.dirInode d).nameIn s.disk (x.1, l) ≠ [] := by
        rw [show (s.dirInode d).nameIn s.disk (x.1, l) = dot from hname]
        decide
      have heq := hs.unique _ (hslot l hl) _ hs.slot_zero hne (hname.trans hs.dot.symm)
      exact h0 (congrArg Prod.fst heq)

private theorem size_of_holds (hs : WellFormedDir s (s.dirInode d))
    (hx : x ∈ (s.dirInode d).slots s.disk) (hholds : (s.dirInode d).HoldsIn s.disk x) :
    24 ≤ (s.dirInode d).iSize.toNat := by
  have hmem : x ∈ (s.dirInode d).live s.disk :=
    List.mem_filter.mpr ⟨hx, decide_eq_true hholds.1⟩
  have hpos := List.length_pos_of_mem hmem
  have hsize := hs.size
  omega

private theorem deleteDirEntry_found (hs : WellFormedDir s (s.dirInode d))
    (hx : x ∈ (s.dirInode d).slots s.disk) (hholds : (s.dirInode d).HoldsIn s.disk x) :
    deleteDirEntry d ((s.dirInode d).entryIn s.disk x).iNo s = (do
      clearEntry ((s.dirInode d).allBlocks s.disk) x.1
        (sectorOf s.disk ((s.dirInode d).allBlocks s.disk x.1)) x.2
        (scanSector (sectorOf s.disk ((s.dirInode d).allBlocks s.disk x.1))
          ((s.dirInode d).entryIn s.disk x).iNo)
      finishDelete (s.dir d).inode) s := by
  obtain ⟨hi, hblock, hk⟩ := mem_slots.mp hx
  rw [deleteDirEntry, Code.get_bind]
  refine deleteLoop_found hblock hk hholds rfl 140 (Nat.zero_le _) (by omega) ?_
  intro j _ hj hblock' l hl hl' hlno
  have heq := hs.numbers (j, l) (mem_slots.mpr ⟨by omega, hblock', hl⟩) x hx hl' hholds hlno
  exact ⟨congrArg Prod.fst heq, congrArg Prod.snd heq⟩

theorem deleteDirEntry_absent
    (hno : ∀ x ∈ (s.dirInode d).slots s.disk, (s.dirInode d).HoldsIn s.disk x →
      ((s.dirInode d).entryIn s.disk x).iNo ≠ n) : deleteDirEntry d n s = .ok (false, s) := by
  rw [deleteDirEntry, Code.get_bind]
  refine deleteLoop_absent 140 fun j _ hj hblock k hk hholds => ?_
  exact hno (j, k) (mem_slots.mpr ⟨by omega, hblock, hk⟩) hholds

theorem deleteDirEntry_clears (hs : WellFormedDir s (s.dirInode d))
    (hx : x ∈ (s.dirInode d).slots s.disk) (hholds : (s.dirInode d).HoldsIn s.disk x)
    (hlast : ¬ (s.dirInode d).Last s.disk x) :
    deleteDirEntry d ((s.dirInode d).entryIn s.disk x).iNo s = .ok (true,
      (s.writeSectors ((s.dirInode d).allBlocks s.disk x.1)
        ((sectorOf s.disk ((s.dirInode d).allBlocks s.disk x.1)).fill (24 * x.2) 24 0) 1).shrink
          (s.dir d).inode) := by
  have hsize := size_of_holds hs hx hholds
  have hwrite : ∀ lba buf, ideWrite lba buf 1 s = .ok ((), s.writeSectors lba buf 1) :=
    fun _ _ => rfl
  rw [deleteDirEntry_found hs hx hholds, clearEntry,
    if_neg (mt (lastEntry_iff hs hx hholds _).mp hlast), Code.bind_of_ok (hwrite _ _)]
  apply finishDelete_eq
  exact UInt32.le_iff_toNat_le.mpr hsize

theorem deleteDirEntry_releases (hs : WellFormedDir s (s.dirInode d))
    (hx : x ∈ (s.dirInode d).slots s.disk) (hholds : (s.dirInode d).HoldsIn s.disk x)
    (hlast : (s.dirInode d).Last s.disk x) :
    deleteDirEntry d ((s.dirInode d).entryIn s.disk x).iNo s =
      if x.1 < 12 then
        .ok (true, (s.giveBack ((s.dirInode d).allBlocks s.disk x.1)).shrink (s.dir d).inode)
      else .error .diverge := by
  obtain ⟨hi, hblock, hk⟩ := mem_slots.mp hx
  have hsize := size_of_holds hs hx hholds
  have hrelease := releaseBlock_eq (hs.block hi hblock).inMap
  rw [deleteDirEntry_found hs hx hholds, clearEntry,
    if_pos ((lastEntry_iff hs hx hholds _).mpr hlast)]
  split
  · rename_i hlt
    have hclear : (do releaseBlock ((s.dirInode d).allBlocks s.disk x.1); require (x.1 < 12) .diverge :
        FsM Unit) s = .ok ((), s.giveBack ((s.dirInode d).allBlocks s.disk x.1)) := by
      rw [Code.bind_of_ok hrelease, require, if_pos hlt]
      rfl
    rw [Code.bind_of_ok hclear]
    apply finishDelete_eq
    exact UInt32.le_iff_toNat_le.mpr hsize
  · rename_i hge
    rw [bind_assoc, Code.bind_of_ok hrelease, require, if_neg hge]
    rfl

/-- `delete_dir_entry` returns exactly when it does not have to take the last entry out of an indirect
block. -/
theorem delete_dir_entry_returns_iff (hs : WellFormedDir s (s.dirInode d)) (n : UInt32) :
    (∃ fuel b s', deleteDirEntryFor fuel d n s = .ok (b, s')) ↔
      ¬ ∃ x ∈ (s.dirInode d).slots s.disk, (s.dirInode d).HoldsIn s.disk x ∧
        ((s.dirInode d).entryIn s.disk x).iNo = n ∧ 12 ≤ x.1 ∧
        ∀ y ∈ (s.dirInode d).slots s.disk, (s.dirInode d).HoldsIn s.disk y → y.1 = x.1 → y = x := by
  simp only [deleteDirEntryFor_eq]
  constructor
  · rintro ⟨-, b, s', h⟩ ⟨x, hx, hholds, rfl, h12, hone⟩
    rw [deleteDirEntry_releases hs hx hholds ⟨by omega, hone⟩, if_neg (by omega)] at h
    cases h
  · intro hno
    by_cases hfound : ∃ x ∈ (s.dirInode d).slots s.disk, (s.dirInode d).HoldsIn s.disk x ∧
        ((s.dirInode d).entryIn s.disk x).iNo = n
    · obtain ⟨x, hx, hholds, rfl⟩ := hfound
      by_cases hlast : (s.dirInode d).Last s.disk x
      · have hlt : x.1 < 12 := by
          by_contra hge
          exact hno ⟨x, hx, hholds, rfl, by omega, hlast.2⟩
        exact ⟨0, true, _, (deleteDirEntry_releases hs hx hholds hlast).trans (if_pos hlt)⟩
      · exact ⟨0, true, _, deleteDirEntry_clears hs hx hholds hlast⟩
    · refine ⟨0, false, s, deleteDirEntry_absent fun x hx hholds hxno => ?_⟩
      exact hfound ⟨x, hx, hholds, hxno⟩

private theorem filled_last {x : Nat × Nat} (hx : x ∈ (filledInode 253).slots (filledDisk 253))
    (h12 : x.1 = 12) (hholds : (filledInode 253).HoldsIn (filledDisk 253) x) : x = (12, 0) := by
  obtain ⟨-, ht⟩ := (filled_holds (by decide) hx).mp hholds
  apply Prod.ext
  · exact h12
  · change x.2 = 0
    omega

/-- The directory with 253 entries: its second entry can be deleted. -/
theorem delete_dir_entry_returns_filled :
    ∃ fuel b s', deleteDirEntryFor fuel 0 102 (filledState 253) = .ok (b, s') := by
  have hs : WellFormedDir (filledState 253) ((filledState 253).dirInode 0) :=
    filled_wellFormed (by decide) (by decide)
  refine (delete_dir_entry_returns_iff hs 102).mpr ?_
  rintro ⟨x, hx, hholds, hno, h12, -⟩
  have hx' : x ∈ (filledInode 253).slots (filledDisk 253) := hx
  obtain ⟨hi, hlt, hk⟩ := filled_mem_slots.mp hx'
  obtain ⟨h2, ht⟩ := (filled_holds (by decide) hx').mp hholds
  have hentry : ((filledState 253).dirInode 0).entryIn (filledState 253).disk x = _ :=
    filled_entryIn hi hlt hk
  rw [hentry, if_pos ht] at hno
  have hno' := congrArg UInt32.toNat hno
  rw [filledNo_toNat h2 (by omega)] at hno'
  have h102 : (102 : UInt32).toNat = 102 := rfl
  omega

/-- The last entry of the directory with 253 entries is alone in its indirect block, and the call that
is to delete it does not return. -/
theorem delete_dir_entry_diverges :
    WellFormedDir (filledState 253) ((filledState 253).dirInode 0) ∧
      ∀ fuel, deleteDirEntryFor fuel 0 352 (filledState 253) = .error .diverge := by
  have hs : WellFormedDir (filledState 253) ((filledState 253).dirInode 0) :=
    filled_wellFormed (by decide) (by decide)
  have hx : (12, 0) ∈ (filledInode 253).slots (filledDisk 253) :=
    filled_mem_slots.mpr ⟨by decide, by decide, by decide⟩
  have hentry : ((filledState 253).dirInode 0).entryIn (filledState 253).disk (12, 0) =
      ⟨352, ftRegular⟩ := filled_entryIn (by decide) (by decide) (by decide)
  have hholds : (filledInode 253).HoldsIn (filledDisk 253) (12, 0) :=
    (filled_holds (by decide) hx).mpr ⟨by decide, by decide⟩
  refine ⟨hs, fun fuel => ?_⟩
  have h := deleteDirEntry_releases hs hx hholds
    ⟨by decide, fun y hy hy' hy12 => filled_last hy hy12 hy'⟩
  rw [hentry] at h
  rw [deleteDirEntryFor_eq, h]
  rfl

end Directory

section Removed

variable {s s' : State} {d : DirPtr} {x : Nat × Nat}

/-- The inode as the inode table has it. -/
def State.diskInode (s : State) (n : UInt32) : Inode := Inode.ofBytes (s.slot n.toNat)

/-- The inode table has the block pointers of the inode. -/
def Persistent (s : State) (ino : Inode) : Prop :=
  ino.iNo.toNat < 4096 ∧ ∀ i ≤ 12, (s.diskInode ino.iNo).iSectors i = ino.iSectors i

/-- The entry called `name` was removed from the directory and nothing else has changed in it; neither
the inode in memory nor the one on the disk refers to a block that is free. -/
structure EntryRemoved (s s' : State) (d : DirPtr) (name : List UInt8) : Prop where
  gone : s'.Searches d name none
  others : ∀ name', name' ≠ [] → name' ≠ name → ∀ r, s.Searches d name' r ↔ s'.Searches d name' r
  size : (s'.dirInode d).iSize.toNat + 24 = (s.dirInode d).iSize.toNat
  inMemory : ∀ i ≤ 140, (s'.dirInode d).refs s'.disk i ≠ 0 →
    s'.blockBitmap (s'.blockIdx ((s'.dirInode d).refs s'.disk i)) = true
  onDisk : ∀ i ≤ 140, (s'.diskInode (s.dirInode d).iNo).refs s'.disk i ≠ 0 →
    s'.blockBitmap (s'.blockIdx ((s'.diskInode (s.dirInode d).iNo).refs s'.disk i)) = true

private theorem shrink_inode (s : State) (p : Ptr) :
    (s.shrink p).inode p = { s.inode p with iSize := (s.inode p).iSize - 24 } :=
  Function.update_self _ _ _

theorem sameData_shrink (s : State) (p : Ptr) : SameData s (s.shrink p) :=
  sameData_setSlot (s := s.setSize p ((s.inode p).iSize - 24)) (by omega) _

private theorem diskInode_shrink {p : Ptr} (h : Persistent s (s.inode p)) {i : Nat} (hi : i ≤ 12) :
    ((s.shrink p).diskInode (s.inode p).iNo).iSectors i = (s.inode p).iSectors i := by
  obtain ⟨hno, hsec⟩ := h
  obtain ⟨t, ht⟩ : ∃ t, t = s.setSize p ((s.inode p).iSize - 24) := ⟨_, rfl⟩
  have hslot : t.slot (s.inode p).iNo.toNat = s.slot (s.inode p).iNo.toNat := by rw [ht]; rfl
  rw [State.shrink, ← ht, State.diskInode]
  by_cases hsmall : (s.inode p).iNo.toNat < 256
  · rw [Nat.mod_eq_of_lt hsmall, ofBytes_congr fun a ha => setSlot_slot_self t _ _ ha]
    exact (ofBytes_pureImage _).2.2 i (by omega)
  · rw [ofBytes_congr fun a ha => setSlot_slot_of_ne t (by omega) _ ha, hslot]
    exact hsec i hi

/-- The inode table is not in the data area. -/
theorem Persistent.writeSectors {ino : Inode} {lba : UInt32} (h : Persistent s ino)
    (hlba : s.part.sb.dataStartLba.toNat ≤ lba.toNat) (buf : Bytes) :
    Persistent (s.writeSectors lba buf 1) ino := by
  refine ⟨h.1, fun i hi => ?_⟩
  rw [← h.2 i hi, State.diskInode, State.diskInode]
  congr 1
  apply ofBytes_congr
  intro a ha
  have hno := h.1
  have hdata := s.part.layout.data
  apply Bytes.blit_of_outside
  change slotAddr s.part ino.iNo.toNat + a < _ ∨ _
  rw [slotAddr]
  omega

private theorem cleared_inserted {s₁ : State} (hs : WellFormedDir s (s.dirInode d))
    (hx : x ∈ (s.dirInode d).slots s.disk)
    (hs₁ : s₁ = s.writeSectors ((s.dirInode d).allBlocks s.disk x.1)
        ((sectorOf s.disk ((s.dirInode d).allBlocks s.disk x.1)).fill (24 * x.2) 24 0) 1)
    (hs' : s' = s₁.shrink (s.dir d).inode) :
    (∀ i, (s'.inode (s.dir d).inode).allBlocks s'.disk i = (s.dirInode d).allBlocks s.disk i) ∧
      Inserted (s.dirInode d) (s'.inode (s.dir d).inode) s.disk s'.disk x (fun _ => 0) ∧
      ∀ y ∈ (s.dirInode d).slots s.disk, y ≠ x → y ∈ (s'.inode (s.dir d).inode).slots s'.disk ∧
        SameSlot (s.dirInode d) (s'.inode (s.dir d).inode) s.disk s'.disk y := by
  obtain ⟨hi, hblock, hk⟩ := mem_slots.mp hx
  have hdata : ∀ lba, s.Allocated lba → sectorOf s'.disk lba = sectorOf s₁.disk lba := by
    intro lba hlba
    have hpart : s₁.part = s.part := by rw [hs₁]; rfl
    rw [hs']
    exact sameData_shrink s₁ _ lba (by rw [hpart]; exact hlba.data)
  have hino : s'.inode (s.dir d).inode =
      { s.dirInode d with iSize := (s.dirInode d).iSize - 24 } := by
    rw [hs', shrink_inode, hs₁]
    rfl
  obtain ⟨hblocks, hentry, hsame⟩ : (∀ i, (s'.inode (s.dir d).inode).allBlocks s'.disk i =
      (s.dirInode d).allBlocks s.disk i) ∧ (∀ a < 24, _ = (fun _ => 0 : Bytes) a) ∧ _ :=
    rewriteSlot hs.toOwnsBlocks hx (fun i _ => by rw [hino])
      (fun a ha => by
        rw [hdata _ (hs.block hi hblock), hs₁]
        exact sectorOf_writeSectors_self s _ _ ha)
      (fun lba hlba hne => by
        rw [hdata lba hlba, hs₁]
        exact sectorOf_writeSectors_of_ne _ hne)
  have hslots : (s'.inode (s.dir d).inode).slots s'.disk = (s.dirInode d).slots s.disk := by
    rw [Inode.slots, Inode.slots, funext hblocks]
  refine ⟨hblocks, ⟨by rw [hslots]; exact hx, fun a ha => ?_, fun y hy hne => ?_⟩,
    fun y hy hne => ⟨by rw [hslots]; exact hy, hsame y hy hne⟩⟩
  · rw [hblocks]
    exact hentry a ha
  · rw [hslots] at hy
    exact Or.inl ⟨hy, hsame y hy hne⟩

private theorem entryRemoved_of_cleared {s₁ : State} (hs : WellFormedDir s (s.dirInode d))
    (hmem : s.Served) (hdisk : Persistent s (s.dirInode d)) (hx : x ∈ (s.dirInode d).slots s.disk)
    (hholds : (s.dirInode d).HoldsIn s.disk x)
    (hs₁ : s₁ = s.writeSectors ((s.dirInode d).allBlocks s.disk x.1)
        ((sectorOf s.disk ((s.dirInode d).allBlocks s.disk x.1)).fill (24 * x.2) 24 0) 1)
    (hs' : s' = s₁.shrink (s.dir d).inode) :
    EntryRemoved s s' d ((s.dirInode d).nameIn s.disk x) := by
  obtain ⟨hblocks, hins, hkept⟩ := cleared_inserted hs hx hs₁ hs'
  have hsame : SameHandles s s' := by
    rw [hs', hs₁]
    exact ⟨rfl, rfl⟩
  have hmem' := hsame.served hmem
  have hbits : s'.blockBitmap = s.blockBitmap ∧ s'.part = s.part := by
    rw [hs', hs₁]
    exact ⟨rfl, rfl⟩
  have hino : s'.inode (s.dir d).inode =
      { s.dirInode d with iSize := (s.dirInode d).iSize - 24 } := by
    rw [hs', shrink_inode, hs₁]
    rfl
  have hxname : (s'.inode (s.dir d).inode).nameIn s'.disk x = [] := by
    apply entryName_zero (mem_slots.mp hx).2.2
    have := hins.entry 0 (by decide)
    rwa [Nat.add_zero] at this
  have hne : (s.dirInode d).nameIn s.disk x ≠ [] := fun h => hholds.1 ((hs.free x hx).mp h)
  have halloc : ∀ i ≤ 140, (s.dirInode d).refs s.disk i ≠ 0 →
      s'.blockBitmap (s'.blockIdx ((s.dirInode d).refs s.disk i)) = true := by
    intro i hi href
    rw [State.blockIdx, hbits.1, hbits.2]
    exact (hs.allocated i hi href).bit
  have hdisk' : ∀ i ≤ 12, (s'.diskInode (s.dirInode d).iNo).iSectors i =
      (s'.inode (s.dir d).inode).iSectors i := by
    intro i hi
    obtain ⟨hi', hblock, -⟩ := mem_slots.mp hx
    have hp := hdisk.writeSectors (hs.block hi' hblock).data
      ((sectorOf s.disk ((s.dirInode d).allBlocks s.disk x.1)).fill (24 * x.2) 24 0)
    rw [← hs₁] at hp
    have hino₁ : s₁.inode (s.dir d).inode = s.dirInode d := by rw [hs₁]; rfl
    rw [← hino₁] at hp ⊢
    rw [hs', diskInode_shrink hp hi, shrink_inode]
  refine ⟨?_, fun name' hne' hother r => ?_, ?_, fun i hi href => ?_, fun i hi href => ?_⟩
  · rw [searches_iff hmem', hsame.dirInode, eq_comm, lookup_eq_answer, Option.map_eq_none_iff,
      answer_none]
    intro y hy hyname
    have hyx : y ≠ x := by
      rintro rfl
      exact hne (hyname.symm.trans hxname)
    obtain ⟨hold, hysame, -⟩ := hins.nameIn_other hs.short hy hyx (by rw [hyname]; exact hne)
    exact hyx (hs.unique y hold x hx (by rw [← hysame, hyname]; exact hne)
      (hysame.symm.trans hyname))
  · have hlookup := hins.lookup_other hs rfl hkept hne' (fun _ h => hother h.symm)
      (by rw [hxname]; exact hne'.symm)
    rw [searches_iff hmem, searches_iff hmem', hsame.dirInode, hlookup]
  · have hle := size_of_holds hs hx hholds
    have h24 : (24 : UInt32).toNat = 24 := rfl
    rw [hsame.dirInode, hino]
    change ((s.dirInode d).iSize - 24).toNat + 24 = _
    have hle' : 24 ≤ (s.dirInode d).iSize := UInt32.le_iff_toNat_le.mpr hle
    rw [UInt32.toNat_sub_of_le _ _ hle', h24]
    omega
  · rw [hsame.dirInode, refs_congr hblocks (by rw [hino])] at href ⊢
    exact halloc i hi href
  · have hblocks' : ∀ i, (s'.diskInode (s.dirInode d).iNo).allBlocks s'.disk i =
        (s'.inode (s.dir d).inode).allBlocks s'.disk i := allBlocks_congr hdisk' fun _ => rfl
    have h12 : (s'.diskInode (s.dirInode d).iNo).iSectors 12 = (s.dirInode d).iSectors 12 := by
      rw [hdisk' 12 le_rfl, hino]
    rw [refs_congr (fun i => (hblocks' i).trans (hblocks i)) h12] at href ⊢
    exact halloc i hi href

/-- A block that was given back is still referred to. -/
private theorem not_entryRemoved_of_released {name : List UInt8}
    (hx : x ∈ (s.dirInode d).slots s.disk) (h12 : x.1 < 12)
    (hs' : s' = (s.giveBack ((s.dirInode d).allBlocks s.disk x.1)).shrink (s.dir d).inode) :
    ¬ EntryRemoved s s' d name := by
  intro hr
  obtain ⟨hi, hblock, -⟩ := mem_slots.mp hx
  have hsame : SameHandles s s' := by
    rw [hs']
    exact ⟨rfl, rfl⟩
  have hino : s'.inode (s.dir d).inode =
      { s.dirInode d with iSize := (s.dirInode d).iSize - 24 } := by
    rw [hs', shrink_inode]
    rfl
  have href : (s'.dirInode d).refs s'.disk x.1 = (s.dirInode d).allBlocks s.disk x.1 := by
    rw [refs_block _ _ hi, hsame.dirInode, hino, allBlocks_direct _ _ h12, allBlocks_direct _ _ h12]
  have hbit := hr.inMemory x.1 (by omega) (by rw [href]; exact hblock)
  rw [href, hs'] at hbit
  have hclear : Function.update s.blockBitmap (s.blockIdx ((s.dirInode d).allBlocks s.disk x.1))
      false (s.blockIdx ((s.dirInode d).allBlocks s.disk x.1)) = true := hbit
  rw [Function.update_self] at hclear
  cases hclear

/-- `delete_dir_entry` removes the entry and keeps the directory exactly when the entry is in the first
block or not alone in its block. -/
theorem delete_dir_entry_removes_iff (hs : WellFormedDir s (s.dirInode d)) (hmem : s.Served)
    (hdisk : Persistent s (s.dirInode d)) (hx : x ∈ (s.dirInode d).slots s.disk)
    (hholds : (s.dirInode d).HoldsIn s.disk x)
    (h : deleteDirEntry d ((s.dirInode d).entryIn s.disk x).iNo s = .ok (true, s')) :
    EntryRemoved s s' d ((s.dirInode d).nameIn s.disk x) ↔
      x.1 = 0 ∨ ∃ y ∈ (s.dirInode d).slots s.disk, (s.dirInode d).HoldsIn s.disk y ∧
        y.1 = x.1 ∧ y ≠ x := by
  have hcond : (x.1 = 0 ∨ ∃ y ∈ (s.dirInode d).slots s.disk, (s.dirInode d).HoldsIn s.disk y ∧
      y.1 = x.1 ∧ y ≠ x) ↔ ¬ (s.dirInode d).Last s.disk x := by
    rw [Inode.Last]
    push Not
    constructor
    · rintro (h0 | h) hne
      · exact absurd h0 hne
      · exact h
    · intro h
      by_cases h0 : x.1 = 0
      · exact Or.inl h0
      · exact Or.inr (h h0)
  rw [hcond]
  constructor
  · intro hr hlast
    rw [deleteDirEntry_releases hs hx hholds hlast] at h
    split at h
    · rename_i h12
      refine not_entryRemoved_of_released hx h12 ?_ hr
      cases h
      rfl
    · cases h
  · intro hlast
    rw [deleteDirEntry_clears hs hx hholds hlast] at h
    refine entryRemoved_of_cleared hs hmem hdisk hx hholds rfl ?_
    cases h
    rfl

private theorem filled_persistent (n : Nat) : Persistent (filledState n) (filledInode n) := by
  refine ⟨show 1 < 4096 by decide, fun i hi => ?_⟩
  have hslot : Inode.ofBytes ((filledState n).slot 1) = Inode.ofBytes (filledInode n).pureImage := by
    apply ofBytes_congr
    intro a ha
    have haddr : slotAddr widePartition 1 = 2636 := rfl
    have h₁ : ¬ (2636 + a) / 512 = 763 := by omega
    have h₂ : ¬ (614 ≤ (2636 + a) / 512 ∧ (2636 + a) / 512 < 754) := by omega
    have h₃ : 2636 ≤ 2636 + a ∧ 2636 + a < 2712 := by omega
    have hread : (filledState n).slot 1 a = filledDisk n (slotAddr widePartition 1 + a) := rfl
    rw [hread, haddr]
    unfold filledDisk
    rw [if_neg h₁, if_neg h₂, if_pos h₃, Nat.add_sub_cancel_left]
  change (Inode.ofBytes ((filledState n).slot 1)).iSectors i = _
  rw [hslot]
  exact (ofBytes_pureImage _).2.2 i (by omega)

/-- The third entry of the directory with four is deleted. -/
theorem delete_dir_entry_removes_filled : ∃ s',
    deleteDirEntry 0 102 (filledState 4) = .ok (true, s') ∧
      EntryRemoved (filledState 4) s' 0 (filledName 2) := by
  have hs : WellFormedDir (filledState 4) ((filledState 4).dirInode 0) :=
    filled_wellFormed (by decide) (by decide)
  have hx : (0, 2) ∈ (filledInode 4).slots (filledDisk 4) :=
    filled_mem_slots.mpr ⟨by decide, by decide, by decide⟩
  have hholds : (filledInode 4).HoldsIn (filledDisk 4) (0, 2) :=
    (filled_holds (by decide) hx).mpr ⟨by decide, by decide⟩
  have hentry : ((filledState 4).dirInode 0).entryIn (filledState 4).disk (0, 2) =
      ⟨102, ftRegular⟩ := filled_entryIn (by decide) (by decide) (by decide)
  have hname : ((filledState 4).dirInode 0).nameIn (filledState 4).disk (0, 2) = filledName 2 :=
    filled_nameIn (by decide) (by decide) (by decide) (by decide)
  have hrun := deleteDirEntry_clears hs hx hholds fun hlast => hlast.1 rfl
  have hremoved := (delete_dir_entry_removes_iff hs (fun _ => rfl) (filled_persistent 4) hx hholds
    hrun).mpr (Or.inl rfl)
  rw [hentry] at hrun
  rw [hname] at hremoved
  exact ⟨_, hrun, hremoved⟩

/-- The last of 22 entries is alone in the second block: its block is given back and still found. -/
theorem delete_dir_entry_dangles : WellFormedDir (filledState 22) ((filledState 22).dirInode 0) ∧
    Persistent (filledState 22) ((filledState 22).dirInode 0) ∧ ∃ s',
    deleteDirEntry 0 121 (filledState 22) = .ok (true, s') ∧
      ¬ EntryRemoved (filledState 22) s' 0 (filledName 21) := by
  have hs : WellFormedDir (filledState 22) ((filledState 22).dirInode 0) :=
    filled_wellFormed (by decide) (by decide)
  have hx : (1, 0) ∈ (filledInode 22).slots (filledDisk 22) :=
    filled_mem_slots.mpr ⟨by decide, by decide, by decide⟩
  have hholds : (filledInode 22).HoldsIn (filledDisk 22) (1, 0) :=
    (filled_holds (by decide) hx).mpr ⟨by decide, by decide⟩
  have hentry : ((filledState 22).dirInode 0).entryIn (filledState 22).disk (1, 0) =
      ⟨121, ftRegular⟩ := filled_entryIn (by decide) (by decide) (by decide)
  have hrun := deleteDirEntry_releases hs hx hholds ⟨by decide, fun y hy hy' hy1 => by
    have hy₁ : y ∈ (filledInode 22).slots (filledDisk 22) := hy
    obtain ⟨-, ht⟩ := (filled_holds (by decide) hy₁).mp hy'
    have hone : y.1 = 1 := hy1
    apply Prod.ext
    · exact hone
    · change y.2 = 0
      omega⟩
  rw [hentry, if_pos (by decide)] at hrun
  exact ⟨hs, filled_persistent 22, _, hrun, not_entryRemoved_of_released hx (by decide) rfl⟩

end Removed

end Aitos.Fs
