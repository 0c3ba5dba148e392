import Aitos.Fs.ScanRecords

/-!
# What the partition scan records

On a disk whose links lead to no record twice one below the other, the boot records form a finite
tree.  `partition_scan` walks it in pre-order, except that the eighth logical partition ends the
record it stands in.
-/

namespace Aitos.Fs

open Framework

/-- The disk holds these entries from entry `i` of a record on.  A linked record is not the boot
sector, whose entries are the primary ones. -/
inductive HoldsEntries (disk : UInt32 → Bytes) : Visit → Nat → Entries → Prop where
  | nil {v : Visit} : HoldsEntries disk v 4 .nil
  | free {v : Visit} {i : Nat} {rest : Entries} : i < 4 → fsType (disk v.sector) i = 0 →
      HoldsEntries disk v (i + 1) rest → HoldsEntries disk v i (.free rest)
  | prim {v : Visit} {i : Nat} {rest : Entries} : i < 4 → IsPartition (disk v.sector) i →
      v.sector = 0 → HoldsEntries disk v (i + 1) rest →
      HoldsEntries disk v i (.prim ⟨v.sector + entryStart (disk v.sector) i,
        entryCount (disk v.sector) i⟩ rest)
  | logic {v : Visit} {i : Nat} {rest : Entries} : i < 4 → IsPartition (disk v.sector) i →
      v.sector ≠ 0 → HoldsEntries disk v (i + 1) rest →
      HoldsEntries disk v i (.logic ⟨v.sector + entryStart (disk v.sector) i,
        entryCount (disk v.sector) i⟩ rest)
  | ext {v w : Visit} {i : Nat} {sub rest : Entries} : Link disk v i w → w.sector ≠ 0 →
      HoldsEntries disk w 0 sub → HoldsEntries disk v (i + 1) rest → HoldsEntries disk v i (.ext w.sector sub rest)

/-- Without what stands behind the `n`-th logical partition in its record. -/
def Entries.cut : Nat → Entries → Entries
  | _, nil => nil
  | n, free rest => free (rest.cut n)
  | n, prim p rest => prim p (rest.cut n)
  | n, logic p rest => logic p (if n = 1 then nil else rest.cut (n - 1))
  | n, ext x sub rest => ext x (sub.cut n) (rest.cut (n - logics sub.found))

/-- All primary partitions and the first `n` logical ones. -/
def firstLogic : Nat → List FoundPart → List FoundPart
  | _, [] => []
  | n, .prim p :: fs => .prim p :: firstLogic n fs
  | 0, .logic _ :: fs => firstLogic 0 fs
  | n + 1, .logic p :: fs => .logic p :: firstLogic n fs

/-- Their places in the tables, from these counters on. -/
def places : Nat → Nat → List FoundPart → List PartPtr
  | _, _, [] => []
  | p, l, .prim _ :: fs => .prim p :: places (p + 1) l fs
  | p, l, .logic _ :: fs => .logic l :: places p (l + 1) fs

/-- What stands at a place of the tables. -/
def Boot.at (s : Boot) (ch : Channel) : PartPtr → FoundPart
  | .prim i => .prim (s.primParts ch i)
  | .logic i => .logic (s.logicParts ch i)

/-- `prim_parts` has four places and `logic_parts` eight. -/
def PartPtr.InTable : PartPtr → Prop
  | .prim i => i < 4
  | .logic i => i < 8

/-- The primary partitions and the first eight logical ones have been recorded, in order, and
nothing else has been written to. -/
structure Recorded (ch : Channel) (es : Entries) (s t : Boot) : Prop where
  inTable : ∀ q ∈ places 0 0 (firstLogic 8 es.found), q.InTable
  nodup : (places 0 0 (firstLogic 8 es.found)).Nodup
  parts : (places 0 0 (firstLogic 8 es.found)).map (t.at ch) = firstLogic 8 es.found
  list : t.partitionList = s.partitionList ++
    (places 0 0 (firstLogic 8 es.found)).map fun q => (ch, q)
  others : ∀ c q, (c = ch → q ∉ places 0 0 (firstLogic 8 es.found)) → t.at c q = s.at c q
  sectors : t.sectors = s.sectors

/-! ### Counting -/

private theorem logics_cut_le (es : Entries) (n : Nat) :
    logics (es.cut n).found ≤ logics es.found := by
  induction es generalizing n with
  | nil => exact le_rfl
  | free rest ih => exact ih n
  | prim p rest ih => exact ih n
  | logic p rest ih =>
      simp only [Entries.cut, Entries.found, logics_logic]
      split
      · exact Nat.succ_le_succ (Nat.zero_le _)
      · exact Nat.succ_le_succ (ih _)
  | ext x sub rest ihs ihr =>
      simp only [Entries.cut, Entries.found, logics_append]
      exact Nat.add_le_add (ihs n) (ihr _)

private theorem min_le_logics_cut (es : Entries) (n : Nat) :
    min n (logics es.found) ≤ logics (es.cut n).found := by
  induction es generalizing n with
  | nil => exact Nat.min_le_right _ _
  | free rest ih => exact ih n
  | prim p rest ih => exact ih n
  | logic p rest ih =>
      simp only [Entries.cut, Entries.found, logics_logic]
      split
      · simp only [Entries.found, logics_nil]
        omega
      · have := ih (n - 1)
        omega
  | ext x sub rest ihs ihr =>
      simp only [Entries.cut, Entries.found, logics_append]
      have hsub := ihs n
      have hrest := ihr (n - logics sub.found)
      omega

private theorem left_cut (es : Entries) (n : Nat) :
    n - logics (es.cut n).found = n - logics es.found := by
  have hle := logics_cut_le es n
  have hmin := min_le_logics_cut es n
  omega

private theorem firstLogic_append (n : Nat) (fs gs : List FoundPart) :
    firstLogic n (fs ++ gs) = firstLogic n fs ++ firstLogic (n - logics fs) gs := by
  induction fs generalizing n with
  | nil => rfl
  | cons f fs ih =>
      cases f with
      | prim p => exact congrArg (FoundPart.prim p :: ·) (ih n)
      | logic p =>
          cases n with
          | zero =>
              have hzero := ih 0
              rw [Nat.zero_sub] at hzero ⊢
              exact hzero
          | succ n =>
              rw [logics_logic, Nat.add_sub_add_right]
              exact congrArg (FoundPart.logic p :: ·) (ih n)

private theorem firstLogic_of_le {n : Nat} {fs : List FoundPart} (h : logics fs ≤ n) :
    firstLogic n fs = fs := by
  induction fs generalizing n with
  | nil => rfl
  | cons f fs ih =>
      cases f with
      | prim p => exact congrArg (FoundPart.prim p :: ·) (ih h)
      | logic p =>
          rw [logics_logic] at h
          obtain ⟨n, rfl⟩ : ∃ k, n = k + 1 := ⟨n - 1, by omega⟩
          exact congrArg (FoundPart.logic p :: ·) (ih (Nat.le_of_succ_le_succ h))

@[simp]
theorem prims_firstLogic (n : Nat) (fs : List FoundPart) : prims (firstLogic n fs) = prims fs := by
  induction fs generalizing n with
  | nil => rfl
  | cons f fs ih =>
      cases f with
      | prim p => exact congrArg (· + 1) (ih n)
      | logic p => cases n with
        | zero => exact ih 0
        | succ n => exact ih n

private theorem logics_firstLogic_le (n : Nat) (fs : List FoundPart) :
    logics (firstLogic n fs) ≤ n := by
  induction fs generalizing n with
  | nil => exact Nat.zero_le n
  | cons f fs ih =>
      cases f with
      | prim p => exact ih n
      | logic p => cases n with
        | zero => exact ih 0
        | succ n => exact Nat.succ_le_succ (ih n)

private theorem HoldsEntries.prims_eq_zero {disk : UInt32 → Bytes} {v : Visit} {i : Nat}
    {es : Entries} (h : HoldsEntries disk v i es) (hv : v.sector ≠ 0) : prims es.found = 0 := by
  induction h with
  | nil => rfl
  | free _ _ _ ih => exact ih hv
  | prim _ _ hzero => exact absurd hzero hv
  | logic _ _ _ _ ih => exact ih hv
  | ext _ hw _ _ ihs ihr =>
      rw [Entries.found, prims_append, ihs hw, ihr hv]

private theorem firstLogic_zero {fs : List FoundPart} (h : prims fs = 0) :
    firstLogic 0 fs = [] := by
  induction fs with
  | nil => rfl
  | cons f fs ih =>
      cases f with
      | prim p => exact absurd h (Nat.succ_ne_zero _)
      | logic p => exact ih h

private theorem HoldsEntries.firstLogic_cut {disk : UInt32 → Bytes} {v : Visit} {i : Nat}
    {es : Entries} (h : HoldsEntries disk v i es) (n : Nat) :
    firstLogic n (es.cut n).found = firstLogic n es.found := by
  induction h generalizing n with
  | nil => rfl
  | free _ _ _ ih => exact ih n
  | prim _ _ _ _ ih => exact congrArg (FoundPart.prim _ :: ·) (ih n)
  | logic _ _ hv hrest ih =>
      match n with
      | 0 => exact ih 0
      | 1 => exact congrArg (FoundPart.logic _ :: ·) (firstLogic_zero (hrest.prims_eq_zero hv)).symm
      | n + 2 => exact congrArg (FoundPart.logic _ :: ·) (ih (n + 1))
  | @ext _ _ _ sub rest _ _ _ _ ihs ihr =>
      simp only [Entries.cut, Entries.found, firstLogic_append]
      rw [ihs, left_cut, ihr]

private theorem HoldsEntries.found_cut {disk : UInt32 → Bytes} {v : Visit} {i : Nat} {es : Entries}
    (h : HoldsEntries disk v i es) {n : Nat} (hle : logics (es.cut n).found ≤ n) :
    (es.cut n).found = firstLogic n es.found := by
  rw [← h.firstLogic_cut, firstLogic_of_le hle]

/-! ### The places -/

private theorem recordAll_list (s : Boot) (ch : Channel) (fs : List FoundPart) :
    (s.recordAll ch fs).partitionList =
      s.partitionList ++ (places s.pNo s.lNo fs).map fun q => (ch, q) := by
  induction fs generalizing s with
  | nil => exact (List.append_nil _).symm
  | cons f fs ih =>
      rw [recordAll_cons, ih]
      cases f <;> exact List.append_assoc _ _ _

private theorem mem_places {p l : Nat} {fs : List FoundPart} {q : PartPtr} (h : q ∈ places p l fs) :
    match q with
    | .prim i => p ≤ i ∧ i < p + prims fs
    | .logic i => l ≤ i ∧ i < l + logics fs := by
  induction fs generalizing p l with
  | nil => exact absurd h List.not_mem_nil
  | cons f fs ih =>
      cases f with
      | prim x =>
          rw [places, List.mem_cons] at h
          rcases h with rfl | h
          · simp
          · have hrest := ih h
            cases q <;> simp only [prims_prim, logics_prim] at hrest ⊢ <;> omega
      | logic x =>
          rw [places, List.mem_cons] at h
          rcases h with rfl | h
          · simp
          · have hrest := ih h
            cases q <;> simp only [prims_logic, logics_logic] at hrest ⊢ <;> omega

private theorem nodup_places (p l : Nat) (fs : List FoundPart) : (places p l fs).Nodup := by
  induction fs generalizing p l with
  | nil => exact List.nodup_nil
  | cons f fs ih =>
      cases f with
      | prim x =>
          refine List.nodup_cons.mpr ⟨fun h => ?_, ih _ _⟩
          have hlt := (mem_places h).1
          omega
      | logic x =>
          refine List.nodup_cons.mpr ⟨fun h => ?_, ih _ _⟩
          have hlt := (mem_places h).1
          omega

private theorem at_setPrim {s : Boot} {ch c : Channel} {p : PartExtent} {q : PartPtr}
    (h : c = ch → q ≠ .prim s.pNo) : (s.setPrim ch p).at c q = s.at c q := by
  cases q with
  | logic i => rfl
  | prim i =>
      change FoundPart.prim (Function.update s.primParts ch _ c i) = .prim (s.primParts c i)
      congr 1
      by_cases hc : c = ch
      · subst hc
        have hi : i ≠ s.pNo := fun hi => h rfl (congrArg PartPtr.prim hi)
        rw [Function.update_self, Function.update_of_ne hi]
      · rw [Function.update_of_ne hc]

private theorem at_setLogic {s : Boot} {ch c : Channel} {p : PartExtent} {q : PartPtr}
    (h : c = ch → q ≠ .logic s.lNo) : (s.setLogic ch p).at c q = s.at c q := by
  cases q with
  | prim i => rfl
  | logic i =>
      change FoundPart.logic (Function.update s.logicParts ch _ c i) = .logic (s.logicParts c i)
      congr 1
      by_cases hc : c = ch
      · subst hc
        have hi : i ≠ s.lNo := fun hi => h rfl (congrArg PartPtr.logic hi)
        rw [Function.update_self, Function.update_of_ne hi]
      · rw [Function.update_of_ne hc]

private theorem at_recordAll {s : Boot} {ch c : Channel} {fs : List FoundPart} {q : PartPtr}
    (h : c = ch → q ∉ places s.pNo s.lNo fs) : (s.recordAll ch fs).at c q = s.at c q := by
  induction fs generalizing s with
  | nil => rfl
  | cons f fs ih =>
      cases f with
      | prim p =>
          have hrest : (s.setPrim ch p).at c q = s.at c q := by
            apply at_setPrim
            rintro hc rfl
            exact h hc List.mem_cons_self
          exact (ih fun hc hq => h hc (List.mem_cons_of_mem _ hq)).trans hrest
      | logic p =>
          have hrest : (s.setLogic ch p).at c q = s.at c q := by
            apply at_setLogic
            rintro hc rfl
            exact h hc List.mem_cons_self
          exact (ih fun hc hq => h hc (List.mem_cons_of_mem _ hq)).trans hrest

private theorem map_at_places (s : Boot) (ch : Channel) (fs : List FoundPart) :
    (places s.pNo s.lNo fs).map ((s.recordAll ch fs).at ch) = fs := by
  induction fs generalizing s with
  | nil => rfl
  | cons f fs ih =>
      have hrest := ih (s.record ch f)
      have hnodup := nodup_places s.pNo s.lNo (f :: fs)
      cases f with
      | prim p =>
          have hnot := (List.nodup_cons.mp hnodup).1
          have hhead : ((s.setPrim ch p).recordAll ch fs).at ch (.prim s.pNo) = .prim p := by
            rw [at_recordAll fun _ => hnot]
            simp only [Boot.at, Boot.setPrim, Function.update_self]
          exact congrArg₂ List.cons hhead hrest
      | logic p =>
          have hnot := (List.nodup_cons.mp hnodup).1
          have hhead : ((s.setLogic ch p).recordAll ch fs).at ch (.logic s.lNo) = .logic p := by
            rw [at_recordAll fun _ => hnot]
            simp only [Boot.at, Boot.setLogic, Function.update_self]
          exact congrArg₂ List.cons hhead hrest

/-! ### The scan as a relation -/

/-- The scan of a record returns. -/
def Scans (ch : Channel) (lba : UInt32) (s t : Boot) : Prop :=
  ∃ n, partitionScan n ch lba s = .ok ((), t)

/-- The loop over the entries of a record from entry `i` on returns. -/
def ScansFrom (ch : Channel) (lba : UInt32) (bs : Bytes) (i : Nat) (s t : Boot) : Prop :=
  ∃ n, scanEntries (fun lba => partitionScan n ch lba) ch lba bs (List.range' i (4 - i)) s =
    .ok ((), t)

private theorem scans_iff {ch : Channel} {lba : UInt32} {s t : Boot} : Scans ch lba s t ↔
    s.served s.mallocs = true ∧ lba ≤ maxLba ∧
      ScansFrom ch lba (s.sectors ch lba) 0 (s.progress s.extLbaBase (s.mallocs + 1)) t := by
  constructor
  · rintro ⟨n, hn⟩
    cases n with
    | zero => exact (Code.throw_ok.mp hn).elim
    | succ n =>
        rw [partitionScan_succ] at hn
        split at hn
        · next hserved =>
            split at hn
            · next hlba => exact ⟨hserved, hlba, n, hn⟩
            · exact absurd hn (by simp)
        · exact absurd hn (by simp)
  · rintro ⟨hserved, hlba, n, hn⟩
    refine ⟨n + 1, ?_⟩
    rw [partitionScan_succ, if_pos hserved, if_pos hlba]
    exact hn

private theorem HoldsEntries.entry_le {disk : UInt32 → Bytes} {v : Visit} {i : Nat} {es : Entries}
    (h : HoldsEntries disk v i es) : i ≤ 4 := by
  cases h with
  | nil => exact le_rfl
  | free hi => exact hi.le
  | prim hi => exact hi.le
  | logic hi => exact hi.le
  | ext hlink => exact hlink.lt.le

theorem HoldsEntries.scanned {disk : UInt32 → Bytes} {v : Visit} {i : Nat} {es : Entries}
    (h : HoldsEntries disk v i es) (n : Nat) : ScansTo disk v i n (es.cut n) := by
  induction h generalizing n with
  | nil => exact .nil
  | free hi hfree _ ih => exact .free hi hfree (ih n)
  | prim hi hpart hzero _ ih => exact .prim hi hpart hzero (ih n)
  | logic hi hpart hne _ ih =>
      rw [Entries.cut]
      split
      · next hone =>
          subst hone
          exact .full hi hpart hne
      · next hone => exact .logic hi hpart hne hone (ih (n - 1))
  | @ext _ _ _ sub rest hlink _ _ _ ihs ihr =>
      refine .ext hlink (ihs n) ?_
      rw [left_cut]
      exact ihr _

/-- The scan of a record returns exactly if what it comes upon fits, and then it has recorded
that. -/
private theorem scansFrom_iff {ch : Channel} {disk : UInt32 → Bytes} {v : Visit} {i : Nat}
    {es : Entries} (h : HoldsEntries disk v i es) (hv : v.base = 0 → v.sector = 0) (s t : Boot)
    (hdisk : s.sectors ch = disk) (hbase : s.extLbaBase = baseAt v.base (disk v.sector) i)
    (hp : s.pNo ≤ 3) (hl : s.lNo ≤ 8) :
    ScansFrom ch v.sector (disk v.sector) i s t ↔ Fits s (es.cut (8 - s.lNo)) ∧
      t = s.after ch (baseAt v.base (disk v.sector) 4) (es.cut (8 - s.lNo)) := by
  have hscanned := h.scanned (8 - s.lNo)
  constructor
  · rintro ⟨n, hn⟩
    have hentry := h.entry_le
    obtain ⟨es', hscanned', hfits, ht⟩ := CallsScan.loop (callsScan disk ch n) (4 - i) (by omega) hv
      hdisk hbase hp hl hn
    obtain rfl := hscanned'.unique hscanned
    exact ⟨hfits, ht⟩
  · rintro ⟨hfits, rfl⟩
    rcases hscanned.run hv (es.cut (8 - s.lNo)).depth hdisk hbase rfl hfits with hok | ⟨hlt, -⟩
    · exact ⟨_, hok⟩
    · exact absurd hlt (lt_irrefl _)

private theorem recorded_of_fits {ch : Channel} {s : Boot} {es : Entries} (b : UInt32) (k : Nat)
    (hfound : (es.cut 8).found = firstLogic 8 es.found) (hp : s.pNo = 0) (hl : s.lNo = 0)
    (hprims : prims es.found ≤ 3) :
    Recorded ch es s ((s.recordAll ch (es.cut 8).found).progress b k) := by
  have hplaces : places s.pNo s.lNo (firstLogic 8 es.found) = places 0 0 (firstLogic 8 es.found) := by
    rw [hp, hl]
  rw [hfound]
  refine ⟨?_, nodup_places _ _ _, ?_, ?_, ?_, recordAll_sectors _ _ _⟩
  · intro q hq
    have hlt := mem_places hq
    have hlogics := logics_firstLogic_le 8 es.found
    cases q with
    | prim i =>
        simp only [prims_firstLogic] at hlt
        exact show i < 4 by omega
    | logic i =>
        have hi := hlt.2
        exact show i < 8 by omega
  · rw [← hplaces]
    exact map_at_places s ch _
  · rw [← hplaces]
    exact recordAll_list s ch _
  · intro c q hq
    rw [← hplaces] at hq
    exact at_recordAll hq

/-- A disk whose records form a finite tree, scanned from the start.  All goes well exactly if there
are at most three primary partitions, no logical one after the eighth outside the rest of that
one's record, all records in reach of `ide_read` and memory for each of them. -/
theorem partition_scan_records (ch : Channel) (s : Boot) (es : Entries)
    (h : HoldsEntries (s.sectors ch) ⟨0, 0⟩ 0 es) (hbase : s.extLbaBase = 0) (hp : s.pNo = 0)
    (hl : s.lNo = 0) :
    (∃ t, Scans ch 0 s t ∧ Recorded ch es s t) ↔
      prims es.found ≤ 3 ∧ logics (es.cut 8).found ≤ 8 ∧ (∀ x ∈ (es.cut 8).sectors, x ≤ maxLba) ∧
        ∀ k ≤ (es.cut 8).sectors.length, s.served (s.mallocs + k) = true := by
  have hscan := fun t => scansFrom_iff h (fun _ => rfl)
    (s.progress s.extLbaBase (s.mallocs + 1)) t rfl hbase (by rw [Boot.progress, hp]; omega)
    (by rw [Boot.progress, hl]; omega)
  have height : 8 - (s.progress s.extLbaBase (s.mallocs + 1)).lNo = 8 := by
    rw [Boot.progress, hl]
  rw [height] at hscan
  have hprims : prims (es.cut 8).found = prims es.found := by
    rw [← prims_firstLogic 8 (es.cut 8).found, h.firstLogic_cut, prims_firstLogic]
  constructor
  · rintro ⟨t, ht, -⟩
    obtain ⟨hserved, -, hloop⟩ := scans_iff.mp ht
    have hfits := ((hscan t).mp hloop).1
    refine ⟨?_, ?_, hfits.sectors, ?_⟩
    · have hle : s.pNo + prims (es.cut 8).found ≤ 3 := hfits.prims
      omega
    · have hle : s.lNo + logics (es.cut 8).found ≤ 8 := hfits.logics
      omega
    · intro k hk
      cases k with
      | zero => exact hserved
      | succ k =>
          have hmem : s.served (s.mallocs + 1 + k) = true := hfits.served k hk
          rw [← hmem, Nat.add_assoc, Nat.add_comm 1 k]
  · rintro ⟨hthree, hcut, hsectors, hserved⟩
    have hfits : Fits (s.progress s.extLbaBase (s.mallocs + 1)) (es.cut 8) := by
      refine ⟨?_, ?_, hsectors, ?_⟩
      · change s.pNo + _ ≤ 3
        omega
      · change s.lNo + _ ≤ 8
        omega
      · intro k hk
        change s.served (s.mallocs + 1 + k) = true
        rw [Nat.add_assoc]
        exact hserved (1 + k) (by omega)
    have hrun := (hscan _).mpr ⟨hfits, rfl⟩
    refine ⟨_, scans_iff.mpr ⟨hserved 0 (Nat.zero_le _), by decide, hrun⟩, ?_⟩
    rw [Boot.after, recordAll_progress]
    exact recorded_of_fits _ _ (h.found_cut hcut) hp hl hthree

theorem HoldsEntries.partition {disk : UInt32 → Bytes} {v : Visit} {i : Nat} {p : PartExtent}
    {rest : Entries} (hi : i < 4) (h : IsPartition (disk v.sector) i)
    (hp : p = ⟨v.sector + entryStart (disk v.sector) i, entryCount (disk v.sector) i⟩)
    (hrest : HoldsEntries disk v (i + 1) rest) :
    HoldsEntries disk v i (if v.sector = 0 then .prim p rest else .logic p rest) := by
  subst hp
  split
  · next hv => exact .prim hi h hv hrest
  · next hv => exact .logic hi h hv hrest

instance (bs : Bytes) (i : Nat) : Decidable (IsPartition bs i) := inferInstanceAs (Decidable (_ ∧ _))

/-- A disk with four primary partitions. -/
def fourPrimaries : UInt32 → Bytes :=
  diskOf [(0, bootSector [(0x83, ⟨10, 5⟩), (0x83, ⟨20, 5⟩), (0x83, ⟨30, 5⟩), (0x83, ⟨40, 5⟩)])]

private theorem holds_fourPrimaries : HoldsEntries fourPrimaries ⟨0, 0⟩ 0
    (.prim ⟨10, 5⟩ (.prim ⟨20, 5⟩ (.prim ⟨30, 5⟩ (.prim ⟨40, 5⟩ .nil)))) :=
  .partition (by decide) (by decide +kernel) (by decide +kernel) <|
    .partition (by decide) (by decide +kernel) (by decide +kernel) <|
    .partition (by decide) (by decide +kernel) (by decide +kernel) <|
    .partition (by decide) (by decide +kernel) (by decide +kernel) .nil

/-- The fourth primary partition trips the assertion behind it. -/
theorem partition_scan_fourPrimaries : ¬ ∀ sectors es, HoldsEntries (sectors .ide1) ⟨0, 0⟩ 0 es →
    ∃ t, Scans .ide1 0 (Boot.start sectors (fun _ => true) Bytes.zero) t ∧
      Recorded .ide1 es (Boot.start sectors (fun _ => true) Bytes.zero) t := by
  intro h
  obtain ⟨t, hscan, -⟩ := h (fun _ => fourPrimaries) _ holds_fourPrimaries
  obtain ⟨-, -, hloop⟩ := scans_iff.mp hscan
  have hfits := (scansFrom_iff holds_fourPrimaries (fun _ => rfl) _ t rfl rfl (by decide)
    (by decide)).mp hloop
  exact absurd hfits.1.prims (by decide)

/-- A disk with one primary partition and one logical one. -/
def oneOfEach : UInt32 → Bytes :=
  diskOf [(0, bootSector [(0x83, ⟨2, 3⟩), (5, ⟨10, 100⟩)]), (10, bootSector [(0x83, ⟨1, 50⟩)])]

private theorem holds_oneOfEach : HoldsEntries oneOfEach ⟨0, 0⟩ 0
    (.prim ⟨2, 3⟩ (.ext 10 (.logic ⟨11, 50⟩ (.free (.free (.free .nil)))) (.free (.free .nil)))) := by
  have hlink : Link oneOfEach ⟨0, 0⟩ 1 ⟨10, 10⟩ :=
    ⟨by decide, by decide +kernel, by decide +kernel, by decide +kernel⟩
  have hlinked : HoldsEntries oneOfEach ⟨10, 10⟩ 0 (.logic ⟨11, 50⟩ (.free (.free (.free .nil)))) :=
    .partition (by decide) (by decide +kernel) (by decide +kernel) <|
      .free (by decide) (by decide +kernel) <| .free (by decide) (by decide +kernel) <|
      .free (by decide) (by decide +kernel) .nil
  exact .partition (by decide) (by decide +kernel) (by decide +kernel) <|
    .ext hlink (by decide) hlinked <| .free (by decide) (by decide +kernel) <|
    .free (by decide) (by decide +kernel) .nil

theorem partition_scan_oneOfEach : ∃ t,
    Scans .ide1 0 (Boot.start (fun _ => oneOfEach) (fun _ => true) Bytes.zero) t ∧
      t.partitionList = [(.ide1, .prim 0), (.ide1, .logic 0)] ∧
      t.at .ide1 (.prim 0) = .prim ⟨2, 3⟩ ∧ t.at .ide1 (.logic 0) = .logic ⟨11, 50⟩ := by
  obtain ⟨t, hscan, hrec⟩ := (partition_scan_records .ide1
    (Boot.start (fun _ => oneOfEach) (fun _ => true) Bytes.zero) _ holds_oneOfEach rfl rfl rfl).mpr
    ⟨by decide, by decide, by simp [Entries.cut, Entries.sectors, maxLba], fun _ _ => rfl⟩
  have hparts : [t.at .ide1 (.prim 0), t.at .ide1 (.logic 0)] = [.prim ⟨2, 3⟩, .logic ⟨11, 50⟩] :=
    hrec.parts
  rw [List.cons.injEq, List.cons.injEq] at hparts
  exact ⟨t, hscan, hrec.list, hparts.1, hparts.2.1⟩

end Aitos.Fs
