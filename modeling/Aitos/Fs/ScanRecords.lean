import Aitos.Fs.DiskInit

/-!
# The boot records of a scan

`partition_scan` goes from one boot record to the next as their extended entries say.  The part of a
record that it has behind it, with the records linked there, is a finite tree; this module says what
the scan of such a tree does, and that a scan that returns has gone through one.
-/

namespace Aitos.Fs

open Framework

/-- A boot record that is scanned and the base it is scanned under. -/
structure Visit where
  base : UInt32
  sector : UInt32
  deriving DecidableEq, Repr

/-- The base when entry `i` of a record comes up. -/
def baseAt (base : UInt32) (bs : Bytes) : Nat → UInt32
  | 0 => base
  | i + 1 =>
      if fsType bs i = fsExtended ∧ baseAt base bs i = 0 then entryStart bs i
      else baseAt base bs i

/-- Entry `i` of one record leads to another. -/
structure Link (disk : UInt32 → Bytes) (v : Visit) (i : Nat) (w : Visit) : Prop where
  lt : i < 4
  extended : fsType (disk v.sector) i = fsExtended
  base : w.base = baseAt v.base (disk v.sector) (i + 1)
  sector : w.sector = entryStart (disk v.sector) i + baseAt v.base (disk v.sector) i

/-- An entry that is recorded. -/
def IsPartition (bs : Bytes) (i : Nat) : Prop := fsType bs i ≠ fsExtended ∧ fsType bs i ≠ 0

/-- What a boot record holds from some entry on, linked records included, in the order of the
scan. -/
inductive Entries where
  | nil
  | free (rest : Entries)
  | prim (p : PartExtent) (rest : Entries)
  | logic (p : PartExtent) (rest : Entries)
  | ext (sector : UInt32) (sub rest : Entries)
  deriving DecidableEq, Repr

/-- A partition that the scan comes upon. -/
inductive FoundPart where
  | prim (p : PartExtent)
  | logic (p : PartExtent)
  deriving DecidableEq, Repr

namespace Entries

/-- The partitions in the order of the scan. -/
def found : Entries → List FoundPart
  | nil => []
  | free rest => rest.found
  | prim p rest => .prim p :: rest.found
  | logic p rest => .logic p :: rest.found
  | ext _ sub rest => sub.found ++ rest.found

/-- The sectors of the linked records in the order of the scan. -/
def sectors : Entries → List UInt32
  | nil => []
  | free rest => rest.sectors
  | prim _ rest => rest.sectors
  | logic _ rest => rest.sectors
  | ext x sub rest => x :: (sub.sectors ++ rest.sectors)

end Entries

def FoundPart.isLogic : FoundPart → Bool
  | .prim _ => false
  | .logic _ => true

def prims (fs : List FoundPart) : Nat := (fs.filter fun f => !f.isLogic).length

def logics (fs : List FoundPart) : Nat := (fs.filter FoundPart.isLogic).length

private theorem baseAt_of_ne {base : UInt32} (h : base ≠ 0) (bs : Bytes) (i : Nat) :
    baseAt base bs i = base := by
  induction i with
  | zero => rfl
  | succ i ih => rw [baseAt, ih, if_neg fun hc => h hc.2]

theorem baseAt_succ_of_ne {bs : Bytes} {i : Nat} (h : fsType bs i ≠ fsExtended) (base : UInt32) :
    baseAt base bs (i + 1) = baseAt base bs i := by
  rw [baseAt, if_neg fun hc => h hc.1]

private theorem baseAt_eq_zero {base : UInt32} {bs : Bytes} {i : Nat} (h : baseAt base bs i = 0) :
    base = 0 ∧ ∀ j < i, fsType bs j = fsExtended → entryStart bs j = 0 := by
  induction i with
  | zero => exact ⟨h, by simp⟩
  | succ i ih =>
      rw [baseAt] at h
      split at h
      · next hc =>
          obtain ⟨hbase, hstarts⟩ := ih hc.2
          refine ⟨hbase, ?_⟩
          intro j hj hext
          rcases Nat.lt_succ_iff_lt_or_eq.mp hj with hlt | rfl
          · exact hstarts j hlt hext
          · exact h
      · next hc =>
          obtain ⟨hbase, hstarts⟩ := ih h
          refine ⟨hbase, ?_⟩
          intro j hj hext
          rcases Nat.lt_succ_iff_lt_or_eq.mp hj with hlt | rfl
          · exact hstarts j hlt hext
          · exact absurd ⟨hext, h⟩ hc

theorem Link.sector_zero {disk : UInt32 → Bytes} {v w : Visit} {i : Nat} (h : Link disk v i w)
    (hbase : w.base = 0) : w.sector = 0 := by
  rw [h.base] at hbase
  have hstart := (baseAt_eq_zero hbase).2 i (Nat.lt_succ_self i) h.extended
  rw [baseAt] at hbase
  split at hbase
  · next hc => rw [h.sector, hstart, hc.2]; rfl
  · rw [h.sector, hstart, hbase]; rfl

theorem Link.unique {disk : UInt32 → Bytes} {v w w' : Visit} {i : Nat} (h : Link disk v i w)
    (h' : Link disk v i w') : w = w' := by
  obtain ⟨base, sector⟩ := w
  obtain ⟨base', sector'⟩ := w'
  obtain rfl : base = base' := h.base.trans h'.base.symm
  obtain rfl : sector = sector' := h.sector.trans h'.sector.symm
  rfl

/-! ### Counting -/

@[simp]
theorem prims_nil : prims [] = 0 := rfl

@[simp]
theorem prims_prim (p : PartExtent) (fs : List FoundPart) :
    prims (.prim p :: fs) = prims fs + 1 := rfl

@[simp]
theorem prims_logic (p : PartExtent) (fs : List FoundPart) :
    prims (.logic p :: fs) = prims fs := rfl

@[simp]
theorem prims_append (fs gs : List FoundPart) : prims (fs ++ gs) = prims fs + prims gs := by
  rw [prims, List.filter_append, List.length_append]
  rfl

@[simp]
theorem logics_nil : logics [] = 0 := rfl

@[simp]
theorem logics_prim (p : PartExtent) (fs : List FoundPart) :
    logics (.prim p :: fs) = logics fs := rfl

@[simp]
theorem logics_logic (p : PartExtent) (fs : List FoundPart) :
    logics (.logic p :: fs) = logics fs + 1 := rfl

@[simp]
theorem logics_append (fs gs : List FoundPart) : logics (fs ++ gs) = logics fs + logics gs := by
  rw [logics, List.filter_append, List.length_append]
  rfl

/-! ### Recording -/

def Boot.record (ch : Channel) (s : Boot) : FoundPart → Boot
  | .prim p => s.setPrim ch p
  | .logic p => s.setLogic ch p

def Boot.recordAll (s : Boot) (ch : Channel) (fs : List FoundPart) : Boot := fs.foldl (Boot.record ch) s

/-- The base and the number of calls of `sys_malloc` as the scan moves on. -/
def Boot.progress (s : Boot) (b : UInt32) (k : Nat) : Boot := { s with extLbaBase := b, mallocs := k }

section RecordAll

variable (s : Boot) (ch : Channel) (f : FoundPart) (fs gs : List FoundPart)

@[simp]
theorem recordAll_nil : s.recordAll ch [] = s := rfl

@[simp]
theorem recordAll_cons : s.recordAll ch (f :: fs) = (s.record ch f).recordAll ch fs := rfl

theorem recordAll_append : s.recordAll ch (fs ++ gs) = (s.recordAll ch fs).recordAll ch gs :=
  List.foldl_append

theorem recordAll_progress (b : UInt32) (k : Nat) :
    (s.progress b k).recordAll ch fs = (s.recordAll ch fs).progress b k := by
  induction fs generalizing s with
  | nil => rfl
  | cons f fs ih => cases f with
    | prim p => exact ih (s.setPrim ch p)
    | logic p => exact ih (s.setLogic ch p)

@[simp]
theorem recordAll_pNo : (s.recordAll ch fs).pNo = s.pNo + prims fs := by
  induction fs generalizing s with
  | nil => rfl
  | cons f fs ih =>
      rw [recordAll_cons, ih]
      cases f with
      | prim p => exact Nat.add_right_comm _ _ _
      | logic p => rfl

@[simp]
theorem recordAll_lNo : (s.recordAll ch fs).lNo = s.lNo + logics fs := by
  induction fs generalizing s with
  | nil => rfl
  | cons f fs ih =>
      rw [recordAll_cons, ih]
      cases f with
      | prim p => rfl
      | logic p => exact Nat.add_right_comm _ _ _

@[simp]
theorem recordAll_sectors : (s.recordAll ch fs).sectors = s.sectors := by
  induction fs generalizing s with
  | nil => rfl
  | cons f fs ih => cases f <;> exact ih _

@[simp]
theorem recordAll_served : (s.recordAll ch fs).served = s.served := by
  induction fs generalizing s with
  | nil => rfl
  | cons f fs ih => cases f <;> exact ih _

end RecordAll

/-! ### Fuel -/

/-- The second program does what the first one does wherever that one has enough fuel. -/
def Deeper {α : Type} (m m' : BootM α) : Prop := ∀ s, m s ≠ .error .diverge → m' s = m s

namespace Deeper

variable {α β : Type}

theorem refl (m : BootM α) : Deeper m m := fun _ _ => rfl

theorem bind {m m' : BootM α} {f f' : α → BootM β} (h : Deeper m m')
    (hf : ∀ a, Deeper (f a) (f' a)) : Deeper (m >>= f) (m' >>= f') := by
  intro s hs
  have hbind : ∀ (m : BootM α) (f : α → BootM β), (m >>= f) s = match m s with
      | .error e => .error e
      | .ok (a, t) => f a t := by
    intro m f
    change (m s >>= fun p => f p.1 p.2) = _
    cases m s <;> rfl
  rw [hbind] at hs ⊢
  rw [hbind]
  cases hm : m s with
  | error e =>
      rw [hm] at hs
      have hne : m s ≠ .error .diverge := by
        rw [hm]
        intro he
        cases he
        exact hs rfl
      rw [h s hne, hm]
  | ok out =>
      rw [hm] at hs
      rw [h s (by rw [hm]; simp), hm]
      exact hf out.1 out.2 hs

theorem ite {c : Prop} [Decidable c] {m m' n n' : BootM α} (h : Deeper m m') (h' : Deeper n n') :
    Deeper (if c then m else n) (if c then m' else n') := by
  by_cases hc : c
  · rw [if_pos hc, if_pos hc]
    exact h
  · rw [if_neg hc, if_neg hc]
    exact h'

end Deeper

/-- The loop over the entries of a record from entry `i` on, with calls to a depth of `n`. -/
def scanFrom (n : Nat) (ch : Channel) (lba : UInt32) (bs : Bytes) (i : Nat) : BootM Unit :=
  scanEntries (fun lba => partitionScan n ch lba) ch lba bs (List.range' i (4 - i))

section Entry

variable {n : Nat} {ch : Channel} {lba : UInt32} {bs : Bytes} {i : Nat} {s : Boot}

theorem check_bind {α : Type} (c : Prop) [Decidable c] (h : BootHalt) (f : Unit → BootM α) :
    (check c h >>= f) s = if c then f () s else .error h := by
  rw [check]
  split
  · rfl
  · rfl

theorem partitionScan_succ (n : Nat) : partitionScan (n + 1) ch lba s =
    if s.served s.mallocs = true then
      if lba ≤ maxLba then
        scanFrom n ch lba (s.sectors ch lba) 0 (s.progress s.extLbaBase (s.mallocs + 1))
      else .error .assertion
    else .error .nullDeref := by
  rw [partitionScan, bootMalloc, bind_assoc, Code.get_bind, bind_assoc, Code.modify_bind, pure_bind,
    check_bind, readSector, bind_assoc, check_bind, bind_assoc, Code.get_bind, pure_bind]
  rfl

theorem scanFrom_end : scanFrom n ch lba bs 4 s = .ok ((), s) := rfl

private theorem succ_range (hi : i < 4) :
    List.range' i (4 - i) = i :: List.range' (i + 1) (4 - (i + 1)) := by
  obtain ⟨k, hk⟩ : ∃ k, 4 - i = k + 1 := ⟨3 - i, by omega⟩
  rw [hk, List.range'_succ]
  congr 2
  omega

theorem scanFrom_free (hi : i < 4) (h : fsType bs i = 0) :
    scanFrom n ch lba bs i = scanFrom n ch lba bs (i + 1) := by
  rw [scanFrom, succ_range hi, scanEntries, if_neg (by rw [h]; decide), if_neg (not_not.mpr h)]
  rfl

theorem scanFrom_prim (hi : i < 4) (h : IsPartition bs i) (hlba : lba = 0) :
    scanFrom n ch lba bs i s = if s.pNo + 1 < 4 then scanFrom n ch lba bs (i + 1)
      (s.record ch (.prim ⟨lba + entryStart bs i, entryCount bs i⟩)) else .error .assertion := by
  rw [scanFrom, succ_range hi, scanEntries, if_neg h.1, if_pos h.2, if_pos hlba, recordPrim,
    bind_assoc, Code.modify_bind, bind_assoc, Code.get_bind, check_bind]
  rfl

/-- The eighth logical partition is the last one that its record contributes. -/
theorem scanFrom_logic (hi : i < 4) (h : IsPartition bs i) (hlba : lba ≠ 0) :
    scanFrom n ch lba bs i s = if s.lNo < 8 then
      if s.lNo = 7 then
        .ok ((), s.record ch (.logic ⟨lba + entryStart bs i, entryCount bs i⟩))
      else scanFrom n ch lba bs (i + 1)
        (s.record ch (.logic ⟨lba + entryStart bs i, entryCount bs i⟩))
    else .error .outOfBounds := by
  rw [scanFrom, succ_range hi, scanEntries, if_neg h.1, if_pos h.2, if_neg hlba, recordLogic,
    bind_assoc, Code.get_bind, bind_assoc, check_bind, bind_assoc, Code.modify_bind, pure_bind]
  simp only [decide_eq_true_eq]
  by_cases hroom : s.lNo < 8
  · rw [if_pos hroom, if_pos hroom]
    by_cases hlast : s.lNo = 7
    · rw [if_pos hlast, if_pos (by omega)]
      rfl
    · rw [if_neg hlast, if_neg (by omega)]
      rfl
  · rw [if_neg hroom, if_neg hroom]

private theorem extendedLba_eq (start : UInt32) (s : Boot) : extendedLba start s =
    .ok (start + s.extLbaBase,
      s.progress (if s.extLbaBase = 0 then start else s.extLbaBase) s.mallocs) := by
  rw [extendedLba, Code.get_bind]
  by_cases hbase : s.extLbaBase = 0
  · rw [if_neg (not_not.mpr hbase), if_pos hbase, hbase, UInt32.add_zero, Code.modify_bind]
    rfl
  · rw [if_pos hbase, if_neg hbase]
    rfl

theorem scanFrom_ext {disk : UInt32 → Bytes} {v w : Visit} (h : Link disk v i w)
    (hbase : s.extLbaBase = baseAt v.base (disk v.sector) i) :
    scanFrom n ch v.sector (disk v.sector) i s =
      (partitionScan n ch w.sector >>= fun _ => scanFrom n ch v.sector (disk v.sector) (i + 1))
        (s.progress w.base s.mallocs) := by
  have hwbase : w.base = if s.extLbaBase = 0 then entryStart (disk v.sector) i
      else s.extLbaBase := by
    rw [h.base, baseAt, ← hbase]
    simp [h.extended]
  have hwsector : w.sector = entryStart (disk v.sector) i + s.extLbaBase := by
    rw [h.sector, hbase]
  rw [scanFrom, succ_range h.lt, scanEntries, if_pos h.extended,
    Code.bind_of_ok (extendedLba_eq _ _), ← hwsector, ← hwbase]
  rfl

theorem partitionScan_link {disk : UInt32 → Bytes} {w : Visit} (hdisk : s.sectors ch = disk) :
    partitionScan (n + 1) ch w.sector (s.progress w.base s.mallocs) =
      if s.served s.mallocs = true then
        if w.sector ≤ maxLba then
          scanFrom n ch w.sector (disk w.sector) 0 (s.progress w.base (s.mallocs + 1))
        else .error .assertion
      else .error .nullDeref := by
  subst hdisk
  exact partitionScan_succ n

end Entry

/-! ### Trees that were scanned -/

/-- The disk holds these entries from entry `i` of a record on, up to the `n`-th logical partition,
which ends the record that it stands in. -/
inductive ScansTo (disk : UInt32 → Bytes) : Visit → Nat → Nat → Entries → Prop where
  | nil {v : Visit} {n : Nat} : ScansTo disk v 4 n .nil
  | free {v : Visit} {i n : Nat} {rest : Entries} : i < 4 → fsType (disk v.sector) i = 0 →
      ScansTo disk v (i + 1) n rest → ScansTo disk v i n (.free rest)
  | prim {v : Visit} {i n : Nat} {rest : Entries} : i < 4 → IsPartition (disk v.sector) i →
      v.sector = 0 → ScansTo disk v (i + 1) n rest →
      ScansTo disk v i n (.prim ⟨v.sector + entryStart (disk v.sector) i,
        entryCount (disk v.sector) i⟩ rest)
  | full {v : Visit} {i : Nat} : i < 4 → IsPartition (disk v.sector) i → v.sector ≠ 0 →
      ScansTo disk v i 1 (.logic ⟨v.sector + entryStart (disk v.sector) i,
        entryCount (disk v.sector) i⟩ .nil)
  | logic {v : Visit} {i n : Nat} {rest : Entries} : i < 4 → IsPartition (disk v.sector) i →
      v.sector ≠ 0 → n ≠ 1 → ScansTo disk v (i + 1) (n - 1) rest →
      ScansTo disk v i n (.logic ⟨v.sector + entryStart (disk v.sector) i,
        entryCount (disk v.sector) i⟩ rest)
  | ext {v w : Visit} {i n : Nat} {sub rest : Entries} : Link disk v i w →
      ScansTo disk w 0 n sub → ScansTo disk v (i + 1) (n - logics sub.found) rest →
      ScansTo disk v i n (.ext w.sector sub rest)

/-- How deep the linked records lie. -/
def Entries.depth : Entries → Nat
  | nil => 0
  | free rest => rest.depth
  | prim _ rest => rest.depth
  | logic _ rest => rest.depth
  | ext _ sub rest => max (sub.depth + 1) rest.depth

/-- A scan of these entries meets room in the tables, sectors that can be read and memory. -/
structure Fits (s : Boot) (es : Entries) : Prop where
  prims : s.pNo + prims es.found ≤ 3
  logics : s.lNo + logics es.found ≤ 8
  sectors : ∀ x ∈ es.sectors, x ≤ maxLba
  served : ∀ k < es.sectors.length, s.served (s.mallocs + k) = true

/-- The state after a scan of these entries, with the base that it ends with. -/
def Boot.after (s : Boot) (ch : Channel) (b : UInt32) (es : Entries) : Boot :=
  (s.recordAll ch es.found).progress b (s.mallocs + es.sectors.length)

private theorem fits_ext {s : Boot} (ch : Channel) (b b' : UInt32) {x : UInt32}
    {sub rest : Entries} : Fits s (.ext x sub rest) ↔ s.served s.mallocs = true ∧ x ≤ maxLba ∧
      Fits (s.progress b (s.mallocs + 1)) sub ∧
      Fits ((s.progress b (s.mallocs + 1)).after ch b' sub) rest := by
  have hpNo : ((s.progress b (s.mallocs + 1)).after ch b' sub).pNo = s.pNo + prims sub.found :=
    recordAll_pNo _ ch sub.found
  have hlNo : ((s.progress b (s.mallocs + 1)).after ch b' sub).lNo = s.lNo + logics sub.found :=
    recordAll_lNo _ ch sub.found
  have hserved : ((s.progress b (s.mallocs + 1)).after ch b' sub).served = s.served :=
    recordAll_served _ ch sub.found
  constructor
  · rintro ⟨hprims, hlogics, hsectors, hmem⟩
    simp only [Entries.found, prims_append, logics_append] at hprims hlogics
    simp only [Entries.sectors, List.length_cons, List.length_append] at hmem
    refine ⟨hmem 0 (by omega), hsectors x (by simp [Entries.sectors]), ⟨?_, ?_, ?_, ?_⟩, ?_, ?_, ?_,
      ?_⟩
    · change s.pNo + _ ≤ 3
      omega
    · change s.lNo + _ ≤ 8
      omega
    · exact fun y hy => hsectors y (by simp [Entries.sectors, hy])
    · intro k hk
      change s.served (s.mallocs + 1 + k) = true
      rw [Nat.add_assoc]
      exact hmem (1 + k) (by omega)
    · omega
    · omega
    · exact fun y hy => hsectors y (by simp [Entries.sectors, hy])
    · intro k hk
      rw [hserved]
      change s.served (s.mallocs + 1 + sub.sectors.length + k) = true
      rw [Nat.add_assoc, Nat.add_assoc]
      exact hmem (1 + (sub.sectors.length + k)) (by omega)
  · rintro ⟨hfirst, hx, hsub, hrest⟩
    have hprims := hrest.prims
    have hlogics := hrest.logics
    rw [hpNo] at hprims
    rw [hlNo] at hlogics
    refine ⟨?_, ?_, ?_, ?_⟩
    · simp only [Entries.found, prims_append]
      omega
    · simp only [Entries.found, logics_append]
      omega
    · intro y hy
      simp only [Entries.sectors, List.mem_cons, List.mem_append] at hy
      rcases hy with rfl | hy | hy
      · exact hx
      · exact hsub.sectors y hy
      · exact hrest.sectors y hy
    · intro k hk
      simp only [Entries.sectors, List.length_cons, List.length_append] at hk
      cases k with
      | zero => exact hfirst
      | succ k =>
          by_cases hin : k < sub.sectors.length
          · have hmem : s.served (s.mallocs + 1 + k) = true := hsub.served k hin
            rw [← hmem]
            congr 1
            omega
          · have hmem := hrest.served (k - sub.sectors.length) (by omega)
            rw [hserved] at hmem
            rw [← hmem]
            congr 1
            change s.mallocs + (k + 1) = s.mallocs + 1 + sub.sectors.length + _
            omega

section ScansTo

variable {disk : UInt32 → Bytes} {ch : Channel} {v w : Visit} {i n : Nat} {s t : Boot}
  {es es' sub rest : Entries} {p : PartExtent}

private theorem after_ext (b b' : UInt32) (x : UInt32) (sub rest : Entries) :
    s.after ch b (.ext x sub rest) =
      ((s.progress b' (s.mallocs + 1)).after ch b' sub).after ch b rest := by
  have hcount : s.mallocs + (sub.sectors ++ rest.sectors).length.succ =
      s.mallocs + 1 + sub.sectors.length + rest.sectors.length := by
    rw [List.length_append]
    omega
  have hmid : (s.progress b' (s.mallocs + 1)).after ch b' sub =
      (s.recordAll ch sub.found).progress b' (s.mallocs + 1 + sub.sectors.length) := by
    rw [Boot.after, recordAll_progress]
    rfl
  rw [hmid, Boot.after, Boot.after, recordAll_progress, Entries.found, recordAll_append,
    Entries.sectors, List.length_cons, hcount]
  rfl

private theorem fits_free : Fits s (.free rest) ↔ Fits s rest :=
  ⟨fun h => ⟨h.prims, h.logics, h.sectors, h.served⟩,
    fun h => ⟨h.prims, h.logics, h.sectors, h.served⟩⟩

private theorem fits_prim : Fits s (.prim p rest) ↔ Fits (s.record ch (.prim p)) rest := by
  constructor
  · intro h
    have hprims := h.prims
    rw [Entries.found, prims_prim] at hprims
    refine ⟨?_, h.logics, h.sectors, h.served⟩
    change s.pNo + 1 + prims rest.found ≤ 3
    omega
  · intro h
    have hprims : s.pNo + 1 + prims rest.found ≤ 3 := h.prims
    refine ⟨?_, h.logics, h.sectors, h.served⟩
    rw [Entries.found, prims_prim]
    omega

private theorem fits_logic : Fits s (.logic p rest) ↔ Fits (s.record ch (.logic p)) rest := by
  constructor
  · intro h
    have hlogics := h.logics
    rw [Entries.found, logics_logic] at hlogics
    refine ⟨h.prims, ?_, h.sectors, h.served⟩
    change s.lNo + 1 + logics rest.found ≤ 8
    omega
  · intro h
    have hlogics : s.lNo + 1 + logics rest.found ≤ 8 := h.logics
    refine ⟨h.prims, ?_, h.sectors, h.served⟩
    rw [Entries.found, logics_logic]
    omega

/-- A record without a base is the boot sector, and a link there that sets none leads to itself: no
finite tree begins so. -/
private theorem ScansTo.sets_base (h : ScansTo disk v i n es) (hbase : v.base = 0)
    (hsector : v.sector = 0) :
    ∀ j, i ≤ j → j < 4 → fsType (disk 0) j = fsExtended → baseAt 0 (disk 0) (j + 1) ≠ 0 := by
  induction h with
  | nil =>
      intro j hij hj
      omega
  | @free v i n rest hi hfree _ ih =>
      intro j hij hj hext
      refine ih hbase hsector j (Nat.lt_of_le_of_ne hij ?_) hj hext
      rintro rfl
      rw [hsector, hext] at hfree
      exact absurd hfree (by decide)
  | @prim v i n rest hi hpart _ _ ih =>
      intro j hij hj hext
      refine ih hbase hsector j (Nat.lt_of_le_of_ne hij ?_) hj hext
      rintro rfl
      rw [hsector] at hpart
      exact hpart.1 hext
  | full _ _ hne => exact absurd hsector hne
  | logic _ _ hne => exact absurd hsector hne
  | @ext v w i n sub rest hlink _ _ ihs _ =>
      intro j hij hj hext hzero
      have hat := hlink.base
      rw [hbase, hsector] at hat
      -- the base is not set at `i` either, so the record is linked to itself
      have hwbase : w.base = 0 := by
        rw [hat]
        by_contra hne
        have hstays : ∀ k, baseAt 0 (disk 0) (i + 1 + k) = baseAt 0 (disk 0) (i + 1) := by
          intro k
          induction k with
          | zero => rfl
          | succ k ih =>
              rw [← Nat.add_assoc, baseAt, ih, if_neg fun hc => hne hc.2]
        obtain ⟨k, rfl⟩ : ∃ k, j = i + k := ⟨j - i, by omega⟩
        have hk := hstays k
        rw [show i + 1 + k = i + k + 1 by omega, hzero] at hk
        exact hne hk.symm
      exact ihs hwbase (hlink.sector_zero hwbase) j (Nat.zero_le j) hj hext hzero

theorem ScansTo.base_after (h : ScansTo disk w 0 n sub) (hlink : Link disk v i w)
    (hv : v.base = 0 → v.sector = 0) : baseAt w.base (disk w.sector) 4 = w.base := by
  by_cases hw : w.base = 0
  · have hat := hlink.base
    rw [hw] at hat
    obtain ⟨hbase, -⟩ := baseAt_eq_zero hat.symm
    have hsector := hv hbase
    have hext := hlink.extended
    rw [hbase, hsector] at hat
    rw [hsector] at hext
    exact absurd hat.symm
      (h.sets_base hw (hlink.sector_zero hw) i (Nat.zero_le i) hlink.lt hext)
  · exact baseAt_of_ne hw _ _

/-- The tree is all that a scan depends on. -/
theorem ScansTo.unique (h : ScansTo disk v i n es) (h' : ScansTo disk v i n es') : es = es' := by
  induction h generalizing es' with
  | nil =>
      cases h' with
      | nil => rfl
      | free hi => exact absurd hi (by decide)
      | prim hi => exact absurd hi (by decide)
      | full hi => exact absurd hi (by decide)
      | logic hi => exact absurd hi (by decide)
      | ext hlink => exact absurd hlink.lt (by decide)
  | free hi hfree _ ih =>
      cases h' with
      | nil => exact absurd hi (by decide)
      | free _ _ hrest => rw [ih hrest]
      | prim _ hpart => exact absurd hfree hpart.2
      | full _ hpart => exact absurd hfree hpart.2
      | logic _ hpart => exact absurd hfree hpart.2
      | ext hlink => exact absurd (hfree.symm.trans hlink.extended) (by decide)
  | prim hi hpart hzero _ ih =>
      cases h' with
      | nil => exact absurd hi (by decide)
      | free _ hfree => exact absurd hfree hpart.2
      | prim _ _ _ hrest => rw [ih hrest]
      | full _ _ hne => exact absurd hzero hne
      | logic _ _ hne => exact absurd hzero hne
      | ext hlink => exact absurd hlink.extended hpart.1
  | full hi hpart hne =>
      cases h' with
      | nil => exact absurd hi (by decide)
      | free _ hfree => exact absurd hfree hpart.2
      | prim _ _ hzero => exact absurd hzero hne
      | full => rfl
      | logic _ _ _ hone => exact absurd rfl hone
      | ext hlink => exact absurd hlink.extended hpart.1
  | logic hi hpart hne hone _ ih =>
      cases h' with
      | nil => exact absurd hi (by decide)
      | free _ hfree => exact absurd hfree hpart.2
      | prim _ _ hzero => exact absurd hzero hne
      | full => exact absurd rfl hone
      | logic _ _ _ _ hrest => rw [ih hrest]
      | ext hlink => exact absurd hlink.extended hpart.1
  | @ext v w i n sub rest hlink _ _ ihs ihr =>
      cases h' with
      | nil => exact absurd hlink.lt (by decide)
      | free _ hfree => exact absurd (hfree.symm.trans hlink.extended) (by decide)
      | prim _ hpart => exact absurd hlink.extended hpart.1
      | full _ hpart => exact absurd hlink.extended hpart.1
      | logic _ hpart => exact absurd hlink.extended hpart.1
      | @ext _ w' _ _ sub' rest' hlink' hsub' hrest' =>
          obtain rfl : w' = w := hlink'.unique hlink
          obtain rfl := ihs hsub'
          rw [ihr hrest']

theorem ScansTo.run (h : ScansTo disk v i n es) (hv : v.base = 0 → v.sector = 0) (k : Nat)
    (hdisk : s.sectors ch = disk) (hbase : s.extLbaBase = baseAt v.base (disk v.sector) i)
    (hn : n = 8 - s.lNo) (hfits : Fits s es) :
    scanFrom k ch v.sector (disk v.sector) i s =
        .ok ((), s.after ch (baseAt v.base (disk v.sector) 4) es) ∨
      k < es.depth ∧ scanFrom k ch v.sector (disk v.sector) i s = .error .diverge := by
  induction h generalizing k s with
  | nil =>
      left
      rw [scanFrom_end, ← hbase]
      rfl
  | @free v i n rest hi hfree _ ih =>
      have hnot : fsType (disk v.sector) i ≠ fsExtended := by
        rw [hfree]
        decide
      have hsame := baseAt_succ_of_ne hnot v.base
      rw [scanFrom_free hi hfree]
      exact ih hv k hdisk (hbase.trans hsame.symm) hn (fits_free.mp hfits)
  | @prim v i n rest hi hpart hzero _ ih =>
      have hroom := hfits.prims
      rw [Entries.found, prims_prim] at hroom
      rw [scanFrom_prim hi hpart hzero, if_pos (by omega)]
      exact ih hv k hdisk (hbase.trans (baseAt_succ_of_ne hpart.1 v.base).symm) hn
        (fits_prim.mp hfits)
  | @full v i hi hpart hne =>
      have hvbase : v.base ≠ 0 := fun h => hne (hv h)
      rw [baseAt_of_ne hvbase] at hbase
      left
      rw [scanFrom_logic hi hpart hne, if_pos (by omega), if_pos (by omega), baseAt_of_ne hvbase,
        ← hbase]
      rfl
  | @logic v i n rest hi hpart hne hone _ ih =>
      have hroom := hfits.logics
      rw [Entries.found, logics_logic] at hroom
      rw [scanFrom_logic hi hpart hne, if_pos (by omega), if_neg (by omega)]
      refine ih hv k hdisk (hbase.trans (baseAt_succ_of_ne hpart.1 v.base).symm) ?_
        (fits_logic.mp hfits)
      change n - 1 = 8 - (s.lNo + 1)
      omega
  | @ext v w i n sub rest hlink hsub _ ihs ihr =>
      have hafter := hsub.base_after hlink hv
      obtain ⟨hserved, hlba, hfits₁, hfits₂⟩ := (fits_ext ch w.base w.base).mp hfits
      rw [scanFrom_ext hlink hbase]
      cases k with
      | zero => exact .inr ⟨by simp [Entries.depth], rfl⟩
      | succ k =>
          have hcall : partitionScan (k + 1) ch w.sector (s.progress w.base s.mallocs) =
              scanFrom k ch w.sector (disk w.sector) 0 (s.progress w.base (s.mallocs + 1)) := by
            rw [partitionScan_link hdisk, if_pos hserved, if_pos hlba]
          rcases ihs hlink.sector_zero k (s := s.progress w.base (s.mallocs + 1)) hdisk rfl hn
            hfits₁ with hok | ⟨hdepth, herr⟩
          · rw [hafter] at hok
            rw [Code.bind_of_ok (hcall.trans hok), after_ext _ w.base]
            have hleft : n - logics sub.found =
                8 - ((s.progress w.base (s.mallocs + 1)).after ch w.base sub).lNo := by
              rw [show ((s.progress w.base (s.mallocs + 1)).after ch w.base sub).lNo =
                s.lNo + logics sub.found from recordAll_lNo _ ch sub.found]
              omega
            rcases ihr hv (k + 1) (s := (s.progress w.base (s.mallocs + 1)).after ch w.base sub)
              ((congrFun (recordAll_sectors _ ch sub.found) ch).trans hdisk) hlink.base hleft hfits₂
              with hrest | ⟨hdepth, herr⟩
            · exact .inl hrest
            · exact .inr ⟨lt_of_lt_of_le hdepth (Nat.le_max_right _ _), herr⟩
          · right
            refine ⟨lt_of_lt_of_le (Nat.succ_lt_succ hdepth) (Nat.le_max_left _ _), ?_⟩
            exact Code.bind_of_error (hcall.trans herr)

/-- A call for a linked record that returns has gone through such a tree. -/
def CallsScan (disk : UInt32 → Bytes) (ch : Channel) (k : Nat) : Prop :=
  ∀ {w : Visit} {s t : Boot} {u : Unit}, (w.base = 0 → w.sector = 0) → s.sectors ch = disk →
    s.pNo ≤ 3 → s.lNo ≤ 8 →
    partitionScan k ch w.sector (s.progress w.base s.mallocs) = .ok (u, t) →
    ∃ sub, ScansTo disk w 0 (8 - s.lNo) sub ∧
      (s.served s.mallocs = true ∧ w.sector ≤ maxLba ∧
        Fits (s.progress w.base (s.mallocs + 1)) sub) ∧
      t = (s.progress w.base (s.mallocs + 1)).after ch (baseAt w.base (disk w.sector) 4) sub

theorem CallsScan.loop {k : Nat} (hcalls : CallsScan disk ch k) (r : Nat) (hir : i + r = 4)
    {u : Unit} (hv : v.base = 0 → v.sector = 0) (hdisk : s.sectors ch = disk)
    (hbase : s.extLbaBase = baseAt v.base (disk v.sector) i) (hp : s.pNo ≤ 3) (hl : s.lNo ≤ 8)
    (hrun : scanFrom k ch v.sector (disk v.sector) i s = .ok (u, t)) :
    ∃ es, ScansTo disk v i (8 - s.lNo) es ∧ Fits s es ∧
      t = s.after ch (baseAt v.base (disk v.sector) 4) es := by
  induction r generalizing i s with
  | zero =>
      obtain rfl : i = 4 := hir
      obtain ⟨-, rfl⟩ := Code.pure_ok.mp hrun
      refine ⟨.nil, .nil, ⟨hp, hl, by simp [Entries.sectors], by simp [Entries.sectors]⟩, ?_⟩
      rw [← hbase]
      rfl
  | succ r ih =>
      have hi : i < 4 := by omega
      by_cases hext : fsType (disk v.sector) i = fsExtended
      · let w : Visit := ⟨baseAt v.base (disk v.sector) (i + 1),
          entryStart (disk v.sector) i + baseAt v.base (disk v.sector) i⟩
        have hlink : Link disk v i w := ⟨hi, hext, rfl, rfl⟩
        rw [scanFrom_ext hlink hbase] at hrun
        obtain ⟨_, x, hcall, hloop⟩ := Code.bind_ok.mp hrun
        obtain ⟨sub, hsub, hfits, rfl⟩ := hcalls hlink.sector_zero hdisk hp hl hcall
        rw [hsub.base_after hlink hv] at hloop
        have hpNo : ((s.progress w.base (s.mallocs + 1)).after ch w.base sub).pNo =
            s.pNo + prims sub.found := recordAll_pNo _ ch sub.found
        have hlNo : ((s.progress w.base (s.mallocs + 1)).after ch w.base sub).lNo =
            s.lNo + logics sub.found := recordAll_lNo _ ch sub.found
        have hprims : s.pNo + prims sub.found ≤ 3 := hfits.2.2.prims
        have hlogics : s.lNo + logics sub.found ≤ 8 := hfits.2.2.logics
        obtain ⟨rest, hrest, hfits', rfl⟩ := ih
          (s := (s.progress w.base (s.mallocs + 1)).after ch w.base sub) (by omega)
          ((congrFun (recordAll_sectors _ ch sub.found) ch).trans hdisk) hlink.base (by omega)
          (by omega) hloop
        refine ⟨.ext w.sector sub rest, .ext hlink hsub ?_, ?_, (after_ext _ w.base _ _ _).symm⟩
        · rw [hlNo, ← Nat.sub_sub] at hrest
          exact hrest
        · exact (fits_ext ch w.base w.base).mpr ⟨hfits.1, hfits.2.1, hfits.2.2, hfits'⟩
      have hnext := hbase.trans (baseAt_succ_of_ne hext v.base).symm
      by_cases hfree : fsType (disk v.sector) i = 0
      · rw [scanFrom_free hi hfree] at hrun
        obtain ⟨rest, hrest, hfits, rfl⟩ := ih (by omega) hdisk hnext hp hl hrun
        exact ⟨.free rest, .free hi hfree hrest, fits_free.mpr hfits, rfl⟩
      have hpart : IsPartition (disk v.sector) i := ⟨hext, hfree⟩
      by_cases hzero : v.sector = 0
      · rw [scanFrom_prim hi hpart hzero] at hrun
        split at hrun
        · next hroom =>
            obtain ⟨rest, hrest, hfits, rfl⟩ := ih (s := s.record ch (.prim _)) (by omega) hdisk
              hnext (Nat.le_of_lt_succ hroom) hl hrun
            exact ⟨.prim _ rest, .prim hi hpart hzero hrest, fits_prim.mpr hfits, rfl⟩
        · exact absurd hrun (by simp)
      · have hvbase : v.base ≠ 0 := fun h => hzero (hv h)
        rw [scanFrom_logic hi hpart hzero] at hrun
        split at hrun
        · next hroom =>
            split at hrun
            · next hlast =>
                refine ⟨.logic ⟨v.sector + entryStart (disk v.sector) i,
                  entryCount (disk v.sector) i⟩ .nil, ?_, ⟨hp, ?_, by simp [Entries.sectors],
                  by simp [Entries.sectors]⟩, ?_⟩
                · rw [hlast]
                  exact .full hi hpart hzero
                · rw [Entries.found, logics_logic]
                  simp only [Entries.found, logics_nil]
                  omega
                · rw [baseAt_of_ne hvbase] at hbase ⊢
                  rw [← hbase]
                  exact (congrArg Prod.snd (Except.ok.inj hrun)).symm
            · next hlast =>
                obtain ⟨rest, hrest, hfits, rfl⟩ := ih (s := s.record ch (.logic _)) (by omega)
                  hdisk hnext hp (show s.lNo + 1 ≤ 8 by omega) hrun
                refine ⟨.logic _ rest, .logic hi hpart hzero (by omega) ?_,
                  fits_logic.mpr hfits, rfl⟩
                rw [Nat.sub_sub]
                exact hrest
        · exact absurd hrun (by simp)

theorem callsScan (disk : UInt32 → Bytes) (ch : Channel) (k : Nat) : CallsScan disk ch k := by
  induction k with
  | zero =>
      intro w s t u _ _ _ _ hrun
      exact (Code.throw_ok.mp hrun).elim
  | succ k ih =>
      intro w s t u hw hdisk hp hl hrun
      rw [partitionScan_link hdisk] at hrun
      split at hrun
      · next hserved =>
          split at hrun
          · next hlba =>
              obtain ⟨sub, hsub, hfits, ht⟩ :=
                ih.loop (s := s.progress w.base (s.mallocs + 1)) 4 rfl hw hdisk rfl hp hl hrun
              exact ⟨sub, hsub, ⟨hserved, hlba, hfits⟩, ht⟩
          · exact absurd hrun (by simp)
      · exact absurd hrun (by simp)

end ScansTo

end Aitos.Fs
