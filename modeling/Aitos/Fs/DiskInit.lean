import Aitos.Fs.Format

/-!
# Finding and formatting partitions at boot

`partition_scan` and `ide_init` of `drivers/ide.c` and the loops of `filesys_init` of `fs/fs.c`,
for a machine with two channels.  Only the slave disk of a channel is scanned.  The counters of
the scan are globals, the one of the formatting loop is a local of the whole function.  Mounting
the default partition comes after the loops; it reads the disk and changes none of this.
-/

namespace Aitos.Fs

open Framework

inductive Channel where
  | ide0 | ide1
  deriving DecidableEq, Repr

/-- The place of a `struct partition`. -/
structure PartExtent where
  startLba : UInt32
  secCnt : UInt32
  deriving DecidableEq, Repr

/-- A place in the partition tables of a disk, such as the `part` pointer of `filesys_init`. -/
inductive PartPtr where
  | prim (i : Nat)
  | logic (i : Nat)
  deriving DecidableEq, Repr

/-- Why the boot stops, or goes on for ever. -/
inductive BootHalt where
  | assertion
  | panic
  | nullDeref
  | outOfBounds
  | diverge
  deriving DecidableEq, Repr

/-- The globals of the scan, the tables of the two slave disks, the list of all partitions and the
sectors of the two disks.  `served` says which calls of `sys_malloc` succeed, counted by `mallocs`;
`pad` is what the stack held where `partition_format` puts its super block. -/
structure Boot where
  extLbaBase : UInt32
  pNo : Nat
  lNo : Nat
  primParts : Channel → Nat → PartExtent
  logicParts : Channel → Nat → PartExtent
  partitionList : List (Channel × PartPtr)
  sectors : Channel → UInt32 → Bytes
  served : Nat → Bool
  mallocs : Nat
  pad : Bytes

namespace Boot

/-- Before `ide_init`: static data is zero. -/
def start (sectors : Channel → UInt32 → Bytes) (served : Nat → Bool) (pad : Bytes) : Boot where
  extLbaBase := 0
  pNo := 0
  lNo := 0
  primParts _ _ := ⟨0, 0⟩
  logicParts _ _ := ⟨0, 0⟩
  partitionList := []
  sectors := sectors
  served := served
  mallocs := 0
  pad := pad

def setPrim (s : Boot) (ch : Channel) (p : PartExtent) : Boot :=
  { s with
    primParts := Function.update s.primParts ch (Function.update (s.primParts ch) s.pNo p)
    partitionList := s.partitionList ++ [(ch, .prim s.pNo)]
    pNo := s.pNo + 1 }

def setLogic (s : Boot) (ch : Channel) (p : PartExtent) : Boot :=
  { s with
    logicParts := Function.update s.logicParts ch (Function.update (s.logicParts ch) s.lNo p)
    partitionList := s.partitionList ++ [(ch, .logic s.lNo)]
    lNo := s.lNo + 1 }

def write (s : Boot) (ch : Channel) (lba secCnt : UInt32) (src : Bytes) : Boot :=
  { s with
    sectors := Function.update s.sectors ch fun i =>
      if (i - lba).toNat < secCnt.toNat then src.drop (512 * (i - lba).toNat) else s.sectors ch i }

end Boot

abbrev BootM := Code Boot BootHalt

def check (c : Prop) [Decidable c] (h : BootHalt) : BootM Unit := if c then pure () else throw h

def bootMalloc : BootM Bool := do
  let s ← get
  modify fun s => { s with mallocs := s.mallocs + 1 }
  return s.served s.mallocs

def readSector (ch : Channel) (lba : UInt32) : BootM Bytes := do
  check (lba ≤ maxLba) .assertion
  let s ← get
  return s.sectors ch lba

/-- `ide_write`: transfers of at most 256 sectors, each with its own check of the address. -/
def writeSectors (ch : Channel) (lba secCnt : UInt32) (src : Bytes) : BootM Unit := do
  check (lba ≤ maxLba ∧ 0 < secCnt) .assertion
  check (∀ k < (secCnt.toNat + 255) / 256, lba + UInt32.ofNat (256 * k) ≤ maxLba) .assertion
  modify fun s => s.write ch lba secCnt src

/-! ### The scan -/

def fsType (bs : Bytes) (i : Nat) : UInt8 := bs (446 + 16 * i + 4)

def entryStart (bs : Bytes) (i : Nat) : UInt32 := bs.word (446 + 16 * i + 8)

def entryCount (bs : Bytes) (i : Nat) : UInt32 := bs.word (446 + 16 * i + 12)

def fsExtended : UInt8 := 5

/-- Where the scan goes on for an extended entry.  The first one that is met sets the base. -/
def extendedLba (start : UInt32) : BootM UInt32 := do
  let s ← get
  if s.extLbaBase ≠ 0 then return start + s.extLbaBase
  else do
    modify fun s => { s with extLbaBase := start }
    return start

def recordPrim (ch : Channel) (p : PartExtent) : BootM Unit := do
  modify fun s => s.setPrim ch p
  let s ← get
  check (s.pNo < 4) .assertion

/-- Records a logical partition and says whether the table is full. -/
def recordLogic (ch : Channel) (p : PartExtent) : BootM Bool := do
  let s ← get
  check (s.lNo < 8) .outOfBounds
  modify fun s => s.setLogic ch p
  return 8 ≤ s.lNo + 1

/-- The loop over the entries of the boot sector at `extLba`; `scan` is the recursive call. -/
def scanEntries (scan : UInt32 → BootM Unit) (ch : Channel) (extLba : UInt32) (bs : Bytes) :
    List Nat → BootM Unit
  | [] => pure ()
  | i :: is =>
      if fsType bs i = fsExtended then do
        let lba ← extendedLba (entryStart bs i)
        scan lba
        scanEntries scan ch extLba bs is
      else if fsType bs i ≠ 0 then
        if extLba = 0 then do
          recordPrim ch ⟨extLba + entryStart bs i, entryCount bs i⟩
          scanEntries scan ch extLba bs is
        else do
          let full ← recordLogic ch ⟨extLba + entryStart bs i, entryCount bs i⟩
          if full then pure () else scanEntries scan ch extLba bs is
      else scanEntries scan ch extLba bs is

/-- `partition_scan`, to a depth of recursion given by the first argument. -/
def partitionScan : Nat → Channel → UInt32 → BootM Unit
  | 0, _, _ => throw .diverge
  | n + 1, ch, extLba => do
      let ok ← bootMalloc
      check (ok = true) .nullDeref
      let bs ← readSector ch extLba
      scanEntries (fun lba => partitionScan n ch lba) ch extLba bs [0, 1, 2, 3]

def scanDisk (n : Nat) (ch : Channel) : BootM Unit := do
  partitionScan n ch 0
  modify fun s => { s with pNo := 0, lNo := 0 }

def ideInit (n : Nat) : BootM Unit := do
  scanDisk n .ide0
  scanDisk n .ide1

/-! ### Formatting -/

def partitionFormat (ch : Channel) (p : PartExtent) : BootM Unit := do
  let sb := Format.superBlock p.startLba p.secCnt
  let bitLen := Format.blockBitmapBitLen p.secCnt
  let s ← get
  writeSectors ch (p.startLba + 1) 1 (sb.image s.pad)
  let ok ← bootMalloc
  check (ok = true) .nullDeref
  let lastByte := bitLen.toNat / 8
  check (lastByte + (512 - lastByte % 512) ≤ 512 * max sb.blockBitmapSects.toNat 608) .outOfBounds
  writeSectors ch sb.blockBitmapLba sb.blockBitmapSects (Format.blockBitmapBuf bitLen)
  writeSectors ch sb.inodeBitmapLba sb.inodeBitmapSects (Function.update Bytes.zero 0 1)
  writeSectors ch sb.inodeTableLba sb.inodeTableSects
    (Bytes.zero.blit 0 76 (rootInode sb.places).pureImage)
  writeSectors ch sb.dataStartLba 1 (dirBlock 0 0)

def checkPartition (ch : Channel) (p : PartExtent) : BootM Unit := do
  if p.secCnt ≠ 0 then do
    let sb ← readSector ch (p.startLba + 1)
    if sb.word 0 = Format.superMagic then pure () else partitionFormat ch p
  else pure ()

def PartPtr.next : PartPtr → PartPtr
  | .prim i => .prim (i + 1)
  | .logic i => .logic (i + 1)

def partAt (ch : Channel) : PartPtr → BootM PartExtent
  | .prim i => do
      check (i < 4) .outOfBounds
      let s ← get
      return s.primParts ch i
  | .logic i => do
      check (i < 8) .outOfBounds
      let s ← get
      return s.logicParts ch i

/-- `while (part_index < 12)` on one disk, with `left = 12 - part_index`; the new `part_index`. -/
def checkPartitions (ch : Channel) : Nat → Nat → PartPtr → BootM Nat
  | 0, partIndex, _ => return partIndex
  | left + 1, partIndex, part => do
      let part := if partIndex = 4 then .logic 0 else part
      let p ← partAt ch part
      checkPartition ch p
      checkPartitions ch left (partIndex + 1) part.next

def filesysInit : BootM Unit := do
  let ok ← bootMalloc
  check (ok = true) .panic
  let partIndex ← checkPartitions .ide0 12 0 (.prim 0)
  let _ ← checkPartitions .ide1 (12 - partIndex) partIndex (.prim 0)

/-! ### What one disk can change -/

/-- The sectors stay, and so do the tables of the other channel. -/
structure ScansOnly (ch : Channel) (s t : Boot) : Prop where
  sectors : t.sectors = s.sectors
  prim : ∀ c ≠ ch, t.primParts c = s.primParts c
  logic : ∀ c ≠ ch, t.logicParts c = s.logicParts c

instance (ch : Channel) : IsPreorder Boot (ScansOnly ch) where
  refl _ := ⟨rfl, fun _ _ => rfl, fun _ _ => rfl⟩
  trans _ _ _ h₁ h₂ :=
    ⟨h₂.sectors.trans h₁.sectors, fun c hc => (h₂.prim c hc).trans (h₁.prim c hc),
      fun c hc => (h₂.logic c hc).trans (h₁.logic c hc)⟩

/-- A base that is set stays. -/
def KeepsBase (s t : Boot) : Prop := s.extLbaBase ≠ 0 → t.extLbaBase = s.extLbaBase

instance : IsPreorder Boot KeepsBase where
  refl _ _ := rfl
  trans _ _ _ h₁ h₂ h := (h₂ (by rw [h₁ h]; exact h)).trans (h₁ h)

section Scan

variable {R : Boot → Boot → Prop} [IsPreorder Boot R]

theorem keeps_check (c : Prop) [Decidable c] (h : BootHalt) : Keeps R (check c h) :=
  Keeps.ite .pure .throw

private theorem keeps_bootMalloc (h : ∀ s n, R s { s with mallocs := n }) : Keeps R bootMalloc :=
  Keeps.get.bind fun _ => (Keeps.modify fun s => h s _).bind fun _ => .pure

theorem keeps_readSector (ch : Channel) (lba : UInt32) : Keeps R (readSector ch lba) :=
  (keeps_check _ _).bind fun _ => Keeps.get.bind fun _ => .pure

private theorem keeps_scanEntries {scan : UInt32 → BootM Unit} {ch : Channel} (extLba : UInt32)
    (bs : Bytes) (hscan : ∀ lba, Keeps R (scan lba)) (hext : ∀ start, Keeps R (extendedLba start))
    (hprim : ∀ p, Keeps R (recordPrim ch p)) (hlogic : ∀ p, Keeps R (recordLogic ch p))
    (is : List Nat) : Keeps R (scanEntries scan ch extLba bs is) := by
  induction is with
  | nil => exact .pure
  | cons i is ih =>
      rw [scanEntries]
      apply Keeps.ite
      · exact (hext _).bind fun _ => (hscan _).bind fun _ => ih
      apply Keeps.ite
      · apply Keeps.ite
        · exact (hprim _).bind fun _ => ih
        · exact (hlogic _).bind fun _ => Keeps.ite .pure ih
      · exact ih

private theorem keeps_partitionScan {ch : Channel} (hmalloc : ∀ s n, R s { s with mallocs := n })
    (hext : ∀ start, Keeps R (extendedLba start)) (hprim : ∀ p, Keeps R (recordPrim ch p))
    (hlogic : ∀ p, Keeps R (recordLogic ch p)) (n : Nat) (lba : UInt32) :
    Keeps R (partitionScan n ch lba) := by
  induction n generalizing lba with
  | zero => exact .throw
  | succ n ih =>
      refine (keeps_bootMalloc hmalloc).bind fun ok => ?_
      refine (keeps_check _ _).bind fun _ => ?_
      refine (keeps_readSector ch lba).bind fun bs => ?_
      exact keeps_scanEntries lba bs ih hext hprim hlogic _

end Scan

private theorem scansOnly_partitionScan (n : Nat) (ch : Channel) (lba : UInt32) :
    Keeps (ScansOnly ch) (partitionScan n ch lba) := by
  apply keeps_partitionScan
  · intro s k
    exact ⟨rfl, fun _ _ => rfl, fun _ _ => rfl⟩
  · intro start
    refine Keeps.get.bind fun s => Keeps.ite .pure ?_
    refine Keeps.bind (Keeps.modify fun s => ?_) fun _ => .pure
    exact ⟨rfl, fun _ _ => rfl, fun _ _ => rfl⟩
  · intro p
    refine Keeps.bind (Keeps.modify fun s => ?_) fun _ => Keeps.get.bind fun _ => keeps_check _ _
    exact ⟨rfl, fun c hc => Function.update_of_ne hc _ _, fun _ _ => rfl⟩
  · intro p
    refine Keeps.get.bind fun s => (keeps_check _ _).bind fun _ => ?_
    refine Keeps.bind (Keeps.modify fun s => ?_) fun _ => .pure
    exact ⟨rfl, fun _ _ => rfl, fun c hc => Function.update_of_ne hc _ _⟩

private theorem scansOnly_scanDisk (n : Nat) (ch : Channel) :
    Keeps (ScansOnly ch) (scanDisk n ch) :=
  (scansOnly_partitionScan n ch 0).bind fun _ =>
    Keeps.modify fun _ => ⟨rfl, fun _ _ => rfl, fun _ _ => rfl⟩

section Base

variable (ch : Channel)

private theorem keepsBase_extendedLba (start : UInt32) : Keeps KeepsBase (extendedLba start) := by
  intro s a t h hbase
  rw [extendedLba, Code.get_bind, if_pos hbase] at h
  obtain ⟨-, rfl⟩ := Code.pure_ok.mp h
  rfl

private theorem keepsBase_recordPrim (p : PartExtent) : Keeps KeepsBase (recordPrim ch p) := by
  refine Keeps.bind (Keeps.modify fun s _ => ?_) fun _ => Keeps.get.bind fun _ => keeps_check _ _
  rfl

private theorem keepsBase_recordLogic (p : PartExtent) : Keeps KeepsBase (recordLogic ch p) := by
  refine Keeps.get.bind fun s => (keeps_check _ _).bind fun _ => ?_
  refine Keeps.bind (Keeps.modify fun s _ => ?_) fun _ => .pure
  rfl

private theorem keepsBase_partitionScan (n : Nat) (lba : UInt32) :
    Keeps KeepsBase (partitionScan n ch lba) :=
  keeps_partitionScan (fun _ _ _ => rfl) keepsBase_extendedLba (keepsBase_recordPrim ch)
    (keepsBase_recordLogic ch) n lba

private theorem keepsBase_scanEntries (n : Nat) (lba : UInt32) (bs : Bytes) (is : List Nat) :
    Keeps KeepsBase (scanEntries (fun lba => partitionScan n ch lba) ch lba bs is) :=
  keeps_scanEntries lba bs (keepsBase_partitionScan ch n) keepsBase_extendedLba
    (keepsBase_recordPrim ch) (keepsBase_recordLogic ch) is

end Base

/-! ### The base a disk leaves behind -/

/-- The start of the first extended entry among these, 0 without one. -/
def firstExtended (bs : Bytes) (is : List Nat) : UInt32 :=
  match is.find? fun i => fsType bs i = fsExtended with
  | some i => entryStart bs i
  | none => 0

/-- The start of the first extended partition of a boot sector, 0 without one. -/
def extendedBase (bs : Bytes) : UInt32 := firstExtended bs [0, 1, 2, 3]

private theorem firstExtended_of_eq {bs : Bytes} {i : Nat} {is : List Nat}
    (h : fsType bs i = fsExtended) : firstExtended bs (i :: is) = entryStart bs i := by
  simp [firstExtended, h]

private theorem firstExtended_of_ne {bs : Bytes} {i : Nat} {is : List Nat}
    (h : fsType bs i ≠ fsExtended) : firstExtended bs (i :: is) = firstExtended bs is := by
  simp [firstExtended, h]

private theorem recordPrim_ok {ch : Channel} {p : PartExtent} {s t : Boot} {u : Unit}
    (h : recordPrim ch p s = .ok (u, t)) : t = s.setPrim ch p := by
  rw [recordPrim, Code.modify_bind, Code.get_bind, check] at h
  split at h
  · obtain ⟨-, rfl⟩ := Code.pure_ok.mp h
    rfl
  · exact (Code.throw_ok.mp h).elim

/-- The loop over the first boot sector, from a base that is not set.  `hloop` is about the
recursive call on sector 0, the case of an extended entry that starts there. -/
private theorem base_scanEntries {n : Nat} {ch : Channel} {bs : Bytes} {is : List Nat} {s t : Boot}
    {u : Unit}
    (hloop : ∀ {s t u}, s.extLbaBase = 0 → s.sectors ch 0 = bs →
      partitionScan n ch 0 s = .ok (u, t) → extendedBase bs = 0 →
      ∀ i ∈ [0, 1, 2, 3], fsType bs i ≠ fsExtended)
    (his : ∀ i ∈ is, i ∈ [0, 1, 2, 3]) (hfirst : firstExtended bs is = extendedBase bs)
    (hbase : s.extLbaBase = 0) (hbs : s.sectors ch 0 = bs)
    (h : scanEntries (fun lba => partitionScan n ch lba) ch 0 bs is s = .ok (u, t)) :
    t.extLbaBase = extendedBase bs ∧
      (extendedBase bs = 0 → ∀ i ∈ is, fsType bs i ≠ fsExtended) := by
  induction is generalizing s with
  | nil =>
      obtain ⟨-, rfl⟩ := Code.pure_ok.mp h
      exact ⟨hbase.trans hfirst, by simp⟩
  | cons i is ih =>
      rw [scanEntries] at h
      by_cases hext : fsType bs i = fsExtended
      · rw [firstExtended_of_eq hext] at hfirst
        rw [if_pos hext, extendedLba, bind_assoc, Code.get_bind, if_neg (not_not.mpr hbase),
          bind_assoc, Code.modify_bind, pure_bind] at h
        obtain ⟨_, s₁, hscan, hrest⟩ := Code.bind_ok.mp h
        by_cases hzero : entryStart bs i = 0
        · rw [hzero] at hscan
          have hnone := hloop (s := { s with extLbaBase := 0 }) rfl hbs hscan (hfirst.symm.trans hzero)
          exact absurd hext (hnone i (his i List.mem_cons_self))
        · -- the base is set now, and nothing behind this point changes it
          have h₁ := keepsBase_partitionScan ch n _ _ _ _ hscan hzero
          have h₂ := keepsBase_scanEntries ch n 0 bs is _ _ _ hrest (by rw [h₁]; exact hzero)
          exact ⟨(h₂.trans h₁).trans hfirst, fun h0 => absurd (hfirst.trans h0) hzero⟩
      · rw [firstExtended_of_ne hext] at hfirst
        rw [if_neg hext] at h
        have hnext : ∀ s' : Boot, s'.extLbaBase = 0 → s'.sectors ch 0 = bs →
            scanEntries (fun lba => partitionScan n ch lba) ch 0 bs is s' = .ok (u, t) →
            t.extLbaBase = extendedBase bs ∧
              (extendedBase bs = 0 → ∀ j ∈ i :: is, fsType bs j ≠ fsExtended) := by
          intro s' hbase' hbs' h'
          obtain ⟨hb, hnone⟩ :=
            ih (fun j hj => his j (List.mem_cons_of_mem i hj)) hfirst hbase' hbs' h'
          refine ⟨hb, fun h0 j hj => ?_⟩
          rcases List.mem_cons.mp hj with rfl | hj
          · exact hext
          · exact hnone h0 j hj
        by_cases hfree : fsType bs i ≠ 0
        · rw [if_pos hfree, if_pos rfl] at h
          obtain ⟨_, s₁, hprim, hrest⟩ := Code.bind_ok.mp h
          obtain rfl := recordPrim_ok hprim
          exact hnext (s.setPrim ch _) hbase hbs hrest
        · rw [if_neg hfree] at h
          exact hnext s hbase hbs h

private theorem partitionScan_ok {n : Nat} {ch : Channel} {lba : UInt32} {s t : Boot} {u : Unit}
    (h : partitionScan (n + 1) ch lba s = .ok (u, t)) :
    ∃ k, scanEntries (fun lba => partitionScan n ch lba) ch lba (s.sectors ch lba) [0, 1, 2, 3]
      { s with mallocs := k } = .ok (u, t) := by
  rw [partitionScan, bootMalloc, bind_assoc, Code.get_bind, bind_assoc, Code.modify_bind,
    pure_bind] at h
  obtain ⟨_, s₁, hcheck, h₁⟩ := Code.bind_ok.mp h
  rw [check] at hcheck
  split at hcheck
  · obtain ⟨-, rfl⟩ := Code.pure_ok.mp hcheck
    obtain ⟨bs, s₂, hread, h₂⟩ := Code.bind_ok.mp h₁
    rw [readSector] at hread
    obtain ⟨_, s₃, hlba, hget⟩ := Code.bind_ok.mp hread
    rw [check] at hlba
    split at hlba
    · obtain ⟨-, rfl⟩ := Code.pure_ok.mp hlba
      rw [Code.get_bind] at hget
      obtain ⟨rfl, rfl⟩ := Code.pure_ok.mp hget
      exact ⟨_, h₂⟩
    · exact (Code.throw_ok.mp hlba).elim
  · exact (Code.throw_ok.mp hcheck).elim

private theorem base_partitionScan {n : Nat} {ch : Channel} {s t : Boot} {u : Unit}
    (hbase : s.extLbaBase = 0) (h : partitionScan n ch 0 s = .ok (u, t)) :
    t.extLbaBase = extendedBase (s.sectors ch 0) ∧
      (extendedBase (s.sectors ch 0) = 0 →
        ∀ i ∈ [0, 1, 2, 3], fsType (s.sectors ch 0) i ≠ fsExtended) := by
  induction n generalizing s t u with
  | zero => exact (Code.throw_ok.mp h).elim
  | succ n ih =>
      obtain ⟨k, hk⟩ := partitionScan_ok h
      refine base_scanEntries (s := { s with mallocs := k }) ?_ (fun i hi => hi) rfl hbase rfl hk
      intro s' t' u' hbase' hbs' h' hzero
      have hnone := (ih hbase' h').2
      rw [hbs'] at hnone
      exact hnone hzero

/-! ### Two machines with the same second disk -/

/-- Two machines that agree on the second disk and the counters; on the base as far as `b`. -/
structure Alike (b : Prop) (s s' : Boot) : Prop where
  base : b → s.extLbaBase = s'.extLbaBase
  pNo : s.pNo = s'.pNo
  lNo : s.lNo = s'.lNo
  prim : s.primParts .ide1 = s'.primParts .ide1
  logic : s.logicParts .ide1 = s'.logicParts .ide1
  sectors : s.sectors .ide1 = s'.sectors .ide1

section Couple

variable {b : Prop}

private theorem couples_check (c c' : Prop) [Decidable c] [Decidable c'] (h h' : BootHalt) :
    Couples (Alike b) (check c h) (check c' h') := by
  intro s s' a a' t t' hR hm hn
  rw [check] at hm hn
  split at hm
  · split at hn
    · obtain ⟨-, rfl⟩ := Code.pure_ok.mp hm
      obtain ⟨-, rfl⟩ := Code.pure_ok.mp hn
      exact ⟨rfl, hR⟩
    · exact (Code.throw_ok.mp hn).elim
  · exact (Code.throw_ok.mp hm).elim

private theorem couples_extendedLba (hb : b) (start : UInt32) :
    Couples (Alike b) (extendedLba start) (extendedLba start) := by
  intro s s' a a' t t' hR hm hn
  rw [extendedLba, Code.get_bind] at hm hn
  have hbase := hR.base hb
  by_cases h0 : s.extLbaBase ≠ 0
  · rw [if_pos h0] at hm
    rw [if_pos (by rwa [← hbase])] at hn
    obtain ⟨rfl, rfl⟩ := Code.pure_ok.mp hm
    obtain ⟨rfl, rfl⟩ := Code.pure_ok.mp hn
    exact ⟨by rw [hbase], hR⟩
  · rw [if_neg h0, Code.modify_bind] at hm
    rw [if_neg (by rwa [← hbase]), Code.modify_bind] at hn
    obtain ⟨rfl, rfl⟩ := Code.pure_ok.mp hm
    obtain ⟨rfl, rfl⟩ := Code.pure_ok.mp hn
    exact ⟨rfl, { hR with base := fun _ => rfl }⟩

theorem Alike.setPrim {s s' : Boot} (h : Alike b s s') (p : PartExtent) :
    Alike b (s.setPrim .ide1 p) (s'.setPrim .ide1 p) := by
  refine { h with pNo := congrArg (· + 1) h.pNo, prim := ?_ }
  simp only [Boot.setPrim, Function.update_self, h.pNo, h.prim]

theorem Alike.setLogic {s s' : Boot} (h : Alike b s s') (p : PartExtent) :
    Alike b (s.setLogic .ide1 p) (s'.setLogic .ide1 p) := by
  refine { h with lNo := congrArg (· + 1) h.lNo, logic := ?_ }
  simp only [Boot.setLogic, Function.update_self, h.lNo, h.logic]

private theorem couples_recordPrim (p : PartExtent) :
    Couples (Alike b) (recordPrim .ide1 p) (recordPrim .ide1 p) := by
  intro s s' a a' t t' hR hm hn
  obtain rfl := recordPrim_ok hm
  obtain rfl := recordPrim_ok hn
  exact ⟨rfl, hR.setPrim p⟩

private theorem couples_recordLogic (p : PartExtent) :
    Couples (Alike b) (recordLogic .ide1 p) (recordLogic .ide1 p) := by
  intro s s' a a' t t' hR hm hn
  rw [recordLogic, Code.get_bind] at hm hn
  obtain ⟨_, u, hm₁, hm₂⟩ := Code.bind_ok.mp hm
  obtain ⟨_, u', hn₁, hn₂⟩ := Code.bind_ok.mp hn
  have hu := ((couples_check (b := b) _ _ _ _).ok hR hm₁ hn₁).2
  rw [Code.modify_bind] at hm₂ hn₂
  obtain ⟨rfl, rfl⟩ := Code.pure_ok.mp hm₂
  obtain ⟨rfl, rfl⟩ := Code.pure_ok.mp hn₂
  exact ⟨by rw [hR.lNo], hu.setLogic p⟩

/-- The loop over a boot sector.  Machines that differ in the base stay alike as long as no
extended entry is met. -/
private theorem couples_scanEntries {scan scan' : UInt32 → BootM Unit} (extLba : UInt32)
    (bs : Bytes) (is : List Nat) (hext : ∀ i ∈ is, fsType bs i = fsExtended →
      b ∧ ∀ lba, Couples (Alike b) (scan lba) (scan' lba)) :
    Couples (Alike b) (scanEntries scan .ide1 extLba bs is)
      (scanEntries scan' .ide1 extLba bs is) := by
  induction is with
  | nil => exact Couples.pure
  | cons i is ih =>
      have hrest := ih fun j hj => hext j (List.mem_cons_of_mem i hj)
      rw [scanEntries, scanEntries]
      by_cases hi : fsType bs i = fsExtended
      · obtain ⟨hb, hscan⟩ := hext i List.mem_cons_self hi
        rw [if_pos hi, if_pos hi]
        exact (couples_extendedLba hb _).bind fun lba => (hscan lba).bind fun _ => hrest
      · rw [if_neg hi, if_neg hi]
        refine Couples.ite (Couples.ite ?_ ?_) hrest
        · exact (couples_recordPrim _).bind fun _ => hrest
        · exact (couples_recordLogic _).bind fun _ => Couples.ite .pure hrest

private theorem couples_partitionScan (hb : b) (n n' : Nat) (lba : UInt32) :
    Couples (Alike b) (partitionScan n .ide1 lba) (partitionScan n' .ide1 lba) := by
  induction n generalizing n' lba with
  | zero => exact Couples.throw
  | succ n ih =>
      intro s s' a a' t t' hR hm hn
      cases n' with
      | zero => exact (Code.throw_ok.mp hn).elim
      | succ n' =>
          obtain ⟨k, hk⟩ := partitionScan_ok hm
          obtain ⟨k', hk'⟩ := partitionScan_ok hn
          rw [← hR.sectors] at hk'
          have hR' : Alike b { s with mallocs := k } { s' with mallocs := k' } := { hR with }
          exact (couples_scanEntries lba _ _ fun _ _ _ => ⟨hb, ih n'⟩).ok hR' hk hk'

private theorem couples_partitionScan_primary {n n' : Nat} {s s' t t' : Boot} {a a' : Unit}
    (hR : Alike b s s') (hnone : ∀ i ∈ [0, 1, 2, 3], fsType (s.sectors .ide1 0) i ≠ fsExtended)
    (hm : partitionScan n .ide1 0 s = .ok (a, t)) (hn : partitionScan n' .ide1 0 s' = .ok (a', t')) :
    Alike b t t' := by
  cases n with
  | zero => exact (Code.throw_ok.mp hm).elim
  | succ n =>
      cases n' with
      | zero => exact (Code.throw_ok.mp hn).elim
      | succ n' =>
          obtain ⟨k, hk⟩ := partitionScan_ok hm
          obtain ⟨k', hk'⟩ := partitionScan_ok hn
          rw [← hR.sectors] at hk'
          have hR' : Alike b { s with mallocs := k } { s' with mallocs := k' } := { hR with }
          exact ((couples_scanEntries 0 _ _ fun i hi h => absurd h (hnone i hi)).ok hR' hk hk').2

end Couple

/-! ### The formatting loop -/

/-- The tables stay, and so do the sectors of the other channel. -/
structure FormatsOnly (ch : Channel) (s t : Boot) : Prop where
  prim : t.primParts = s.primParts
  logic : t.logicParts = s.logicParts
  sectors : ∀ c ≠ ch, t.sectors c = s.sectors c

instance (ch : Channel) : IsPreorder Boot (FormatsOnly ch) where
  refl _ := ⟨rfl, rfl, fun _ _ => rfl⟩
  trans _ _ _ h₁ h₂ :=
    ⟨h₂.prim.trans h₁.prim, h₂.logic.trans h₁.logic,
      fun c hc => (h₂.sectors c hc).trans (h₁.sectors c hc)⟩

section Formats

variable (ch : Channel)

private theorem formatsOnly_malloc : Keeps (FormatsOnly ch) bootMalloc :=
  keeps_bootMalloc fun _ _ => ⟨rfl, rfl, fun _ _ => rfl⟩

private theorem formatsOnly_writeSectors (lba secCnt : UInt32) (src : Bytes) :
    Keeps (FormatsOnly ch) (writeSectors ch lba secCnt src) := by
  refine (keeps_check _ _).bind fun _ => (keeps_check _ _).bind fun _ => ?_
  exact Keeps.modify fun s => ⟨rfl, rfl, fun c hc => Function.update_of_ne hc _ _⟩

private theorem formatsOnly_format (p : PartExtent) :
    Keeps (FormatsOnly ch) (partitionFormat ch p) := by
  refine Keeps.get.bind fun s => (formatsOnly_writeSectors ch _ _ _).bind fun _ => ?_
  refine (formatsOnly_malloc ch).bind fun ok => (keeps_check _ _).bind fun _ => ?_
  refine (keeps_check _ _).bind fun _ => (formatsOnly_writeSectors ch _ _ _).bind fun _ => ?_
  refine (formatsOnly_writeSectors ch _ _ _).bind fun _ => ?_
  refine (formatsOnly_writeSectors ch _ _ _).bind fun _ => ?_
  exact formatsOnly_writeSectors ch _ _ _

private theorem formatsOnly_checkPartition (p : PartExtent) :
    Keeps (FormatsOnly ch) (checkPartition ch p) := by
  refine Keeps.ite ((keeps_readSector ch _).bind fun sb => ?_) .pure
  exact Keeps.ite .pure (formatsOnly_format ch p)

private theorem formatsOnly_partAt (q : PartPtr) : Keeps (FormatsOnly ch) (partAt ch q) := by
  cases q with
  | prim i => exact (keeps_check _ _).bind fun _ => Keeps.get.bind fun _ => .pure
  | logic i => exact (keeps_check _ _).bind fun _ => Keeps.get.bind fun _ => .pure

private theorem formatsOnly_checkPartitions (left partIndex : Nat) (part : PartPtr) :
    Keeps (FormatsOnly ch) (checkPartitions ch left partIndex part) := by
  induction left generalizing partIndex part with
  | zero => exact .pure
  | succ left ih =>
      refine (formatsOnly_partAt ch _).bind fun p => ?_
      exact (formatsOnly_checkPartition ch p).bind fun _ => ih _ _

private theorem checkPartitions_index {left partIndex i : Nat} {part : PartPtr} {s t : Boot}
    (h : checkPartitions ch left partIndex part s = .ok (i, t)) : i = partIndex + left := by
  induction left generalizing partIndex part s with
  | zero => exact (Code.pure_ok.mp h).1
  | succ left ih =>
      rw [checkPartitions] at h
      obtain ⟨p, s₁, -, h₁⟩ := Code.bind_ok.mp h
      obtain ⟨_, s₂, -, h₂⟩ := Code.bind_ok.mp h₁
      have hi := ih h₂
      omega

end Formats

/-- The loops of `filesys_init` leave the tables and the second disk alone: the index is used up
when they come to it. -/
private theorem filesysInit_ok {s t : Boot} {u : Unit} (h : filesysInit s = .ok (u, t)) :
    t.primParts = s.primParts ∧ t.logicParts = s.logicParts ∧
      t.sectors .ide1 = s.sectors .ide1 := by
  rw [filesysInit] at h
  obtain ⟨ok, s₁, hmalloc, h₁⟩ := Code.bind_ok.mp h
  obtain ⟨_, s₂, hcheck, h₂⟩ := Code.bind_ok.mp h₁
  obtain ⟨i, s₃, hloop, h₃⟩ := Code.bind_ok.mp h₂
  obtain ⟨j, s₄, hloop', h₄⟩ := Code.bind_ok.mp h₃
  obtain ⟨-, rfl⟩ := Code.pure_ok.mp h₄
  have hi := checkPartitions_index .ide0 hloop
  subst hi
  obtain ⟨-, rfl⟩ := Code.pure_ok.mp hloop'
  have hkeep := trans_of (FormatsOnly .ide0) (formatsOnly_malloc .ide0 _ _ _ hmalloc)
    (trans_of (FormatsOnly .ide0) (keeps_check _ _ _ _ _ hcheck)
      (formatsOnly_checkPartitions .ide0 12 0 _ _ _ _ hloop))
  exact ⟨hkeep.prim, hkeep.logic, hkeep.sectors .ide1 (by decide)⟩

/-! ### Independence of the second disk -/

/-- The tables of the second disk are the same. -/
def SameTables (s s' : Boot) : Prop :=
  (∀ i < 4, s.primParts .ide1 i = s'.primParts .ide1 i) ∧
    ∀ i < 8, s.logicParts .ide1 i = s'.logicParts .ide1 i

/-- Every partition recorded for the second disk carries a super block. -/
def Formatted (s : Boot) : Prop :=
  (∀ i < 4, (s.primParts .ide1 i).secCnt ≠ 0 →
      (s.sectors .ide1 ((s.primParts .ide1 i).startLba + 1)).word 0 = Format.superMagic) ∧
    ∀ i < 8, (s.logicParts .ide1 i).secCnt ≠ 0 →
      (s.sectors .ide1 ((s.logicParts .ide1 i).startLba + 1)).word 0 = Format.superMagic

instance (s : Boot) : Decidable (Formatted s) := inferInstanceAs (Decidable (_ ∧ _))

/-- The second disk's scan does not see what the first left behind: it has no extended partition,
or the first extended partition of the first disk starts at the same sector on both machines. -/
def BaseUnseen (d d' : Channel → UInt32 → Bytes) : Prop :=
  (∀ i ∈ [0, 1, 2, 3], fsType (d .ide1 0) i ≠ fsExtended) ∨
    extendedBase (d .ide0 0) = extendedBase (d' .ide0 0)

private theorem scanDisk_first {n : Nat} {d : Channel → UInt32 → Bytes} {served : Nat → Bool}
    {pad : Bytes}
    {t : Boot} {u : Unit} (h : scanDisk n .ide0 (Boot.start d served pad) = .ok (u, t)) :
    t.extLbaBase = extendedBase (d .ide0 0) ∧ t.pNo = 0 ∧ t.lNo = 0 ∧
      t.primParts .ide1 = (fun _ => ⟨0, 0⟩) ∧ t.logicParts .ide1 = (fun _ => ⟨0, 0⟩) ∧
      t.sectors = d := by
  have hkeep := scansOnly_scanDisk n .ide0 _ _ _ h
  rw [scanDisk] at h
  obtain ⟨_, s₁, hscan, hreset⟩ := Code.bind_ok.mp h
  obtain rfl := Code.modify_ok.mp hreset
  have hbase := (base_partitionScan rfl hscan).1
  exact ⟨hbase, rfl, rfl, hkeep.prim .ide1 (by decide), hkeep.logic .ide1 (by decide),
    hkeep.sectors⟩

/-- The scans of two machines whose second disks agree record the same tables for it, unless the
second scan sees a base the first disks left differently. -/
private theorem ideInit_alike {n n' : Nat} {d d' : Channel → UInt32 → Bytes}
    {served served' : Nat → Bool}
    {pad pad' : Bytes} {t t' : Boot} {u u' : Unit} (hd : d .ide1 = d' .ide1)
    (hb : BaseUnseen d d') (h : ideInit n (Boot.start d served pad) = .ok (u, t))
    (h' : ideInit n' (Boot.start d' served' pad') = .ok (u', t')) :
    t.primParts .ide1 = t'.primParts .ide1 ∧ t.logicParts .ide1 = t'.logicParts .ide1 := by
  rw [ideInit] at h h'
  obtain ⟨_, s₁, h₀, h₁⟩ := Code.bind_ok.mp h
  obtain ⟨_, s₁', h₀', h₁'⟩ := Code.bind_ok.mp h'
  obtain ⟨hbase, hp, hl, hprim, hlogic, hsec⟩ := scanDisk_first h₀
  obtain ⟨hbase', hp', hl', hprim', hlogic', hsec'⟩ := scanDisk_first h₀'
  rw [scanDisk] at h₁ h₁'
  obtain ⟨_, s₂, hscan, hreset⟩ := Code.bind_ok.mp h₁
  obtain ⟨_, s₂', hscan', hreset'⟩ := Code.bind_ok.mp h₁'
  obtain rfl := Code.modify_ok.mp hreset
  obtain rfl := Code.modify_ok.mp hreset'
  have halike : Alike (extendedBase (d .ide0 0) = extendedBase (d' .ide0 0)) s₁ s₁' :=
    { base := fun hb => by rw [hbase, hbase', hb]
      pNo := hp.trans hp'.symm
      lNo := hl.trans hl'.symm
      prim := hprim.trans hprim'.symm
      logic := hlogic.trans hlogic'.symm
      sectors := by rw [hsec, hsec', hd] }
  have hafter : Alike (extendedBase (d .ide0 0) = extendedBase (d' .ide0 0)) s₂ s₂' := by
    rcases hb with hnone | hsame
    · exact couples_partitionScan_primary halike (by rwa [hsec]) hscan hscan'
    · exact ((couples_partitionScan hsame n n' 0).ok halike hscan hscan').2
  exact ⟨hafter.prim, hafter.logic⟩

private theorem formatted_filesysInit {s t : Boot} {u : Unit} (h : filesysInit s = .ok (u, t)) :
    Formatted t ↔ Formatted s := by
  obtain ⟨hprim, hlogic, hsec⟩ := filesysInit_ok h
  rw [Formatted, Formatted, hprim, hlogic, hsec]

/-- Two machines with the same second disk, after both start-up functions.  Where the second scan
does not see the base of the first disk, the second disk's tables agree and its partitions carry
super blocks exactly when they carried them before `filesys_init`; in any case they have to. -/
theorem second_disk_independent {n n' : Nat} {d d' : Channel → UInt32 → Bytes}
    {served served' : Nat → Bool} {pad pad' : Bytes} {s₁ s₂ s₁' s₂' : Boot} {u₁ u₂ u₁' u₂' : Unit}
    (hd : d .ide1 = d' .ide1)
    (h₁ : ideInit n (Boot.start d served pad) = .ok (u₁, s₁)) (h₂ : filesysInit s₁ = .ok (u₂, s₂))
    (h₁' : ideInit n' (Boot.start d' served' pad') = .ok (u₁', s₁'))
    (h₂' : filesysInit s₁' = .ok (u₂', s₂')) :
    (BaseUnseen d d' →
      (SameTables s₂ s₂' ∧ Formatted s₂ ∧ Formatted s₂' ↔ Formatted s₁ ∧ Formatted s₁')) ∧
    (¬ (Formatted s₁ ∧ Formatted s₁') → ¬ (SameTables s₂ s₂' ∧ Formatted s₂ ∧ Formatted s₂')) := by
  have hf := formatted_filesysInit h₂
  have hf' := formatted_filesysInit h₂'
  constructor
  · intro hb
    obtain ⟨hprim, hlogic⟩ := ideInit_alike hd hb h₁ h₁'
    obtain ⟨hp, hl, -⟩ := filesysInit_ok h₂
    obtain ⟨hp', hl', -⟩ := filesysInit_ok h₂'
    have hsame : SameTables s₂ s₂' := by
      rw [SameTables, hp, hl, hp', hl', hprim, hlogic]
      exact ⟨fun _ _ => rfl, fun _ _ => rfl⟩
    rw [hf, hf']
    exact ⟨fun h => h.2, fun h => ⟨hsame, h⟩⟩
  · intro hnot h
    exact hnot ⟨hf.mp h.2.1, hf'.mp h.2.2⟩

/-! ### Two concrete machines -/

/-- A boot sector with these entries: type, start and count. -/
def bootSector (es : List (UInt8 × PartExtent)) : Bytes := fun i =>
  let e := es.getD ((i - 446) / 16) (0, ⟨0, 0⟩)
  let k := (i - 446) % 16
  if i < 446 ∨ 510 ≤ i then 0
  else if k = 4 then e.1
  else if k < 8 then 0
  else if k < 12 then Bytes.ofWord e.2.startLba (k - 8)
  else Bytes.ofWord e.2.secCnt (k - 12)

/-- A disk given by some of its sectors. -/
def diskOf (sectors : List (UInt32 × Bytes)) : UInt32 → Bytes := fun lba =>
  (sectors.lookup lba).getD Bytes.zero

/-- A machine whose second disk has one logical partition at sector 11. -/
def logicalSecond (first : UInt32 → Bytes) : Channel → UInt32 → Bytes
  | .ide0 => first
  | .ide1 => diskOf [(0, bootSector [(5, ⟨10, 100⟩)]), (10, bootSector [(0x83, ⟨1, 50⟩)])]

/-- A first disk with an empty extended partition at sector 100. -/
def extendedFirst : UInt32 → Bytes := diskOf [(0, bootSector [(5, ⟨100, 200⟩)])]

/-- An extended partition on the first disk hides the logical partition of the second, and the
partition is not formatted either way. -/
theorem second_disk_sees_first :
    ∃ s s', (ideInit 3 >>= fun _ => filesysInit)
        (Boot.start (logicalSecond (diskOf [])) (fun _ => true) Bytes.zero) = .ok ((), s) ∧
      (ideInit 3 >>= fun _ => filesysInit)
        (Boot.start (logicalSecond extendedFirst) (fun _ => true) Bytes.zero) = .ok ((), s') ∧
      ¬ SameTables s s' ∧ ¬ Formatted s := by
  obtain ⟨_, s, hrun, hs⟩ := Code.exists_of_toOption
    (m := ideInit 3 >>= fun _ => filesysInit)
    (s := Boot.start (logicalSecond (diskOf [])) (fun _ => true) Bytes.zero)
    (f := fun s => (s.logicParts .ide1 0, (s.sectors .ide1 12).word 0))
    (b := (⟨11, 50⟩, 0)) (by decide +kernel)
  obtain ⟨_, s', hrun', hs'⟩ := Code.exists_of_toOption
    (m := ideInit 3 >>= fun _ => filesysInit)
    (s := Boot.start (logicalSecond extendedFirst) (fun _ => true) Bytes.zero)
    (f := fun s => s.logicParts .ide1 0) (b := ⟨0, 0⟩) (by decide +kernel)
  obtain ⟨hpart, hword⟩ := Prod.mk.inj hs
  refine ⟨s, s', hrun, hrun', ?_, ?_⟩
  · intro h
    have heq := h.2 0 (by decide)
    rw [hpart, hs'] at heq
    exact absurd heq (by decide)
  · intro h
    have hmagic := h.2 0 (by decide) (by rw [hpart]; decide)
    rw [hpart, show (11 : UInt32) + 1 = 12 from rfl, hword] at hmagic
    exact absurd hmagic (by decide)

/-- A machine whose second disk has one primary partition with a super block. -/
def formattedSecond (first : UInt32 → Bytes) : Channel → UInt32 → Bytes
  | .ide0 => first
  | .ide1 => diskOf [(0, bootSector [(0x83, ⟨8, 50⟩)]), (9, Bytes.ofWord Format.superMagic)]

private theorem formattedSecond_runs (first : UInt32 → Bytes)
    (h : ((ideInit 3 (Boot.start (formattedSecond first) (fun _ => true) Bytes.zero)).toOption.map
      fun out => (decide (Formatted out.2), (filesysInit out.2).toOption.isSome)) =
        some (true, true)) :
    ∃ s₁ s₂, ideInit 3 (Boot.start (formattedSecond first) (fun _ => true) Bytes.zero) =
        .ok ((), s₁) ∧ filesysInit s₁ = .ok ((), s₂) ∧ Formatted s₁ := by
  obtain ⟨_, s₁, hrun, hs⟩ := Code.exists_of_toOption
    (f := fun s => (decide (Formatted s), (filesysInit s).toOption.isSome)) h
  obtain ⟨hformat, hsome⟩ := Prod.mk.inj hs
  obtain ⟨out, hout⟩ := Option.isSome_iff_exists.mp hsome
  obtain ⟨_, s₂, hrun₂, -⟩ := Code.exists_of_toOption (m := filesysInit) (s := s₁)
    (f := fun _ => ()) (b := ()) (by rw [hout]; rfl)
  exact ⟨s₁, s₂, hrun, hrun₂, of_decide_eq_true hformat⟩

/-- With a formatted second disk the same two first disks make no difference. -/
theorem second_disk_independent_formatted :
    ∃ s₁ s₂ s₁' s₂',
      ideInit 3 (Boot.start (formattedSecond (diskOf [])) (fun _ => true) Bytes.zero) =
        .ok ((), s₁) ∧ filesysInit s₁ = .ok ((), s₂) ∧
      ideInit 3 (Boot.start (formattedSecond extendedFirst) (fun _ => true) Bytes.zero) =
        .ok ((), s₁') ∧ filesysInit s₁' = .ok ((), s₂') ∧
      SameTables s₂ s₂' ∧ Formatted s₂ ∧ Formatted s₂' := by
  obtain ⟨s₁, s₂, h₁, h₂, hf⟩ := formattedSecond_runs (diskOf []) (by decide +kernel)
  obtain ⟨s₁', s₂', h₁', h₂', hf'⟩ := formattedSecond_runs extendedFirst
    (by decide +kernel)
  have hb : BaseUnseen (formattedSecond (diskOf [])) (formattedSecond extendedFirst) :=
    Or.inl (by decide +kernel)
  have hd : formattedSecond (diskOf []) .ide1 = formattedSecond extendedFirst .ide1 := rfl
  have hiff := (second_disk_independent hd h₁ h₂ h₁' h₂').1 hb
  exact ⟨s₁, s₂, s₁', s₂', h₁, h₂, h₁', h₂', hiff.mpr ⟨hf, hf'⟩⟩

end Aitos.Fs
