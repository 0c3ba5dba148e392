import Aitos.Fs.ScanRecords

/-!
# How deep the partition scan goes

`partition_scan` follows the extended entries of boot records wherever they lead.  It records few
partitions on the way, since the tables are small, so a link is followed a bounded number of times
with a partition recorded since the record it stands in was entered, a bare one as long as there are
bare ones.
-/

namespace Aitos.Fs

open Framework

/-- An entry that the scan comes to, with the partitions found and the records read until then. -/
structure ScanPoint where
  visit : Visit
  entry : Nat
  found : List FoundPart
  records : Nat

namespace ScanPoint

/-- The first entry of the boot sector. -/
def first (s : Boot) : ScanPoint := ⟨⟨s.extLbaBase, 0⟩, 0, [], 1⟩

/-- The state that the scan is in there. -/
def state (ch : Channel) (s : Boot) (c : ScanPoint) : Boot :=
  (s.recordAll ch c.found).progress
    (baseAt c.visit.base (s.sectors ch c.visit.sector) c.entry) (s.mallocs + c.records)

/-- The rest of the loop over that record. -/
def run (ch : Channel) (s : Boot) (n : Nat) (c : ScanPoint) : Except BootHalt (Unit × Boot) :=
  scanFrom n ch c.visit.sector (s.sectors ch c.visit.sector) c.entry (c.state ch s)

end ScanPoint

/-- A link leads to a record that is read. -/
inductive Enters (ch : Channel) (s : Boot) : ScanPoint → ScanPoint → Prop where
  | mk {v w : Visit} {i k : Nat} {fs : List FoundPart} : Link (s.sectors ch) v i w →
      w.sector ≤ maxLba → s.served (s.mallocs + k) = true →
      Enters ch s ⟨v, i, fs, k⟩ ⟨w, 0, fs, k + 1⟩

/-- The scan goes on behind an entry: there is room for its partition, and the eighth logical one is
not reached.  It goes on behind a link when the records there are a finite tree that fits. -/
inductive Moves (ch : Channel) (s : Boot) : ScanPoint → ScanPoint → Prop where
  | free {v : Visit} {i k : Nat} {fs : List FoundPart} : i < 4 →
      fsType (s.sectors ch v.sector) i = 0 → Moves ch s ⟨v, i, fs, k⟩ ⟨v, i + 1, fs, k⟩
  | prim {v : Visit} {i k : Nat} {fs : List FoundPart} : i < 4 →
      IsPartition (s.sectors ch v.sector) i → v.sector = 0 → s.pNo + prims fs + 1 < 4 →
      Moves ch s ⟨v, i, fs, k⟩ ⟨v, i + 1, fs ++ [.prim ⟨v.sector +
        entryStart (s.sectors ch v.sector) i, entryCount (s.sectors ch v.sector) i⟩], k⟩
  | logic {v : Visit} {i k : Nat} {fs : List FoundPart} : i < 4 →
      IsPartition (s.sectors ch v.sector) i → v.sector ≠ 0 → s.lNo + logics fs + 1 < 8 →
      Moves ch s ⟨v, i, fs, k⟩ ⟨v, i + 1, fs ++ [.logic ⟨v.sector +
        entryStart (s.sectors ch v.sector) i, entryCount (s.sectors ch v.sector) i⟩], k⟩
  | past {v : Visit} {i k : Nat} {fs : List FoundPart} {c : ScanPoint} {sub : Entries} :
      Enters ch s ⟨v, i, fs, k⟩ c →
      ScansTo (s.sectors ch) c.visit 0 (8 - (s.lNo + logics fs)) sub → Fits (c.state ch s) sub →
      Moves ch s ⟨v, i, fs, k⟩ ⟨v, i + 1, fs ++ sub.found, c.records + sub.sectors.length⟩

/-- From the first entry of a record to the one of a record that it is linked to. -/
def Leads (ch : Channel) (s : Boot) (c c' : ScanPoint) : Prop :=
  ∃ d, Relation.ReflTransGen (Moves ch s) c d ∧ Enters ch s d c'

/-- `n` records entered one from the other and no partition found in between. -/
inductive BareChain (ch : Channel) (s : Boot) : Nat → ScanPoint → Prop where
  | nil {c : ScanPoint} : BareChain ch s 0 c
  | cons {c c' : ScanPoint} {n : Nat} : Leads ch s c c' → c'.found = c.found →
      BareChain ch s n c' → BareChain ch s (n + 1) c

/-- What holds wherever the scan comes: only the boot sector is read without a base, and the tables
have room. -/
structure ScanPoint.Sound (s : Boot) (c : ScanPoint) : Prop where
  root : c.visit.base = 0 → c.visit.sector = 0
  prims : s.pNo + prims c.found ≤ 3
  logics : s.lNo + logics c.found ≤ 8

/-! ### Calls -/

/-- At most `c` calls of `sys_malloc`, which every scan begins with. -/
def Calls (c : Nat) {α : Type} (m : BootM α) : Prop :=
  Keeps (fun s t : Boot => t.mallocs ≤ s.mallocs + c) m

namespace Calls

variable {α β : Type}

theorem bind {m : BootM α} {f : α → BootM β} {c d : Nat} (h : Calls c m)
    (hf : ∀ a, Calls d (f a)) : Calls (c + d) (m >>= f) := by
  intro s b t hb
  obtain ⟨a, s₁, h₁, h₂⟩ := Code.bind_ok.mp hb
  have hfirst := h s a s₁ h₁
  have hrest := hf a s₁ b t h₂
  omega

theorem weaken {m : BootM α} {c d : Nat} (h : Calls c m) (hle : c ≤ d) : Calls d m :=
  Keeps.weaken h fun hs => hs.trans (Nat.add_le_add_left hle _)

theorem of_same {m : BootM α} (h : Keeps (fun s t : Boot => t.mallocs = s.mallocs) m) : Calls 0 m :=
  Keeps.weaken h fun hs => hs.le

end Calls

instance : IsPreorder Boot (fun s t : Boot => t.mallocs = s.mallocs) where
  refl _ := rfl
  trans _ _ _ h h' := h'.trans h

theorem entry_cases {i : Nat} (hi : i < 4) : i = 0 ∨ i = 1 ∨ i = 2 ∨ i = 3 := by
  omega

section Points

variable {ch : Channel} {s : Boot} {c c' d : ScanPoint} {n : Nat}

@[simp]
theorem state_pNo : (c.state ch s).pNo = s.pNo + prims c.found := recordAll_pNo s ch c.found

@[simp]
theorem state_lNo : (c.state ch s).lNo = s.lNo + logics c.found := recordAll_lNo s ch c.found

private theorem state_sectors : (c.state ch s).sectors ch = s.sectors ch :=
  congrFun (recordAll_sectors s ch c.found) ch

private theorem state_served : (c.state ch s).served = s.served := recordAll_served s ch c.found

private theorem length_eq (fs : List FoundPart) : fs.length = prims fs + logics fs := by
  induction fs with
  | nil => rfl
  | cons f fs ih => cases f with
    | prim p => rw [List.length_cons, prims_prim, logics_prim, ih]; omega
    | logic p => rw [List.length_cons, prims_logic, logics_logic, ih]; omega

theorem ScanPoint.Sound.length_le (h : c.Sound s) : c.found.length ≤ 11 := by
  have hprims := h.prims
  have hlogics := h.logics
  rw [length_eq]
  omega

theorem Enters.sound (h : Enters ch s c c') (hc : c.Sound s) : c'.Sound s := by
  obtain ⟨hlink, -, -⟩ := h
  exact ⟨hlink.sector_zero, hc.prims, hc.logics⟩

theorem Moves.sound (h : Moves ch s c d) (hc : c.Sound s) : d.Sound s := by
  cases h with
  | free _ _ => exact ⟨hc.root, hc.prims, hc.logics⟩
  | prim _ _ _ hroom =>
      refine ⟨hc.root, ?_, ?_⟩
      · rw [prims_append, prims_prim, prims_nil]
        omega
      · rw [logics_append, logics_prim, logics_nil]
        exact hc.logics
  | logic _ _ _ hroom =>
      refine ⟨hc.root, ?_, ?_⟩
      · rw [prims_append, prims_logic, prims_nil]
        exact hc.prims
      · rw [logics_append, logics_logic, logics_nil]
        omega
  | @past v i k fs c sub henters _ hfits =>
      obtain ⟨-, -, -⟩ := henters
      have hprims := hfits.prims
      have hlogics := hfits.logics
      rw [state_pNo] at hprims
      rw [state_lNo] at hlogics
      refine ⟨hc.root, ?_, ?_⟩
      · rw [prims_append, ← Nat.add_assoc]
        exact hprims
      · rw [logics_append, ← Nat.add_assoc]
        exact hlogics

theorem Moves.found (h : Moves ch s c d) : ∃ fs, d.found = c.found ++ fs := by
  cases h with
  | free _ _ => exact ⟨[], (List.append_nil _).symm⟩
  | prim _ _ _ _ => exact ⟨_, rfl⟩
  | logic _ _ _ _ => exact ⟨_, rfl⟩
  | past _ _ _ => exact ⟨_, rfl⟩

private theorem Moves.visit (h : Moves ch s c d) : d.visit = c.visit := by
  cases h <;> rfl

private theorem movesAlong_sound (h : Relation.ReflTransGen (Moves ch s) c d) (hc : c.Sound s) :
    d.Sound s := by
  induction h with
  | refl => exact hc
  | tail _ hmove ih => exact hmove.sound ih

private theorem movesAlong_found (h : Relation.ReflTransGen (Moves ch s) c d) :
    ∃ fs, d.found = c.found ++ fs := by
  induction h with
  | refl => exact ⟨[], (List.append_nil _).symm⟩
  | tail _ hmove ih =>
      obtain ⟨fs, hfs⟩ := ih
      obtain ⟨gs, hgs⟩ := hmove.found
      exact ⟨fs ++ gs, by rw [hgs, hfs, List.append_assoc]⟩

theorem Leads.sound (h : Leads ch s c c') (hc : c.Sound s) : c'.Sound s := by
  obtain ⟨d, hmoves, henters⟩ := h
  exact henters.sound (movesAlong_sound hmoves hc)

theorem Leads.found (h : Leads ch s c c') :
    c'.found = c.found ∨ c.found.length < c'.found.length := by
  obtain ⟨d, hmoves, ⟨-, -, -⟩⟩ := h
  obtain ⟨fs, hfs⟩ := movesAlong_found hmoves
  cases fs with
  | nil => exact .inl (hfs.trans (List.append_nil _))
  | cons f fs =>
      right
      rw [hfs, List.length_append, List.length_cons]
      omega

/-! ### The loop -/

private theorem run_link {w : Visit} (h : Link (s.sectors ch) c.visit c.entry w) :
    c.run ch s n = (partitionScan n ch w.sector >>= fun _ =>
      scanFrom n ch c.visit.sector (s.sectors ch c.visit.sector) (c.entry + 1))
        ((c.state ch s).progress w.base (c.state ch s).mallocs) :=
  scanFrom_ext h rfl

theorem Enters.run (h : Enters ch s c c') : c.run ch s (n + 1) = (c'.run ch s n).bind fun p =>
    scanFrom (n + 1) ch c.visit.sector (s.sectors ch c.visit.sector) (c.entry + 1) p.2 := by
  obtain @⟨v, w, i, k, fs, hlink, hlba, hserved⟩ := h
  have hmem : (ScanPoint.state ch s ⟨v, i, fs, k⟩).served
      (ScanPoint.state ch s ⟨v, i, fs, k⟩).mallocs = true := by
    rw [state_served]
    exact hserved
  rw [run_link hlink]
  change (partitionScan (n + 1) ch w.sector _).bind _ = _
  rw [partitionScan_link state_sectors, if_pos hmem, if_pos hlba]
  rfl

private theorem state_record {v : Visit} {i k : Nat} {fs : List FoundPart} (f : FoundPart)
    (h : fsType (s.sectors ch v.sector) i ≠ fsExtended) :
    ScanPoint.state ch s ⟨v, i + 1, fs ++ [f], k⟩ = (ScanPoint.state ch s ⟨v, i, fs, k⟩).record ch f := by
  have hbase := baseAt_succ_of_ne h v.base
  simp only [ScanPoint.state, recordAll_append, recordAll_cons, recordAll_nil, hbase]
  cases f <;> rfl

private theorem state_free {v : Visit} {i k : Nat} {fs : List FoundPart}
    (h : fsType (s.sectors ch v.sector) i = 0) :
    ScanPoint.state ch s ⟨v, i + 1, fs, k⟩ = ScanPoint.state ch s ⟨v, i, fs, k⟩ := by
  have hnot : fsType (s.sectors ch v.sector) i ≠ fsExtended := by
    rw [h]
    decide
  simp only [ScanPoint.state, baseAt_succ_of_ne hnot v.base]

private theorem state_past {v : Visit} {i k : Nat} {fs : List FoundPart} {sub : Entries}
    (hv : v.base = 0 → v.sector = 0) (h : Enters ch s ⟨v, i, fs, k⟩ c)
    (hsub : ScansTo (s.sectors ch) c.visit 0 n sub) :
    ScanPoint.state ch s ⟨v, i + 1, fs ++ sub.found, c.records + sub.sectors.length⟩ =
      (c.state ch s).after ch (baseAt c.visit.base (s.sectors ch c.visit.sector) 4) sub := by
  obtain ⟨hlink, -, -⟩ := h
  have hafter := hsub.base_after hlink hv
  rw [hafter, Boot.after, ScanPoint.state, ScanPoint.state, recordAll_progress, recordAll_append,
    hlink.base]
  exact congrArg _ (Nat.add_assoc _ _ _).symm

theorem Enters.scan {fs : List FoundPart} {v : Visit} {i k : Nat} {sub : Entries}
    (h : Enters ch s ⟨v, i, fs, k⟩ c) (hc : c.Sound s) (n : Nat)
    (hsub : ScansTo (s.sectors ch) c.visit 0 (8 - (s.lNo + logics fs)) sub)
    (hfits : Fits (c.state ch s) sub) :
    c.run ch s n = .ok ((), (c.state ch s).after ch
      (baseAt c.visit.base (s.sectors ch c.visit.sector) 4) sub) ∨
    c.run ch s n = .error .diverge := by
  obtain ⟨-, -, -⟩ := h
  exact (hsub.run hc.root n state_sectors rfl (by rw [state_lNo]) hfits).imp_right And.right

section Steps

variable {v w : Visit} {i k : Nat} {fs : List FoundPart}

private theorem run_free (hi : i < 4) (h : fsType (s.sectors ch v.sector) i = 0) :
    ScanPoint.run ch s n ⟨v, i, fs, k⟩ = ScanPoint.run ch s n ⟨v, i + 1, fs, k⟩ := by
  rw [ScanPoint.run, ScanPoint.run, state_free h]
  exact congrFun (scanFrom_free hi h) _

private theorem run_prim (hi : i < 4) (h : IsPartition (s.sectors ch v.sector) i)
    (hzero : v.sector = 0) : ScanPoint.run ch s n ⟨v, i, fs, k⟩ = if s.pNo + prims fs + 1 < 4 then
      ScanPoint.run ch s n ⟨v, i + 1, fs ++ [.prim ⟨v.sector +
        entryStart (s.sectors ch v.sector) i, entryCount (s.sectors ch v.sector) i⟩], k⟩
    else .error .assertion := by
  rw [ScanPoint.run, ScanPoint.run, state_record _ h.1, scanFrom_prim hi h hzero, state_pNo]

private theorem run_logic (hi : i < 4) (h : IsPartition (s.sectors ch v.sector) i)
    (hne : v.sector ≠ 0) (hroom : s.lNo + logics fs + 1 < 8) :
    ScanPoint.run ch s n ⟨v, i, fs, k⟩ = ScanPoint.run ch s n ⟨v, i + 1, fs ++ [.logic ⟨v.sector +
      entryStart (s.sectors ch v.sector) i, entryCount (s.sectors ch v.sector) i⟩], k⟩ := by
  rw [ScanPoint.run, ScanPoint.run, state_record _ h.1, scanFrom_logic hi h hne, state_lNo,
    if_pos (Nat.lt_of_succ_lt hroom), if_neg (Nat.ne_of_lt (Nat.lt_of_succ_lt_succ hroom))]

private theorem run_past {sub : Entries} {u : Unit} (hv : v.base = 0 → v.sector = 0)
    (h : Enters ch s ⟨v, i, fs, k⟩ c) {l : Nat} (hsub : ScansTo (s.sectors ch) c.visit 0 l sub)
    (hok : c.run ch s n = .ok (u, (c.state ch s).after ch
      (baseAt c.visit.base (s.sectors ch c.visit.sector) 4) sub)) :
    ScanPoint.run ch s (n + 1) ⟨v, i, fs, k⟩ = ScanPoint.run ch s (n + 1)
      ⟨v, i + 1, fs ++ sub.found, c.records + sub.sectors.length⟩ := by
  rw [h.run, hok, ScanPoint.run, state_past hv h hsub]
  rfl

end Steps

theorem Moves.run (h : Moves ch s c d) (hc : c.Sound s) (hn : c.run ch s n ≠ .error .diverge) :
    d.run ch s n = c.run ch s n := by
  cases h with
  | free hi hfree => exact (run_free hi hfree).symm
  | prim hi hpart hzero hroom => rw [run_prim hi hpart hzero, if_pos hroom]
  | logic hi hpart hne hroom => exact (run_logic hi hpart hne hroom).symm
  | @past v i k fs c sub henters hsub hfits =>
      cases n with
      | zero =>
          obtain ⟨hlink, -, -⟩ := henters
          rw [run_link hlink] at hn
          exact absurd rfl hn
      | succ n =>
          rcases henters.scan (henters.sound hc) n hsub hfits with hok | herr
          · exact (run_past hc.root henters hsub hok).symm
          · rw [henters.run, herr] at hn
            exact absurd rfl hn

private theorem Enters.run_ne (h : Enters ch s c c') (hn : c.run ch s n ≠ .error .diverge) :
    ∃ k, n = k + 1 ∧ c'.run ch s k ≠ .error .diverge := by
  cases n with
  | zero =>
      obtain ⟨hlink, -, -⟩ := h
      rw [run_link hlink] at hn
      exact absurd rfl hn
  | succ n =>
      refine ⟨n, rfl, ?_⟩
      intro herr
      rw [h.run, herr] at hn
      exact hn rfl

private theorem movesAlong_run (h : Relation.ReflTransGen (Moves ch s) c d) (hc : c.Sound s)
    (hn : c.run ch s n ≠ .error .diverge) : d.run ch s n = c.run ch s n := by
  induction h with
  | refl => rfl
  | tail hmoves hmove ih =>
      rw [← ih] at hn ⊢
      exact hmove.run (movesAlong_sound hmoves hc) hn

/-- Each link takes a level of calls. -/
private theorem Leads.run_ne (h : Leads ch s c c') (hc : c.Sound s)
    (hn : c.run ch s n ≠ .error .diverge) :
    ∃ k, n = k + 1 ∧ c'.run ch s k ≠ .error .diverge := by
  obtain ⟨d, hmoves, henters⟩ := h
  rw [← movesAlong_run hmoves hc hn] at hn
  exact henters.run_ne hn

theorem BareChain.le {k : Nat} (h : BareChain ch s k c) (hc : c.Sound s)
    (hn : c.run ch s n ≠ .error .diverge) : k ≤ n := by
  induction h generalizing n with
  | nil => exact Nat.zero_le n
  | cons hlead _ _ ih =>
      obtain ⟨k, rfl, hk⟩ := hlead.run_ne hc hn
      exact Nat.succ_le_succ (ih (hlead.sound hc) hk)

theorem Enters.scanned {fs : List FoundPart} {v : Visit} {i k : Nat} {u : Unit} {t : Boot}
    (h : Enters ch s ⟨v, i, fs, k⟩ c) (hc : c.Sound s) (hok : c.run ch s n = .ok (u, t)) :
    ∃ sub, ScansTo (s.sectors ch) c.visit 0 (8 - (s.lNo + logics fs)) sub ∧
      Fits (c.state ch s) sub ∧
      t = (c.state ch s).after ch (baseAt c.visit.base (s.sectors ch c.visit.sector) 4) sub := by
  obtain ⟨-, -, -⟩ := h
  have hscan := CallsScan.loop (callsScan (s.sectors ch) ch n) 4 rfl hc.root state_sectors rfl
    (by rw [state_pNo]; exact hc.prims) (by rw [state_lNo]; exact hc.logics) hok
  rw [state_lNo] at hscan
  exact hscan

end Points

end Aitos.Fs
