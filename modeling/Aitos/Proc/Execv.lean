import Aitos.Proc.SegmentLoad

/-!
# Ends of `load`

`load` has five ways to fail and one to complete, and tells its caller in a single integer.  The
ends are named here, with the reads that lead to each, and `sys_execv` is held against them.
-/

namespace Aitos.Proc.Exec

open Framework Proc.Fork Paging

/-- Where `load` ends; `complete` with the header of the file -/
inductive LoadEnd where
  | notOpened
  | shortHeader
  | badHeader
  | shortProgram
  | noSegment
  | complete (h : Bytes)

/-- The integer that `load` returns -/
def LoadEnd.value : LoadEnd → Int32
  | .notOpened => 1
  | .complete h => (eEntry h).toInt32
  | _ => -1

section Ends

variable (p : Pools) (cur : Nat) (typed : Nat → UInt8)

/-- The program header at `off` is read: `seek`, then `read`. -/
def HeaderRead (fd : Int) (size : UInt16) (off : UInt32) (s : State) (got : Option UInt32)
    (ph : Bytes) (s' : State) : Prop :=
  ∃ pos s₁, onFs (Fs.sysLseek fd off.toInt32 Fs.seekSet) s = .ok (pos, s₁) ∧
    readStack typed fd size.toUInt32 s₁ = .ok ((got, ph), s')

/-- The loop over the program headers runs through, or ends at one of them. -/
inductive ProgramsEnd (fd : Int) (size : UInt16) : Nat → UInt32 → State → Option LoadEnd →
    State → Prop
  | through (off : UInt32) (s : State) : ProgramsEnd fd size 0 off s none s
  | short {n : Nat} {off : UInt32} {s s' : State} {got : Option UInt32} {ph : Bytes}
      (hread : HeaderRead typed fd size off s got ph s') (hgot : got ≠ some size.toUInt32) :
      ProgramsEnd fd size (n + 1) off s (some .shortProgram) s'
  | noSegment {n : Nat} {off : UInt32} {s s₁ s' : State} {ph : Bytes}
      (hread : HeaderRead typed fd size off s (some size.toUInt32) ph s₁)
      (htype : ph.word 0 = ptLoad)
      (hload : segmentLoad p cur typed fd (ph.word 4) (ph.word 16) (ph.word 8) s₁ =
        .ok (false, s')) :
      ProgramsEnd fd size (n + 1) off s (some .noSegment) s'
  | segment {n : Nat} {off : UInt32} {s s₁ s₂ s' : State} {ph : Bytes} {e : Option LoadEnd}
      (hread : HeaderRead typed fd size off s (some size.toUInt32) ph s₁)
      (htype : ph.word 0 = ptLoad)
      (hload : segmentLoad p cur typed fd (ph.word 4) (ph.word 16) (ph.word 8) s₁ =
        .ok (true, s₂))
      (hrest : ProgramsEnd fd size n (off + size.toUInt32) s₂ e s') :
      ProgramsEnd fd size (n + 1) off s e s'
  | other {n : Nat} {off : UInt32} {s s₁ s' : State} {ph : Bytes} {e : Option LoadEnd}
      (hread : HeaderRead typed fd size off s (some size.toUInt32) ph s₁)
      (htype : ph.word 0 ≠ ptLoad)
      (hrest : ProgramsEnd fd size n (off + size.toUInt32) s₁ e s') :
      ProgramsEnd fd size (n + 1) off s e s'

/-- With the file open -/
inductive OpenEnd (fd : Int) (s : State) : LoadEnd → State → Prop
  | shortHeader {got : Option UInt32} {h : Bytes} {s' : State}
      (hread : readStack typed fd ehdrSize s = .ok ((got, h), s')) (hgot : got ≠ some ehdrSize) :
      OpenEnd fd s .shortHeader s'
  | badHeader {h : Bytes} {s' : State}
      (hread : readStack typed fd ehdrSize s = .ok ((some ehdrSize, h), s'))
      (hbad : ¬ ValidHeader h) : OpenEnd fd s .badHeader s'
  | programs {h : Bytes} {s₁ s' : State} {e : Option LoadEnd}
      (hread : readStack typed fd ehdrSize s = .ok ((some ehdrSize, h), s₁)) (hvalid : ValidHeader h)
      (hprog : ProgramsEnd p cur typed fd (ePhentsize h) (ePhnum h).toNat (ePhoff h) s₁ e s') :
      OpenEnd fd s (e.getD (.complete h)) s'

inductive LoadEnds (name : Fs.Path) (s : State) : LoadEnd → State → Prop
  | notOpened {s' : State} (hopen : onFs (Fs.sysOpen name 0) s = .ok (none, s')) :
      LoadEnds name s .notOpened s'
  | opened {fd : Nat} {s₁ s₂ s' : State} {e : LoadEnd} {closed : Bool}
      (hopen : onFs (Fs.sysOpen name 0) s = .ok (some fd, s₁))
      (hend : OpenEnd p cur typed fd s₁ e s₂)
      (hclose : onFs (Fs.sysClose fd) s₂ = .ok (closed, s')) : LoadEnds name s e s'

end Ends

section Load

variable {p : Pools} {cur : Nat} {typed : Nat → UInt8} {fd : Int} {s s' : State}

private theorem ProgramsEnd.failure {size : UInt16} {n : Nat} {off : UInt32} {e : LoadEnd}
    (h : ProgramsEnd p cur typed fd size n off s (some e) s') :
    e = .shortProgram ∨ e = .noSegment := by
  generalize he : some e = o at h
  induction h with
  | through => cases he
  | short =>
      cases he
      exact .inl rfl
  | noSegment =>
      cases he
      exact .inr rfl
  | segment _ _ _ _ ih => exact ih he
  | other _ _ _ ih => exact ih he

private theorem programs_ends {size : UInt16} (n : Nat) :
    ∀ {off : UInt32} {s : State} {done : Bool},
    programs p cur typed fd size n off s = .ok (done, s') →
      ∃ e, ProgramsEnd p cur typed fd size n off s e s' ∧ done = e.isNone := by
  induction n with
  | zero =>
      intro off s done h
      obtain ⟨rfl, rfl⟩ := Code.pure_ok.mp h
      exact ⟨none, .through off s', rfl⟩
  | succ n ih =>
      intro off s done h
      rw [programs] at h
      obtain ⟨pos, s₁, hseek, h⟩ := Code.bind_ok.mp h
      obtain ⟨⟨got, ph⟩, s₂, hread, h⟩ := Code.bind_ok.mp h
      have hheader : HeaderRead typed fd size off s got ph s₂ := ⟨pos, s₁, hseek, hread⟩
      dsimp only at h
      split at h
      · rename_i hgot
        obtain ⟨rfl, rfl⟩ := Code.pure_ok.mp h
        exact ⟨_, .short hheader hgot, rfl⟩
      rename_i hgot
      obtain rfl : got = some size.toUInt32 := not_not.mp hgot
      split at h
      · rename_i htype
        obtain ⟨loaded, s₃, hload, h⟩ := Code.bind_ok.mp h
        cases loaded with
        | false =>
            obtain ⟨rfl, rfl⟩ := Code.pure_ok.mp h
            exact ⟨_, .noSegment hheader htype hload, rfl⟩
        | true =>
            obtain ⟨e, hend, hdone⟩ := ih h
            exact ⟨e, .segment hheader htype hload hend, hdone⟩
      · rename_i htype
        obtain ⟨e, hend, hdone⟩ := ih h
        exact ⟨e, .other hheader htype hend, hdone⟩

private theorem programs_of_end {size : UInt16} {n : Nat} {off : UInt32} {e : Option LoadEnd}
    (h : ProgramsEnd p cur typed fd size n off s e s') :
    programs p cur typed fd size n off s = .ok (e.isNone, s') := by
  induction h with
  | through => rfl
  | short hread hgot =>
      obtain ⟨pos, s₁, hseek, hread⟩ := hread
      rw [programs, Code.bind_of_ok hseek, Code.bind_of_ok hread]
      dsimp only
      rw [if_pos hgot]
      rfl
  | noSegment hread htype hload =>
      obtain ⟨pos, s₁, hseek, hread⟩ := hread
      rw [programs, Code.bind_of_ok hseek, Code.bind_of_ok hread]
      dsimp only
      rw [if_neg (not_not.mpr rfl), if_pos htype, Code.bind_of_ok hload]
      rfl
  | segment hread htype hload _ ih =>
      obtain ⟨pos, s₁, hseek, hread⟩ := hread
      rw [programs, Code.bind_of_ok hseek, Code.bind_of_ok hread]
      dsimp only
      rw [if_neg (not_not.mpr rfl), if_pos htype, Code.bind_of_ok hload]
      exact ih
  | other hread htype _ ih =>
      obtain ⟨pos, s₁, hseek, hread⟩ := hread
      rw [programs, Code.bind_of_ok hseek, Code.bind_of_ok hread]
      dsimp only
      rw [if_neg (not_not.mpr rfl), if_neg htype]
      exact ih

private theorem loadOpen_ends {r : Int32} (h : loadOpen p cur typed fd s = .ok (r, s')) :
    ∃ e, OpenEnd p cur typed fd s e s' ∧ r = e.value := by
  rw [loadOpen] at h
  obtain ⟨⟨got, hdr⟩, s₁, hread, h⟩ := Code.bind_ok.mp h
  dsimp only at h
  split at h
  · rename_i hgot
    obtain ⟨rfl, rfl⟩ := Code.pure_ok.mp h
    exact ⟨_, .shortHeader hread hgot, rfl⟩
  rename_i hgot
  obtain rfl : got = some ehdrSize := not_not.mp hgot
  split at h
  · rename_i hbad
    obtain ⟨rfl, rfl⟩ := Code.pure_ok.mp h
    exact ⟨_, .badHeader hread hbad, rfl⟩
  rename_i hvalid
  obtain ⟨done, s₂, hprog, h⟩ := Code.bind_ok.mp h
  obtain ⟨e, hend, rfl⟩ := programs_ends _ hprog
  refine ⟨_, .programs hread (not_not.mp hvalid) (?_ : ProgramsEnd _ _ _ _ _ _ _ _ e s'), ?_⟩
  · cases e with
    | none =>
        obtain ⟨-, rfl⟩ := Code.pure_ok.mp h
        exact hend
    | some e =>
        obtain ⟨-, rfl⟩ := Code.pure_ok.mp h
        exact hend
  · cases e with
    | none => exact (Code.pure_ok.mp h).1
    | some e =>
        rw [(Code.pure_ok.mp h).1]
        rcases hend.failure with rfl | rfl <;> rfl

private theorem loadOpen_of_end {e : LoadEnd} (h : OpenEnd p cur typed fd s e s') :
    loadOpen p cur typed fd s = .ok (e.value, s') := by
  cases h with
  | shortHeader hread hgot =>
      rw [loadOpen, Code.bind_of_ok hread]
      dsimp only
      rw [if_pos hgot]
      rfl
  | badHeader hread hbad =>
      rw [loadOpen, Code.bind_of_ok hread]
      dsimp only
      rw [if_neg (not_not.mpr rfl), if_pos hbad]
      rfl
  | @programs hdr s₁ _ e hread hvalid hprog =>
      rw [loadOpen, Code.bind_of_ok hread]
      dsimp only
      rw [if_neg (not_not.mpr rfl), if_neg (not_not.mpr hvalid),
        Code.bind_of_ok (programs_of_end hprog)]
      cases e with
      | none => rfl
      | some e => rcases hprog.failure with rfl | rfl <;> rfl

/-- The ends are all the ways in which `load` returns, and it returns the value of the end. -/
private theorem load_ok_iff {name : Fs.Path} {r : Int32} :
    load p cur typed name s = .ok (r, s') ↔
      ∃ e, LoadEnds p cur typed name s e s' ∧ r = e.value := by
  constructor
  · intro h
    rw [load] at h
    obtain ⟨o, s₁, hopen, h⟩ := Code.bind_ok.mp h
    cases o with
    | none =>
        obtain ⟨rfl, rfl⟩ := Code.pure_ok.mp h
        exact ⟨_, .notOpened hopen, rfl⟩
    | some fd =>
        obtain ⟨ret, s₂, hrun, h⟩ := Code.bind_ok.mp h
        obtain ⟨closed, s₃, hclose, h⟩ := Code.bind_ok.mp h
        obtain ⟨rfl, rfl⟩ := Code.pure_ok.mp h
        obtain ⟨e, hend, rfl⟩ := loadOpen_ends hrun
        exact ⟨e, .opened hopen hend hclose, rfl⟩
  · rintro ⟨e, h, rfl⟩
    cases h with
    | notOpened hopen =>
        rw [load, Code.bind_of_ok hopen]
        rfl
    | opened hopen hend hclose =>
        rw [load, Code.bind_of_ok hopen]
        dsimp only
        rw [Code.bind_of_ok (loadOpen_of_end hend), Code.bind_of_ok hclose]
        rfl

private theorem LoadEnds.valid {name : Fs.Path} {h : Bytes}
    (hl : LoadEnds p cur typed name s (.complete h) s') : ValidHeader h := by
  generalize he : LoadEnd.complete h = e at hl
  cases hl with
  | notOpened => cases he
  | opened hopen hend hclose =>
      cases hend with
      | shortHeader => cases he
      | badHeader => cases he
      | @programs hdr s₁ _ e hread hvalid hprog =>
          cases e with
          | none =>
              cases he
              exact hvalid
          | some e => rcases hprog.failure with rfl | rfl <;> cases he

end Load

section Frame

variable {p : Pools} {cur : Nat} {typed : Nat → UInt8}

/-- The name of the process and its interrupt stack are left alone. -/
structure SameProcess (s s' : State) : Prop where
  name : s'.name = s.name
  frame : s'.frame = s.frame

instance : IsPreorder State SameProcess where
  refl _ := ⟨rfl, rfl⟩
  trans _ _ _ h h' := ⟨h'.name.trans h.name, h'.frame.trans h.frame⟩

private theorem sameProcess_onFs {α : Type} (c : Fs.FsM α) : Keeps SameProcess (onFs c) := by
  intro s x s' h
  obtain ⟨t, -, rfl⟩ := onFs_ok h
  exact ⟨rfl, rfl⟩

private theorem sameProcess_onMem {α : Type} (c : PgM α) : Keeps SameProcess (onMem c) := by
  intro s x s' h
  obtain ⟨m, -, rfl⟩ := onMem_ok h
  exact ⟨rfl, rfl⟩

private theorem sameProcess_allocPages (vaddr : UInt32) (n : Nat) :
    ∀ x, Keeps SameProcess (allocPages p cur vaddr n x) := by
  induction n with
  | zero => exact fun _ => Keeps.pure
  | succ n ih =>
      intro x
      rw [allocPages]
      refine (sameProcess_onMem _).bind fun absent => Keeps.ite ?_ (ih _)
      exact (sameProcess_onMem _).bind fun page => Keeps.ite Keeps.pure (ih _)

private theorem sameProcess_readStack (fd : Int) (count : UInt32) :
    Keeps SameProcess (readStack typed fd count) :=
  (sameProcess_onFs _).bind fun _ => Keeps.pure

private theorem sameProcess_segmentLoad (fd : Int) (offset filesz vaddr : UInt32) :
    Keeps SameProcess (segmentLoad p cur typed fd offset filesz vaddr) := by
  rw [segmentLoad]
  refine (sameProcess_allocPages vaddr _ _).bind fun done => Keeps.ite ?_ Keeps.pure
  refine (sameProcess_onFs _).bind fun _ => Keeps.bind ?_ fun _ => Keeps.pure
  rw [readUser]
  exact (sameProcess_onFs _).bind fun _ => (sameProcess_onMem _).bind fun _ => Keeps.pure

private theorem sameProcess_programs (fd : Int) (size : UInt16) (n : Nat) :
    ∀ off, Keeps SameProcess (programs p cur typed fd size n off) := by
  induction n with
  | zero => exact fun _ => Keeps.pure
  | succ n ih =>
      intro off
      rw [programs]
      refine (sameProcess_onFs _).bind fun _ => (sameProcess_readStack fd _).bind fun got => ?_
      refine Keeps.ite Keeps.pure (Keeps.ite ?_ (ih _))
      exact (sameProcess_segmentLoad fd _ _ _).bind fun _ => Keeps.ite (ih _) Keeps.pure

private theorem sameProcess_load (name : Fs.Path) : Keeps SameProcess (load p cur typed name) := by
  rw [load]
  refine (sameProcess_onFs _).bind fun o => ?_
  cases o with
  | none => exact Keeps.pure
  | some fd =>
      refine Keeps.bind ?_ fun _ => (sameProcess_onFs _).bind fun _ => Keeps.pure
      rw [loadOpen]
      refine (sameProcess_readStack _ _).bind fun got => ?_
      refine Keeps.ite Keeps.pure (Keeps.ite Keeps.pure ?_)
      exact (sameProcess_programs _ _ _ _).bind fun _ => Keeps.ite Keeps.pure Keeps.pure

end Frame

section Execv

variable (p : Pools) (cur : Nat) (typed : Nat → UInt8)

/-- What `sys_execv` owes its caller at an end of `load`: where `load` has not completed it returns
`-1` to the process as it was, and otherwise the process goes on at the entry of a good header. -/
def ExecvMeets (fuel : Nat) (path argv : UInt32) (s : State) : LoadEnd → Prop
  | .complete h => ValidHeader h ∧ ∃ s', sysExecv p cur typed fuel path argv s = .ok (.intrExit, s') ∧
      s'.frame.eip = eEntry h
  | _ => ∃ s', sysExecv p cur typed fuel path argv s = .ok (.returned (-1), s') ∧ SameProcess s s'

/-- `memcpy` can take the bytes of the name. -/
def NameInReach (path : UInt32) (m : Machine) : Prop :=
  ∃ bs m', loadBytes path.toNat taskNameLen m = .ok (bs, m')

variable {p cur typed} {fuel : Nat} {path argv argc : UInt32} {file : Fs.Path} {s s' : State}

private theorem sysExecv_eq {ret : Int32} (hargs : countArgs argv fuel 0 s = .ok (argc, s))
    (hfile : cString fuel path s = .ok (file, s)) (hload : load p cur typed file s = .ok (ret, s')) :
    sysExecv p cur typed fuel path argv s =
      (if ret = -1 then return .returned (-1)
      else do
        let name ← onMem (loadBytes path.toNat taskNameLen)
        modify fun s => { s with
          name := name.set (taskNameLen - 1) 0
          frame := { ebx := argv, ecx := argc, eip := ret.toUInt32, esp := 0xc0000000 } }
        return .intrExit : ExecM ExecEnd) s' := by
  rw [sysExecv, Code.bind_of_ok hargs, Code.bind_of_ok hfile, Code.bind_of_ok hload]

private theorem sysExecv_fails (hargs : countArgs argv fuel 0 s = .ok (argc, s))
    (hfile : cString fuel path s = .ok (file, s))
    (hload : load p cur typed file s = .ok (-1, s')) :
    sysExecv p cur typed fuel path argv s = .ok (.returned (-1), s') := by
  rw [sysExecv_eq hargs hfile hload, if_pos rfl]
  rfl

private theorem sysExecv_enters {ret : Int32} (hargs : countArgs argv fuel 0 s = .ok (argc, s))
    (hfile : cString fuel path s = .ok (file, s))
    (hload : load p cur typed file s = .ok (ret, s')) (hret : ret ≠ -1) {out : ExecEnd} {t : State}
    (h : sysExecv p cur typed fuel path argv s = .ok (out, t)) :
    NameInReach path s'.mem ∧ out = .intrExit ∧ t.frame.eip = ret.toUInt32 := by
  rw [sysExecv_eq hargs hfile hload, if_neg hret] at h
  obtain ⟨name, s₁, hname, h⟩ := Code.bind_ok.mp h
  obtain ⟨m, hbytes, rfl⟩ := onMem_ok hname
  rw [Code.modify_bind] at h
  obtain ⟨rfl, rfl⟩ := Code.pure_ok.mp h
  exact ⟨⟨name, m, hbytes⟩, rfl, rfl⟩

private theorem sysExecv_returns {ret : Int32} (hargs : countArgs argv fuel 0 s = .ok (argc, s))
    (hfile : cString fuel path s = .ok (file, s))
    (hload : load p cur typed file s = .ok (ret, s')) (hret : ret ≠ -1)
    (hname : NameInReach path s'.mem) :
    ∃ out t, sysExecv p cur typed fuel path argv s = .ok (out, t) := by
  obtain ⟨name, m, hbytes⟩ := hname
  rw [sysExecv_eq hargs hfile hload, if_neg hret, Code.bind_of_ok (onMem_of_ok hbytes),
    Code.modify_bind]
  exact ⟨_, _, rfl⟩

/-- `sys_execv` takes the end of `load` for what it is, except that a file which cannot be opened
looks like an entry address and the entry address `0xffffffff` like a failure. -/
theorem sys_execv_iff (p : Pools) (cur : Nat) (typed : Nat → UInt8) (fuel : Nat)
    (path argv argc : UInt32) (file : Fs.Path) (s s' : State) (e : LoadEnd)
    (hargs : countArgs argv fuel 0 s = .ok (argc, s))
    (hfile : cString fuel path s = .ok (file, s)) (hend : LoadEnds p cur typed file s e s') :
    ExecvMeets p cur typed fuel path argv s e ↔
      e ≠ .notOpened ∧
        ∀ h, e = .complete h → eEntry h ≠ 0xffffffff ∧ NameInReach path s'.mem := by
  have hload : load p cur typed file s = .ok (e.value, s') := load_ok_iff.mpr ⟨e, hend, rfl⟩
  have hsame := sameProcess_load _ _ _ _ hload
  have hfail : e.value = -1 →
      ∃ t, sysExecv p cur typed fuel path argv s = .ok (.returned (-1), t) ∧ SameProcess s t :=
    fun hval => ⟨s', sysExecv_fails hargs hfile (hval ▸ hload), hsame⟩
  cases e with
  | notOpened =>
      refine iff_of_false ?_ fun h => h.1 rfl
      rintro ⟨t, hrun, -⟩
      cases (sysExecv_enters hargs hfile hload (by decide) hrun).2.1
  | shortHeader => exact iff_of_true (hfail rfl) ⟨by simp, by simp⟩
  | badHeader => exact iff_of_true (hfail rfl) ⟨by simp, by simp⟩
  | shortProgram => exact iff_of_true (hfail rfl) ⟨by simp, by simp⟩
  | noSegment => exact iff_of_true (hfail rfl) ⟨by simp, by simp⟩
  | complete h =>
      have hval : (LoadEnd.complete h).value = -1 ↔ eEntry h = 0xffffffff :=
        ⟨fun hminus => congrArg Int32.toUInt32 hminus, fun he => congrArg UInt32.toInt32 he⟩
      constructor
      · rintro ⟨-, t, hrun, -⟩
        refine ⟨by simp, ?_⟩
        rintro _ ⟨⟩
        have hret : (LoadEnd.complete h).value ≠ -1 := by
          intro hminus
          rw [sysExecv_fails hargs hfile (hminus ▸ hload)] at hrun
          cases hrun
        exact ⟨fun he => hret (hval.mpr he), (sysExecv_enters hargs hfile hload hret hrun).1⟩
      · rintro ⟨-, hcond⟩
        obtain ⟨hentry, hname⟩ := hcond h rfl
        have hret : (LoadEnd.complete h).value ≠ -1 := fun hminus => hentry (hval.mp hminus)
        obtain ⟨out, t, hrun⟩ := sysExecv_returns hargs hfile hload hret hname
        obtain ⟨-, rfl, heip⟩ := sysExecv_enters hargs hfile hload hret hrun
        exact ⟨hend.valid, t, hrun, heip⟩

/-- A process with one page, which begins with the path `/f`; the next word ends its `argv`. -/
def pathMachine : Machine :=
  { userMachine with
    ram := fun f w =>
      if f = 0x101 ∧ w = 0x49 then 0x208 * 4096 + 7
      else if f = 0x100 ∧ w = 0x20 then 0x101 * 4096 + 7
      else if f = 0x208 ∧ w = 0 then 0x662f
      else userMachine.ram f w }

def pathState (fs : Fs.State) : State := { execState fs with mem := pathMachine }

private theorem onMem_same {α : Type} {c : PgM α} (h : Keeps Eq c) : Keeps Eq (onMem c) := by
  intro s x s' hc
  obtain ⟨m, hm, rfl⟩ := onMem_ok hc
  rw [← h _ _ _ hm]

private theorem load_same (a : Nat) : Keeps Eq (Proc.Fork.load a) := by
  refine Keeps.bind ?_ fun f => Keeps.get.bind fun _ => Keeps.pure
  refine Keeps.get.bind fun m => Keeps.get.bind fun m' => ?_
  cases m.walkFrom m'.cr3 (a / 4096) with
  | none => exact Keeps.throw
  | some f => exact Keeps.pure

private theorem countArgs_same (argv : UInt32) (n : Nat) :
    ∀ argc, Keeps Eq (countArgs argv n argc) := by
  induction n with
  | zero => exact fun _ => Keeps.throw
  | succ n ih =>
      intro argc
      rw [countArgs]
      exact (onMem_same (load_same _)).bind fun w => Keeps.ite (ih _) Keeps.pure

private theorem cString_same (n : Nat) : ∀ a, Keeps Eq (cString n a) := by
  induction n with
  | zero => exact fun _ => Keeps.throw
  | succ n ih =>
      intro a
      rw [cString]
      refine (onMem_same ((load_same _).bind fun _ => Keeps.pure)).bind fun b => ?_
      exact Keeps.ite Keeps.pure ((ih _).bind fun _ => Keeps.pure)

private theorem reads_of_toOption {α : Type} {c : ExecM α} (hc : Keeps Eq c) {x : α}
    (h : (c s).toOption.map (fun out => out.1) = some x) : c s = .ok (x, s) := by
  obtain ⟨t, ht⟩ := Code.returns_of_toOption h
  rw [ht, ← hc _ _ _ ht]

/-- An empty file is no program. -/
theorem sys_execv_empty : ∃ fs, ExecvMeets Paging.smallPools 0 (fun _ => 0) 8 0x8049000 0x8049004
    (pathState fs) .shortHeader := by
  have hplay : ∃ fs ∈ Fs.smallSystem.bind (Fs.State.play · [Fs.createF]),
      (countArgs 0x8049004 8 0 (pathState fs)).toOption.map (fun out => out.1) = some 0 ∧
      (cString 8 0x8049000 (pathState fs)).toOption.map (fun out => out.1) = some (Fs.path "/f") ∧
      ∃ o ∈ (onFs (Fs.sysOpen (Fs.path "/f") 0) (pathState fs)).toOption, ∃ fd ∈ o.1,
        ∃ r ∈ (readStack (fun _ => 0) fd ehdrSize o.2).toOption, r.1.1 ≠ some ehdrSize ∧
          ((onFs (Fs.sysClose fd) r.2).toOption.map fun out => out.1) = some true := by
    decide +kernel
  obtain ⟨fs, -, hargs, hfile, ⟨o, s₁⟩, hopen, fd, hfd, ⟨⟨got, h⟩, s₂⟩, hread, hgot, hclose⟩ := hplay
  obtain ⟨s', hclose⟩ := Code.returns_of_toOption hclose
  obtain rfl : o = some fd := hfd
  refine ⟨fs, (sys_execv_iff _ _ _ _ _ _ _ _ _ s' .shortHeader
    (reads_of_toOption (countArgs_same _ _ _) hargs) (reads_of_toOption (cString_same _ _) hfile)
    ?_).mpr ⟨by simp, by simp⟩⟩
  exact .opened (Code.ok_of_toOption hopen) (.shortHeader (Code.ok_of_toOption hread) hgot) hclose

/-- Without the file, the process goes on at address 1. -/
theorem sys_execv_missing : ¬ ∀ (p : Pools) (cur : Nat) (typed : Nat → UInt8) (fuel : Nat)
    (path argv argc : UInt32) (file : Fs.Path) (s s' : State) (e : LoadEnd),
    countArgs argv fuel 0 s = .ok (argc, s) → cString fuel path s = .ok (file, s) →
    LoadEnds p cur typed file s e s' → ExecvMeets p cur typed fuel path argv s e := by
  intro hall
  have hplay : ∃ fs ∈ Fs.smallSystem,
      (countArgs 0x8049004 8 0 (pathState fs)).toOption.map (fun out => out.1) = some 0 ∧
      (cString 8 0x8049000 (pathState fs)).toOption.map (fun out => out.1) = some (Fs.path "/f") ∧
      (onFs (Fs.sysOpen (Fs.path "/f") 0) (pathState fs)).toOption.map (fun out => out.1) =
        some none ∧
      (sysExecv Paging.smallPools 0 (fun _ => 0) 8 0x8049000 0x8049004 (pathState fs)).toOption.map
        (fun out => (out.1, out.2.frame.eip)) = some (.intrExit, 1) := by
    decide +kernel
  obtain ⟨fs, -, hargs, hfile, hopen, hrun⟩ := hplay
  obtain ⟨s', hopen⟩ := Code.returns_of_toOption hopen
  obtain ⟨⟨out, t⟩, hout, hval⟩ := Option.map_eq_some_iff.mp hrun
  have hcalls := Code.ok_of_toOption hout
  obtain ⟨t', hreturned, -⟩ := hall Paging.smallPools 0 (fun _ => 0) 8 0x8049000 0x8049004 0 (Fs.path "/f")
    (pathState fs) s' .notOpened (reads_of_toOption (countArgs_same _ _ _) hargs)
    (reads_of_toOption (cString_same _ _) hfile) (.notOpened hopen)
  rw [hcalls] at hreturned
  cases hreturned
  cases hval

end Execv

end Aitos.Proc.Exec
