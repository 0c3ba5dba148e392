import Aitos.Fs.Descriptors

/-!
# One writer for each inode

`write_deny` is set by `file_open` only, and a refused open keeps its slot.  So an inode has at
most one writing slot as long as nobody opens a file for writing that already has one.
-/

namespace Aitos.Fs

open Framework

section Writers

variable {s s' : State}

/-- Slot `i` is open for writing on the inode `p`. -/
def State.WritesTo (s : State) (i : Nat) (p : Ptr) : Prop :=
  i < maxFileOpen ∧ (s.fileTable i).fdInode = some p ∧ writing (s.fileTable i).fdFlag = true

def State.SingleWriter (s : State) : Prop := ∀ p i j, s.WritesTo i p → s.WritesTo j p → i = j

/-- The pointers in the tables were given out, and each inode has one writer. -/
structure WriterInv (s : State) : Prop where
  single : s.SingleWriter
  slots : ∀ i p, (s.fileTable i).fdInode = some p → p < s.nextInode
  listed : ∀ p ∈ s.openInode, p < s.nextInode

private theorem WriterInv.givenOut (hs : WriterInv s) : GivenOut s := ⟨hs.slots, hs.listed⟩

private theorem WriterInv.mk' (hsingle : s.SingleWriter) (hs : GivenOut s) : WriterInv s :=
  ⟨hsingle, hs.slots, hs.listed⟩

theorem WriterInv.quiet (h : Quiet s s') (hs : WriterInv s) : WriterInv s' := by
  refine .mk' ?_ (hs.givenOut.quiet h)
  intro p i j
  rw [State.WritesTo, State.WritesTo, h.fileTable]
  exact hs.single p i j

theorem WriterInv.filled {i : Nat} {f : File} (h : Filled s s' i f) (hs : WriterInv s)
    (hfree : ∀ p j, f.fdInode = some p → writing f.fdFlag = true → ¬ s.WritesTo j p) :
    WriterInv s' := by
  refine .mk' ?_ (hs.givenOut.filled h)
  -- a writer of `s'` is slot `i` with the new inode or a writer of `s`
  have hcases : ∀ {j p}, s'.WritesTo j p →
      j = i ∧ f.fdInode = some p ∧ writing f.fdFlag = true ∨ s.WritesTo j p := by
    intro j p hj
    rw [State.WritesTo, h.fileTable] at hj
    by_cases hji : j = i
    · subst j
      rw [Function.update_self] at hj
      exact .inl ⟨rfl, hj.2⟩
    · rw [Function.update_of_ne hji] at hj
      exact .inr hj
  intro p j k hj hk
  rcases hcases hj with ⟨rfl, hp, hw⟩ | hj
  · rcases hcases hk with ⟨rfl, -⟩ | hk
    · rfl
    · exact absurd hk (hfree p k hp hw)
  · rcases hcases hk with ⟨rfl, hp, hw⟩ | hk
    · exact absurd hj (hfree p j hp hw)
    · exact hs.single p j k hj hk

private theorem WriterInv.not_writesTo_new (hs : WriterInv s) {p : Ptr} (hp : s.nextInode ≤ p)
    (j : Nat) : ¬ s.WritesTo j p :=
  fun hj => Nat.not_lt.mpr hp (hs.slots j p hj.2.1)

private theorem WriterInv.creates {flag : UInt32} (h : Creates flag s s') (hs : WriterInv s) :
    WriterInv s' := by
  rcases h with h | ⟨i, p, f, hp, hf, h⟩
  · exact hs.quiet h
  · refine hs.filled h.toFilled fun q j hq _ => ?_
    rcases hf with hf | rfl
    · rw [hf] at hq
      cases hq
    · cases hq
      exact hs.not_writesTo_new hp j

/-- A file that is open for writing is about to be opened for writing. -/
def State.WriteConflict (s : State) (pathname : Path) (flags : UInt32) : Prop :=
  writing flags = true ∧ flags &&& oCreat = 0 ∧
    (∃ i, 3 ≤ i ∧ i < maxFileOpen ∧ (s.fileTable i).fdInode = none) ∧
    ∃ s₁ no, Names pathname s s₁ no ∧ ∃ i p, s.WritesTo i p ∧ (s.inode p).iNo = no

theorem WriterInv.opens {pathname : Path} {flags : UInt32} (hs : WriterInv s)
    (hok : ¬ s.WriteConflict pathname flags) (h : Opens pathname flags s s') : WriterInv s' := by
  rcases h with h | ⟨s₁, no, hcreat, hnames, h⟩
  · exact hs.creates h
  obtain ⟨r, d, hr, -⟩ := id hnames
  have hq := quiet_searchFile _ _ _ _ hr
  have hs₁ := hs.quiet hq
  rcases h with h | ⟨i, p, hp, h⟩
  · exact hs₁.quiet h
  refine hs₁.filled h.toFilled fun q j hq' hw => ?_
  cases hq'
  rcases hp with hp | ⟨-, hno⟩
  · exact hs₁.not_writesTo_new hp j
  · intro hj
    have hj' : s.WritesTo j p := by
      rw [State.WritesTo, ← hq.fileTable]
      exact hj
    have hno' : (s.inode p).iNo = no := (hq.iNo p (hs.slots j p hj'.2.1)).symm.trans hno
    have hfree : (s.fileTable i).fdInode = none := hq.fileTable ▸ h.free
    exact hok ⟨hw, hcreat, ⟨i, h.range.1, h.range.2, hfree⟩, s₁, no, hnames, j, p, hj', hno'⟩

theorem WriterInv.closed {fd i : Nat} (h : Closed fd i s s') (hs : WriterInv s) : WriterInv s' := by
  refine .mk' (fun p j k hj hk => ?_) (hs.givenOut.closed h)
  have hj' := h.slot hj.2.1
  have hk' := h.slot hk.2.1
  rw [State.WritesTo, hj'] at hj
  rw [State.WritesTo, hk'] at hk
  exact hs.single p j k hj hk

theorem WriterInv.mounted (h : AnyMounted s) : WriterInv s := by
  refine .mk' ?_ (.mounted h)
  obtain ⟨part, disk, s₀, procs, hq, rfl⟩ := h.quiet
  intro p i j hi
  have hslot : (s₀.fileTable i).fdInode = some p := hi.2.1
  rw [hq.fileTable] at hslot
  cases hslot

end Writers

/-- `sys_open` and `sys_close` -/
def openCloseCall : Call → Prop
  | .sysOpen _ _ | .sysClose _ => True
  | _ => False

/-- No file that is open for writing is opened for writing again. -/
def noWriteConflict (s : State) (e : Event) : Prop :=
  ∀ pathname flags, e.call = .sysOpen pathname flags →
    ¬ (s.switchTo e.pid).WriteConflict pathname flags

theorem single_writer {s : State}
    (h : ((calls AnyMounted openCloseCall).restrict noWriteConflict).Reachable s) :
    s.SingleWriter := by
  suffices hinv : WriterInv s from hinv.single
  apply h.invariant
  · intro s hs
    exact WriterInv.mounted (s := s) hs
  intro s e s' hs hstep
  obtain ⟨hconflict, hallowed, -, -, hrun⟩ := hstep
  have hs' : WriterInv (s.switchTo e.pid) := ⟨hs.single, hs.slots, hs.listed⟩
  cases hcall : e.call with
  | sysOpen pathname flags =>
      rw [hcall] at hrun
      obtain ⟨fd, hopen, -⟩ := Code.map_ok.mp hrun
      exact hs'.opens (hconflict pathname flags hcall) (sysOpen_effect _ _ _ _ _ hopen)
  | sysClose fd =>
      rw [hcall] at hrun
      obtain ⟨ok, hclose, -⟩ := Code.map_ok.mp hrun
      rcases sysClose_effect hclose with rfl | ⟨i, hclosed⟩
      · exact hs'
      · exact hs'.closed hclosed
  | _ =>
      rw [hcall] at hallowed
      cases hallowed

/-- A created file has its creator as the only writer. -/
theorem single_writer_created :
    ∃ s, ((calls AnyMounted openCloseCall).restrict noWriteConflict).Reachable s ∧
      s.WritesTo 3 2 ∧ s.SingleWriter := by
  have hplay : ∃ s₀ ∈ smallSystem, ∃ s ∈ s₀.playOne createF.1 createF.2,
      (s.fileTable 3).fdInode = some 2 ∧ writing (s.fileTable 3).fdFlag = true := by
    decide +kernel
  obtain ⟨s₀, hs₀, s, hs, hslot, hflag⟩ := hplay
  have hallowed : openCloseCall createF.2 := trivial
  obtain ⟨r, hstep⟩ := playOne_step AnyMounted hallowed hs
  have hreach : ((calls AnyMounted openCloseCall).restrict noWriteConflict).Reachable s := by
    refine .step (.init ⟨_, _, smallSystem_mounted hs₀⟩) ⟨?_, hstep⟩
    intro pathname flags hcall
    cases hcall
    rintro ⟨-, hcreat, -⟩
    exact absurd hcreat (by decide)
  exact ⟨s, hreach, ⟨by decide, hslot, hflag⟩, single_writer hreach⟩

/-- `file_create` does not set `write_deny`: the creator and a later open both write. -/
theorem created_file_has_two_writers :
    ∃ s, (calls AnyMounted openCloseCall).Reachable s ∧ ¬ s.SingleWriter := by
  apply smallSystem_reachable (fun s hs => ⟨_, _, hs⟩) [createF, (0, .sysOpen (path "/f") oRdwr)]
  · simp [createF, openCloseCall]
  have hplay : ∃ s ∈ smallSystem.bind
      (State.play · [createF, (0, .sysOpen (path "/f") oRdwr)]),
      (s.fileTable 3).fdInode = some 2 ∧ writing (s.fileTable 3).fdFlag = true ∧
        (s.fileTable 4).fdInode = some 2 ∧ writing (s.fileTable 4).fdFlag = true := by
    decide +kernel
  obtain ⟨s, hs, h₃, hw₃, h₄, hw₄⟩ := hplay
  refine ⟨s, hs, fun hsingle => ?_⟩
  have h := hsingle 2 3 4 ⟨by decide, h₃, hw₃⟩ ⟨by decide, h₄, hw₄⟩
  cases h

end Aitos.Fs
