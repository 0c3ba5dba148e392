import Aitos.Arch.KernelEntry
import Aitos.Proc.SwitchResume

/-!
# Fork returns in the child

A process enters the kernel on the stack at the top of its PCB's page, so what the entry code saves
there is the `struct intr_stack` that `copy_process` copies and `build_child_stack` changes.  When
`switch_to` takes up the child for the first time, the child goes on in `intr_exit`, behind the
`int` of the parent.
-/

namespace Aitos.Proc.Switch

open Framework

section Entry

variable (functions : Word → Arch.Entry.Cpu → Arch.Entry.Cpu) (retAddr : Word)
  (aluFlags : Word → Word → Word) (L : Arch.Entry.Labels)

/-- `syscall_handler` up to the call -/
def beforeCall : List Arch.Entry.Instr :=
  [Arch.Entry.Instr.pushImm 0#32] ++ (Arch.Entry.saveContext ++
    [Arch.Entry.Instr.pushImm 0x80#32, Arch.Entry.Instr.push .edx, Arch.Entry.Instr.push .ecx,
      Arch.Entry.Instr.push .ebx])

/-- The processor when the function of a system call is called, for a process whose PCB is at `p` -/
def atCall (p : Word) (c : Arch.Entry.Cpu) : Arch.Entry.Cpu :=
  Arch.Entry.run functions retAddr aluFlags
    (Arch.Entry.deliver (p + pgSize) (Arch.makeIdtDesc (Arch.idtDescAttr 3) L.syscallHandler) none
      c)
    beforeCall

/-- The `struct intr_stack` of a system call -/
def callFrame (c : Arch.Entry.Cpu) (esp : Word) : List Word :=
  0x80#32 :: (Arch.Entry.savedRegs (Function.update c.regs .esp esp) ++
    (Arch.Entry.savedSegs c.segs ++ (0#32 :: Arch.Entry.frame c)))

private theorem callFrame_length {c : Arch.Entry.Cpu} (huser : c.cs &&& 3#32 ≠ 0#32) (esp : Word) :
    (callFrame c esp).length = 19 := by
  rw [callFrame, Arch.Entry.frame, if_neg huser]
  rfl

private theorem callFrame_set (c : Arch.Entry.Cpu) (esp v : Word) :
    (callFrame c esp).set eaxIndex v =
      0x80#32 :: (Arch.Entry.savedRegs (Function.update (Function.update c.regs .esp esp) .eax v) ++
        (Arch.Entry.savedSegs c.segs ++ (0#32 :: Arch.Entry.frame c))) := by
  simp [callFrame, eaxIndex, Arch.Entry.savedRegs]

private theorem cellsAt_iff {mem : Word → Word} {vs : List Word} : ∀ {a : Word},
    Arch.Entry.CellsAt mem a vs ↔
      ∀ i < vs.length, mem (a + 4#32 * BitVec.ofNat 32 i) = vs.getD i 0 := by
  induction vs with
  | nil =>
      intro a
      simp [Arch.Entry.CellsAt]
  | cons v vs ih =>
      intro a
      have hshift : ∀ i,
          a + 4#32 + 4#32 * BitVec.ofNat 32 i = a + 4#32 * BitVec.ofNat 32 (i + 1) := by
        intro i
        bv_omega
      have hfirst : a + 4#32 * BitVec.ofNat 32 0 = a := by simp
      rw [Arch.Entry.CellsAt, ih]
      constructor
      · intro h i hi
        cases i with
        | zero =>
            rw [hfirst]
            simpa using h.1
        | succ i =>
            have hnext := h.2 i (by simpa using hi)
            rw [hshift] at hnext
            simpa using hnext
      · intro h
        constructor
        · have hzero := h 0 (by simp)
          rw [hfirst] at hzero
          simpa using hzero
        · intro i hi
          have hnext := h (i + 1) (by simpa using hi)
          rw [hshift]
          simpa using hnext

variable {c : Arch.Entry.Cpu}

private theorem atCall_frame (huser : c.cs &&& 3#32 ≠ 0#32) (p : Word) :
    ∃ esp, Arch.Entry.CellsAt (atCall functions retAddr aluFlags L p c).mem
      (p + pgSize - intrStackSize) (callFrame c esp) := by
  obtain ⟨x, esp, hargs, hx, -⟩ := Arch.Entry.arguments_spec functions retAddr aluFlags c
    (p + pgSize) (Arch.idtDescAttr 3) L.syscallHandler
  have hstack := hx.toStack.drop (n := 12#32) rfl
  have hlen := callFrame_length huser esp
  rw [callFrame] at hlen
  rw [hlen, Arch.Entry.bottom, if_neg huser] at hstack
  have hplace : p + pgSize - 4#32 * BitVec.ofNat 32 19 = p + pgSize - intrStackSize := rfl
  rw [hstack.1, hplace] at hstack
  refine ⟨esp, ?_⟩
  rw [atCall, beforeCall, hargs, callFrame]
  exact hstack.2

private theorem intrExit_frame (huser : c.cs &&& 3#32 ≠ 0#32) {d : Arch.Entry.Cpu} {esp v : Word}
    (hd : Arch.Entry.CellsAt d.mem (d.regs .esp) ((callFrame c esp).set eaxIndex v))
    (hcs : d.cs = Arch.selectorKCode.setWidth 32) :
    Arch.Entry.run functions retAddr aluFlags d Arch.Entry.intrExit =
      { c with
        regs := Function.update c.regs .eax v
        mem := d.mem
        ports := d.ports } := by
  have hlen := callFrame_length huser esp
  have hbottom : Arch.Entry.bottom (d.regs .esp + 76#32) c = d.regs .esp + 76#32 := by
    rw [Arch.Entry.bottom, if_neg huser]
  have hstack : Arch.Entry.Stack d (Arch.Entry.bottom (d.regs .esp + 76#32) c)
      ((callFrame c esp).set eaxIndex v) := by
    refine ⟨?_, hd⟩
    rw [hbottom, List.length_set, hlen]
    bv_omega
  rw [callFrame_set] at hstack
  rw [Arch.Entry.intrExit_spec functions retAddr aluFlags hstack hcs fun h => absurd h huser,
    Function.update_comm (by decide : Arch.Entry.Reg.eax ≠ .esp), Function.update_idem,
    Function.update_eq_self]

end Entry

section Asleep

variable {kernelThread intrExit : Word}

/-- The runs from `m` in which `child` does not run -/
inductive Asleep (kernelThread intrExit child : Word) (m : Machine) : Machine → Prop where
  | refl : m.runningThread ≠ child → Asleep kernelThread intrExit child m m
  | step {m' m'' : Machine} {e : Event} : Asleep kernelThread intrExit child m m' →
      (tasks kernelThread intrExit).step m' e m'' → m''.runningThread ≠ child →
      Asleep kernelThread intrExit child m m''

variable {m m' m'' : Machine} {child ret : Word}

private theorem Asleep.notRunning (h : Asleep kernelThread intrExit child m m') :
    m'.runningThread ≠ child := by
  cases h with
  | refl h => exact h
  | step _ _ h => exact h

theorem Asleep.reachable (h : Asleep kernelThread intrExit child m m')
    (hm : (tasks kernelThread intrExit).Reachable m) :
    (tasks kernelThread intrExit).Reachable m' := by
  induction h with
  | refl _ => exact hm
  | step _ hs _ ih => exact .step ih hs

private theorem resumption_step {e : Event} (hs : (tasks kernelThread intrExit).step m' e m'')
    (hmem : child ∈ m'.threads) (hrun : m'.runningThread ≠ child) :
    child ∈ m''.threads ∧ m''.resumption child = m'.resumption child := by
  obtain ⟨he, rfl⟩ := hs
  cases e with
  | setReg r v => exact ⟨hmem, rfl⟩
  | store a v => exact ⟨hmem, rfl⟩
  | threadStart p function funcArg fields =>
      have hne : child ≠ p := fun h => he.2 (h ▸ hmem)
      exact ⟨List.mem_cons_of_mem p hmem, Function.update_of_ne hne _ _⟩
  | fork p fields =>
      have hne : child ≠ p := fun h => he.2 (h ▸ hmem)
      exact ⟨List.mem_cons_of_mem p hmem, Function.update_of_ne hne _ _⟩
  | switchTo ret => exact ⟨hmem, Function.update_of_ne hrun.symm _ _⟩

/-- How a task has been left does not change while it does not run. -/
theorem Asleep.resumption (h : Asleep kernelThread intrExit child m m') (hmem : child ∈ m.threads) :
    child ∈ m'.threads ∧ m'.resumption child = m.resumption child := by
  induction h with
  | refl _ => exact ⟨hmem, rfl⟩
  | step h hs _ ih =>
      obtain ⟨hin, hsame⟩ := resumption_step hs ih.1 h.notRunning
      exact ⟨hin, hsame.trans ih.2⟩

private theorem forked_resumes (frame : Nat → Word)
    (h : (tasks kernelThread intrExit).Reachable m')
    (hs : (tasks kernelThread intrExit).step m' (.switchTo ret) m'') :
    m''.runningThread = m'.cpu.mem (m'.cpu.regs .esp + 4#32) ∧
      (m''.resumption m''.runningThread = .forked frame →
        m''.Resumed kernelThread intrExit (.forked frame)) := by
  obtain ⟨he, rfl⟩ := hs
  have hinv := reachable_inv h
  obtain ⟨x, hx, hd⟩ := hinv.left he he.2.2.2
  obtain ⟨hmem, heip, hesp, hebp, hebx, hedi, hesi⟩ := hinv.switch he hx
  have hrun : (m'.step kernelThread intrExit (.switchTo ret)).runningThread =
      m'.cpu.mem (m'.cpu.regs .esp + 4#32) := by
    rw [Machine.runningThread, hesp]
    exact hx.inPage
  refine ⟨hrun, fun hforked => ?_⟩
  have hstack := hx.stack
  rw [← hmem] at hstack
  rw [← hrun] at hd hstack
  rw [hforked] at hd
  exact resumed_of_describes hd heip hesp hebp hebx hedi hesi hstack

end Asleep

section Fork

variable {functions : Word → Arch.Entry.Cpu → Arch.Entry.Cpu} {retAddr : Word}
  {aluFlags : Word → Word → Word} {L : Arch.Entry.Labels} {kernelThread intrExit : Word}

/-- A process makes a system call in which it forks, its interrupt frame being as the entry code
left it.  Whatever the tasks do until the child is switched to, the child then goes on in
`intr_exit` and comes out where the parent made the call, with `eax` zero and everything else of
the processor as the parent had it. -/
theorem fork_returns_in_child {c d : Arch.Entry.Cpu} (huser : c.cs &&& 3#32 ≠ 0#32)
    {m m₁ m₂ m₃ : Machine} {child ret : Word} {fields : Word → Word}
    (hr : (tasks kernelThread intrExit).Reachable m)
    (hentry : ∀ i < 19, m.intrStack m.runningThread i =
      (atCall functions retAddr aluFlags L m.runningThread c).mem
        (m.runningThread + pgSize - intrStackSize + 4#32 * BitVec.ofNat 32 i))
    (hfork : (tasks kernelThread intrExit).step m (.fork child fields) m₁)
    (hasleep : Asleep kernelThread intrExit child m₁ m₂)
    (hs : (tasks kernelThread intrExit).step m₂ (.switchTo ret) m₃)
    (hchild : m₃.runningThread = child) (hesp : d.regs .esp = m₃.cpu.regs .esp)
    (hmem : d.mem = m₃.cpu.mem) (hcs : d.cs = Arch.selectorKCode.setWidth 32) :
    m₃.cpu.eip = intrExit ∧
      Arch.Entry.run functions retAddr aluFlags d Arch.Entry.intrExit =
        { c with
          regs := Function.update c.regs .eax 0
          mem := d.mem
          ports := d.ports } := by
  have hleft : child ∈ m₁.threads ∧
      m₁.resumption child = .forked (m.intrStack m.runningThread) := by
    rw [← hfork.2]
    exact ⟨List.mem_cons_self, Function.update_self _ _ _⟩
  obtain ⟨hin, hsame⟩ := hasleep.resumption hleft.1
  obtain ⟨-, hkept⟩ := resumption_step hs hin hasleep.notRunning
  have hforked : m₃.resumption m₃.runningThread = .forked (m.intrStack m.runningThread) := by
    rw [hchild, hkept, hsame, hleft.2]
  obtain ⟨heip, hframe⟩ := (forked_resumes _ (hasleep.reachable (.step hr hfork)) hs).2 hforked
  refine ⟨heip, ?_⟩
  obtain ⟨esp, hcells⟩ := atCall_frame functions retAddr aluFlags L huser m.runningThread
  have hlen := callFrame_length huser esp
  have hwords := cellsAt_iff.mp hcells
  rw [hlen] at hwords
  have hd : Arch.Entry.CellsAt d.mem (d.regs .esp) ((callFrame c esp).set eaxIndex 0) := by
    rw [hmem, hesp, cellsAt_iff, List.length_set, hlen]
    intro i hi
    rw [hframe i hi]
    by_cases heax : i = eaxIndex
    · subst i
      rw [if_pos rfl]
      simp [hlen, eaxIndex]
    · rw [if_neg heax, hentry i hi, hwords i hi]
      simp [List.getElem?_set_ne (Ne.symm heax)]
  exact intrExit_frame functions retAddr aluFlags huser hd hcs

/-- The first task forks, and the child is switched to next. -/
theorem fork_returns_in_child_once : ∃ m₃ : Machine, m₃.cpu.eip = 0xc0002000#32 ∧
    Arch.Entry.run (fun _ => Arch.Entry.firstArgument) 0 (fun _ _ => 0)
        { Arch.Entry.userTask with
          regs := fun _ => m₃.cpu.regs .esp
          mem := m₃.cpu.mem
          cs := 8 } Arch.Entry.intrExit =
      { Arch.Entry.userTask with
        regs := Function.update Arch.Entry.userTask.regs .eax 0
        mem := m₃.cpu.mem } := by
  let x := atCall (fun _ => Arch.Entry.firstArgument) 0 (fun _ _ => 0) Arch.Entry.spacedLabels
    0xc009e000#32 Arch.Entry.userTask
  let mem (a : Word) : Word := if a = 0xc009ee00#32 then 0xc009e000#32
    else if a = 0xc009ee04#32 then 0xc0105000#32 else x.mem a
  let start : Machine := ⟨⟨fun _ => 0xc009ee00#32, 0#32, mem⟩, [0xc009e000#32],
    fun _ => .starts 0#32 0#32⟩
  let m := start.step 0xc0001500#32 0xc0002000#32 (.fork 0xc0105000#32 fun _ => 0#32)
  have hstart : (tasks 0xc0001500#32 0xc0002000#32).Reachable start :=
    .init (s := start) (show start.threads = [start.runningThread] by decide)
  have hfork : (tasks 0xc0001500#32 0xc0002000#32).step start
      (.fork 0xc0105000#32 fun _ => 0#32) m := ⟨by decide, rfl⟩
  have hrunning : start.runningThread = 0xc009e000#32 := by decide
  have hentry : ∀ i < 19, start.intrStack start.runningThread i =
      (atCall (fun _ => Arch.Entry.firstArgument) 0 (fun _ _ => 0) Arch.Entry.spacedLabels
        start.runningThread Arch.Entry.userTask).mem
        (start.runningThread + pgSize - intrStackSize + 4#32 * BitVec.ofNat 32 i) := by
    have happart : ∀ i < 19, 0xc009e000#32 + pgSize - intrStackSize + 4#32 * BitVec.ofNat 32 i ≠
        0xc009ee00#32 ∧ 0xc009e000#32 + pgSize - intrStackSize + 4#32 * BitVec.ofNat 32 i ≠
        0xc009ee04#32 := by decide
    intro i hi
    rw [hrunning, Machine.intrStack]
    exact (if_neg (happart i hi).1).trans (if_neg (happart i hi).2)
  have hmem : ∀ a, pageOf a ≠ 0xc0105000#32 → m.cpu.mem a = mem a :=
    fun a ha => forkedMem_of_ne (fun _ => 0#32) (by decide) ha
  have hregs : m.cpu.regs = start.cpu.regs := by
    simp only [m, Machine.step, Machine.buildChildStack, Machine.copyPcbVaddrbitmapStack0,
      Machine.setFields, store_regs, setPage_regs]
  have hrun : m.runningThread = 0xc009e000#32 := by
    rw [Machine.runningThread, hregs]
    decide
  have hnext : mem 0xc009ee04#32 = 0xc0105000#32 := rfl
  have hen : m.Enabled (.switchTo 0xc0001010#32) := by
    refine ⟨?_, ?_, ?_, ?_⟩
    · rw [hregs]
      decide
    · rw [hregs, hrun]
      decide
    · rw [hregs, hrun, hmem _ (by decide)]
      rfl
    · rw [hregs]
      change m.cpu.mem 0xc009ee04#32 ∈ _
      rw [hmem _ (by decide), hnext]
      exact List.mem_cons_self
  have hswitch : (tasks 0xc0001500#32 0xc0002000#32).step m (.switchTo 0xc0001010#32)
      (m.step 0xc0001500#32 0xc0002000#32 (.switchTo 0xc0001010#32)) := ⟨hen, rfl⟩
  have hchild : (m.step 0xc0001500#32 0xc0002000#32 (.switchTo 0xc0001010#32)).runningThread =
      0xc0105000#32 := by
    rw [(forked_resumes (fun _ => 0) (.step hstart hfork) hswitch).1, hregs]
    change m.cpu.mem 0xc009ee04#32 = _
    rw [hmem _ (by decide), hnext]
  have hasleep : Asleep 0xc0001500#32 0xc0002000#32 0xc0105000#32 m m := by
    apply Asleep.refl
    rw [hrun]
    decide
  obtain ⟨m₃, hm₃⟩ : ∃ m₃,
      m.step 0xc0001500#32 0xc0002000#32 (.switchTo 0xc0001010#32) = m₃ := ⟨_, rfl⟩
  rw [hm₃] at hswitch hchild
  have huser : Arch.Entry.userTask.cs &&& 3#32 ≠ 0#32 := by decide
  have hcs : (8 : Word) = Arch.selectorKCode.setWidth 32 := by decide
  clear hen hmem hregs hrun hm₃ hnext hrunning
  clear_value m start
  exact ⟨m₃, fork_returns_in_child huser hstart hentry hfork hasleep hswitch hchild rfl rfl hcs⟩

end Fork

end Aitos.Proc.Switch
