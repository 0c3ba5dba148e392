import Mathlib

/-!
# Interrupt entry stubs

The 48 entry points of `arch/x86_64/kernel.asm` are two macros, `ISR_NOERR` and `ISR_ERR`,
around the same register save and restore sequence.  The instructions are embedded one by one,
together with what the processor does before the first of them (the pushed interrupt frame)
and at the last (`iretq`).  The called C function is any function that keeps the SysV contract.
-/

namespace Aitos.Arch

abbrev Word := BitVec 64

inductive Reg where
  | rax | rbx | rcx | rdx | rsi | rdi | rbp | rsp
  | r8 | r9 | r10 | r11 | r12 | r13 | r14 | r15
  deriving DecidableEq, Repr

/-- The processor state the stubs act on.  Memory is kept in eight-byte cells: the processor
aligns the stack to 16 bytes when it delivers an interrupt in long mode, and the stubs only
move whole cells. -/
structure Cpu where
  regs : Reg → Word
  mem : Word → Word
  rip : Word
  cs : Word
  rflags : Word
  ss : Word

namespace Cpu

def set (c : Cpu) (r : Reg) (v : Word) : Cpu := { c with regs := Function.update c.regs r v }

def store (c : Cpu) (a v : Word) : Cpu := { c with mem := Function.update c.mem a v }

def push (c : Cpu) (v : Word) : Cpu :=
  (c.store (c.regs .rsp - 8) v).set .rsp (c.regs .rsp - 8)

def pop (c : Cpu) (r : Reg) : Cpu :=
  (c.set .rsp (c.regs .rsp + 8)).set r (c.mem (c.regs .rsp))

@[simp] theorem set_regs_self (c : Cpu) (r : Reg) (v : Word) : (c.set r v).regs r = v := by
  simp [set]

private theorem set_regs_of_ne (c : Cpu) {r r' : Reg} (v : Word) (h : r' ≠ r) :
    (c.set r v).regs r' = c.regs r' := by
  simp [set, h]

@[simp] theorem set_mem (c : Cpu) (r : Reg) (v : Word) : (c.set r v).mem = c.mem := rfl

@[simp] theorem push_rsp (c : Cpu) (v : Word) : (c.push v).regs .rsp = c.regs .rsp - 8 := by
  simp [push]

private theorem push_regs (c : Cpu) (v : Word) {r : Reg} (h : r ≠ .rsp) :
    (c.push v).regs r = c.regs r := by
  simp [push, set, store, h]

@[simp] theorem push_mem (c : Cpu) (v : Word) :
    (c.push v).mem = Function.update c.mem (c.regs .rsp - 8) v := rfl

end Cpu

/-- A C function under the SysV x86-64 contract, seen from the first instruction to the return
of its `ret`: the callee-saved registers and the stack pointer come back, the `callerCells`
cells above the return address are the caller's and stay as they are, and every other register
and memory cell is left to the function. -/
structure SysVFunction (callerCells : Nat) where
  run : Cpu → Cpu
  rsp_eq : ∀ c, (run c).regs .rsp = c.regs .rsp + 8
  saved : ∀ c, ∀ r ∈ [Reg.rbx, .rbp, .r12, .r13, .r14, .r15], (run c).regs r = c.regs r
  frame : ∀ c, ∀ i < callerCells,
    (run c).mem (c.regs .rsp + 8 + 8 * BitVec.ofNat 64 i) =
      c.mem (c.regs .rsp + 8 + 8 * BitVec.ofNat 64 i)

inductive Instr where
  | push (r : Reg)
  | pushImm (v : Word)
  | pop (r : Reg)
  | mov (r : Reg) (v : Word)
  | subRsp (v : Word)
  | addRsp (v : Word)
  | callIrqDispatch
  | iretq
  deriving DecidableEq, Repr

/-- Cells above the return address of `irq_dispatch` that belong to the stub and to the
interrupt frame: alignment pad, thirteen registers, error code, five frame cells. -/
def stubCells : Nat := 20

section Execution

-- `aluFlags` are the flags an `add` or `sub` leaves, `retAddr` the address behind the `call`:
-- neither is ever read again.
variable (aluFlags : Word → Word → Word) (retAddr : Word)

def exec (irqDispatch : SysVFunction stubCells) : Instr → Cpu → Cpu
  | .push r, c => c.push (c.regs r)
  | .pushImm v, c => c.push v
  | .pop r, c => c.pop r
  | .mov r v, c => c.set r v
  | .subRsp v, c => { c.set .rsp (c.regs .rsp - v) with rflags := aluFlags (c.regs .rsp) (-v) }
  | .addRsp v, c => { c.set .rsp (c.regs .rsp + v) with rflags := aluFlags (c.regs .rsp) v }
  | .callIrqDispatch, c => irqDispatch.run (c.push retAddr)
  | .iretq, c =>
      { (c.set .rsp (c.mem (c.regs .rsp + 24))) with
        rip := c.mem (c.regs .rsp), cs := c.mem (c.regs .rsp + 8),
        rflags := c.mem (c.regs .rsp + 16), ss := c.mem (c.regs .rsp + 32) }

@[irreducible] def execAll (irqDispatch : SysVFunction stubCells) : List Instr → Cpu → Cpu
  | [], c => c
  | i :: is, c => execAll irqDispatch is (exec aluFlags retAddr irqDispatch i c)

end Execution

def pushedRegs : List Reg :=
  [.r15, .r14, .r13, .r12, .r11, .r10, .r9, .r8, .rbp, .rbx, .rdx, .rcx, .rax]

def poppedRegs : List Reg :=
  [.rax, .rcx, .rdx, .rbx, .rbp, .r8, .r9, .r10, .r11, .r12, .r13, .r14, .r15]

/-- `PUSH_REGS` -/
def pushRegs : List Instr := pushedRegs.map .push

/-- `POP_REGS` -/
def popRegs : List Instr := poppedRegs.map .pop

/-- `ISR_NOERR vector` -/
def isrNoErr (vector : Word) : List Instr :=
  [Instr.pushImm 0] ++ pushRegs ++ [Instr.mov .rdi vector, Instr.subRsp 8, Instr.callIrqDispatch, Instr.addRsp 8] ++
    popRegs ++ [Instr.addRsp 8, Instr.iretq]

/-- `ISR_ERR vector` -/
def isrErr (vector : Word) : List Instr :=
  pushRegs ++ [Instr.mov .rdi vector, Instr.subRsp 8, Instr.callIrqDispatch, Instr.addRsp 8] ++
    popRegs ++ [Instr.addRsp 8, Instr.iretq]

inductive StubKind where
  | noErr
  | err
  deriving DecidableEq, Repr

def isrStub : StubKind → Word → List Instr
  | .noErr, vector => isrNoErr vector
  | .err, vector => isrErr vector

/-- The vectors of `kernel.asm` whose stub is `ISR_ERR`. -/
def errVectors : List Word := [0x08, 0x0a, 0x0b, 0x0c, 0x0d, 0x0e, 0x11, 0x1e]

/-- `intr_entry_table`: the stub the assembler generates for each vector below `0x30`. -/
def intrEntryTable : List (StubKind × Word) :=
  (List.range 0x30).map fun v =>
    (if BitVec.ofNat 64 v ∈ errVectors then .err else .noErr, BitVec.ofNat 64 v)

/-- What the processor does when the interrupt arrives: align the stack to 16 bytes, push SS,
RSP, RFLAGS, CS and RIP, and the error code for the vectors that have one. -/
def deliver (errorCode : Option Word) (c : Cpu) : Cpu :=
  let aligned := c.set .rsp (c.regs .rsp &&& ~~~0xf#64)
  let framed := ((((aligned.push c.ss).push (c.regs .rsp)).push c.rflags).push c.cs).push c.rip
  match errorCode with
  | none => framed
  | some code => framed.push code

/-- The error code the stub of this kind expects the processor to have pushed. -/
def StubKind.errorCode (code : Word) : StubKind → Option Word
  | .noErr => none
  | .err => some code

/-- The instruction that makes the stack of both stubs alike. -/
def codePad : StubKind → List Instr
  | .noErr => [Instr.pushImm 0]
  | .err => []

/-- The error code slot below the interrupt frame, a dummy for `ISR_NOERR`. -/
def StubKind.codeCell (code : Word) : StubKind → Word
  | .noErr => 0
  | .err => code

private theorem isrStub_eq (kind : StubKind) (vector : Word) :
    isrStub kind vector = codePad kind ++ (pushRegs ++ ([Instr.mov .rdi vector, Instr.subRsp 8] ++
      ([Instr.callIrqDispatch] ++ ([Instr.addRsp 8] ++ (popRegs ++ [Instr.addRsp 8, Instr.iretq]))))) := by
  cases kind <;> simp [isrStub, isrNoErr, isrErr, codePad]

/-- The cells from address `a` upwards hold `vs`. -/
def CellsAt (mem : Word → Word) (a : Word) (vs : List Word) : Prop :=
  ∀ i (h : i < vs.length), mem (a + 8 * BitVec.ofNat 64 i) = vs[i]

private theorem cellsAt_push (c : Cpu) (v : Word) (vs : List Word) (hlen : vs.length < 64)
    (h : CellsAt c.mem (c.regs .rsp) vs) :
    CellsAt (c.push v).mem ((c.push v).regs .rsp) (v :: vs) := by
  intro i hi
  rw [Cpu.push_mem, Cpu.push_rsp]
  cases i with
  | zero => simp
  | succ i =>
      simp only [List.length_cons] at hi
      have hne : c.regs .rsp - 8 + 8 * BitVec.ofNat 64 (i + 1) ≠ c.regs .rsp - 8 := by bv_omega
      have heq : c.regs .rsp - 8 + 8 * BitVec.ofNat 64 (i + 1) =
          c.regs .rsp + 8 * BitVec.ofNat 64 i := by bv_omega
      rw [Function.update_of_ne hne, heq]
      exact h i (by omega)

private theorem cellsAt_head {mem : Word → Word} {a v : Word} {vs : List Word}
    (h : CellsAt mem a (v :: vs)) : mem a = v := by
  have hz : mem (a + 8 * BitVec.ofNat 64 0) = v := h 0 (by simp)
  simpa using hz

private theorem cellsAt_tail {mem : Word → Word} {a v : Word} {vs : List Word}
    (h : CellsAt mem a (v :: vs)) : CellsAt mem (a + 8) vs := by
  intro i hi
  have hs := h (i + 1) (by simpa using hi)
  have heq : a + 8 * BitVec.ofNat 64 (i + 1) = a + 8 + 8 * BitVec.ofNat 64 i := by bv_omega
  simpa only [heq, List.getElem_cons_succ] using hs

private theorem cellsAt_cons (mem : Word → Word) (a : Word) (vs : List Word)
    (h : CellsAt mem a vs) : CellsAt mem (a - 8) (mem (a - 8) :: vs) := by
  intro i hi
  cases i with
  | zero => simp
  | succ i =>
      have heq : a - 8 + 8 * BitVec.ofNat 64 (i + 1) = a + 8 * BitVec.ofNat 64 i := by bv_omega
      rw [heq]
      exact h i (by simpa using hi)

section Stub

variable (aluFlags : Word → Word → Word) (retAddr : Word) (irqDispatch : SysVFunction stubCells)

private theorem execAll_nil (c : Cpu) : execAll aluFlags retAddr irqDispatch [] c = c := by
  simp [execAll]

private theorem execAll_cons (i : Instr) (is : List Instr) (c : Cpu) :
    execAll aluFlags retAddr irqDispatch (i :: is) c =
      execAll aluFlags retAddr irqDispatch is (exec aluFlags retAddr irqDispatch i c) := by
  simp [execAll]

private theorem execAll_append (is js : List Instr) (c : Cpu) :
    execAll aluFlags retAddr irqDispatch (is ++ js) c =
      execAll aluFlags retAddr irqDispatch js (execAll aluFlags retAddr irqDispatch is c) := by
  induction is generalizing c with
  | nil => simp [execAll]
  | cons i is ih => simp [execAll, ih]

private theorem pushAll_spec (rs : List Reg) (c : Cpu) (vs : List Word) (hrsp : .rsp ∉ rs)
    (hlen : rs.length + vs.length < 64) (h : CellsAt c.mem (c.regs .rsp) vs) :
    let after := execAll aluFlags retAddr irqDispatch (rs.map .push) c
    CellsAt after.mem (after.regs .rsp) ((rs.map c.regs).reverse ++ vs) ∧
      ∀ r, r ≠ .rsp → after.regs r = c.regs r := by
  induction rs generalizing c vs with
  | nil => simpa [execAll_nil] using h
  | cons r rs ih =>
      simp only [List.mem_cons, not_or] at hrsp
      simp only [List.length_cons] at hlen
      have hpush := cellsAt_push c (c.regs r) vs (by omega) h
      have hsame : ∀ q, q ≠ .rsp → (c.push (c.regs r)).regs q = c.regs q :=
        fun q hq => c.push_regs _ hq
      have hmap : rs.map (c.push (c.regs r)).regs = rs.map c.regs := by
        apply List.map_congr_left
        intro q hq
        exact hsame q (fun he => hrsp.2 (he ▸ hq))
      obtain ⟨hcells, hregs⟩ := ih (c.push (c.regs r)) (c.regs r :: vs) hrsp.2
        (by simp only [List.length_cons]; omega) hpush
      rw [List.map_cons, execAll_cons]
      refine ⟨?_, fun q hq => (hregs q hq).trans (hsame q hq)⟩
      simpa [exec, hmap] using hcells

private theorem popAll_spec (g : Reg → Word) (rs : List Reg) (c : Cpu) (vs : List Word)
    (hrsp : .rsp ∉ rs) (hnd : rs.Nodup) (h : CellsAt c.mem (c.regs .rsp) (rs.map g ++ vs)) :
    let after := execAll aluFlags retAddr irqDispatch (rs.map .pop) c
    CellsAt after.mem (after.regs .rsp) vs ∧ (∀ r ∈ rs, after.regs r = g r) ∧
      ∀ r, r ≠ .rsp → r ∉ rs → after.regs r = c.regs r := by
  induction rs generalizing c with
  | nil => simpa [execAll_nil] using h
  | cons r rs ih =>
      simp only [List.mem_cons, not_or] at hrsp
      have hr : .rsp ≠ r := hrsp.1
      have hnd' := List.nodup_cons.mp hnd
      have htop : (c.pop r).regs .rsp = c.regs .rsp + 8 := by
        simp [Cpu.pop, Cpu.set, hr]
      have hcells : CellsAt (c.pop r).mem ((c.pop r).regs .rsp) (rs.map g ++ vs) := by
        rw [htop]
        exact cellsAt_tail h
      have hval : (c.pop r).regs r = g r := by
        simpa [Cpu.pop] using cellsAt_head h
      have hother : ∀ q, q ≠ .rsp → q ≠ r → (c.pop r).regs q = c.regs q := by
        intro q hq hqr
        simp [Cpu.pop, Cpu.set, hq, hqr]
      obtain ⟨hc, hin, hout⟩ := ih (c.pop r) hrsp.2 hnd'.2 hcells
      rw [List.map_cons, execAll_cons]
      refine ⟨hc, ?_, ?_⟩
      · intro q hq
        by_cases hqr : q = r
        · subst q
          exact (hout r (Ne.symm hr) hnd'.1).trans hval
        · exact hin q ((List.mem_cons.mp hq).resolve_left hqr)
      · intro q hq hqn
        simp only [List.mem_cons, not_or] at hqn
        exact (hout q hq hqn.2).trans (hother q hq hqn.1)

/-- The five cells the processor pushes on delivery, top of stack first. -/
def interruptFrame (c : Cpu) : List Word := [c.rip, c.cs, c.rflags, c.regs .rsp, c.ss]

private theorem frame_spec (c : Cpu) :
    CellsAt (deliver none c).mem ((deliver none c).regs .rsp) (interruptFrame c) ∧
      ∀ r, r ≠ .rsp → (deliver none c).regs r = c.regs r := by
  let aligned := c.set .rsp (c.regs .rsp &&& ~~~0xf#64)
  have h0 : CellsAt aligned.mem (aligned.regs .rsp) [] := by intro i hi; simp at hi
  have h1 := cellsAt_push aligned c.ss _ (by simp) h0
  have h2 := cellsAt_push _ (c.regs .rsp) _ (by simp) h1
  have h3 := cellsAt_push _ c.rflags _ (by simp) h2
  have h4 := cellsAt_push _ c.cs _ (by simp) h3
  refine ⟨cellsAt_push _ c.rip _ (by simp) h4, fun r hr => ?_⟩
  simp only [deliver, Cpu.push_regs _ _ hr, Cpu.set_regs_of_ne _ _ hr]

/-- The state in which `PUSH_REGS` starts. -/
def saveEntry (kind : StubKind) (code : Word) (c : Cpu) : Cpu :=
  execAll aluFlags retAddr irqDispatch (codePad kind) (deliver (kind.errorCode code) c)

private theorem saveEntry_spec (kind : StubKind) (code : Word) (c : Cpu) :
    let entry := saveEntry aluFlags retAddr irqDispatch kind code c
    CellsAt entry.mem (entry.regs .rsp) (kind.codeCell code :: interruptFrame c) ∧
      ∀ r, r ≠ .rsp → entry.regs r = c.regs r := by
  obtain ⟨hcells, hregs⟩ := frame_spec c
  have heq : saveEntry aluFlags retAddr irqDispatch kind code c =
      (deliver none c).push (kind.codeCell code) := by
    cases kind <;> simp [saveEntry, codePad, execAll_cons, execAll_nil, exec, deliver,
      StubKind.errorCode, StubKind.codeCell]
  dsimp only
  rw [heq]
  refine ⟨cellsAt_push _ _ _ (by simp [interruptFrame]) hcells, fun r hr => ?_⟩
  exact (Cpu.push_regs _ _ hr).trans (hregs r hr)

/-- The state in which the stub calls `irq_dispatch`. -/
def callEntry (kind : StubKind) (vector code : Word) (c : Cpu) : Cpu :=
  execAll aluFlags retAddr irqDispatch (pushRegs ++ [Instr.mov .rdi vector, Instr.subRsp 8])
    (saveEntry aluFlags retAddr irqDispatch kind code c)

private theorem callEntry_spec (kind : StubKind) (vector code : Word) (c : Cpu) :
    let entry := callEntry aluFlags retAddr irqDispatch kind vector code c
    (∃ pad, CellsAt entry.mem (entry.regs .rsp)
      (pad :: (poppedRegs.map c.regs ++ kind.codeCell code :: interruptFrame c))) ∧
      entry.regs .rdi = vector := by
  obtain ⟨hcells, hregs⟩ := saveEntry_spec aluFlags retAddr irqDispatch kind code c
  have hspec := pushAll_spec aluFlags retAddr irqDispatch pushedRegs
    (saveEntry aluFlags retAddr irqDispatch kind code c) _ (by decide)
    (by simp [pushedRegs, interruptFrame]) hcells
  have hmap : (pushedRegs.map (saveEntry aluFlags retAddr irqDispatch kind code c).regs).reverse =
      poppedRegs.map c.regs := by
    simp [pushedRegs, poppedRegs, hregs]
  rw [hmap, ← pushRegs] at hspec
  dsimp only
  rw [callEntry, execAll_append]
  generalize execAll aluFlags retAddr irqDispatch pushRegs
    (saveEntry aluFlags retAddr irqDispatch kind code c) = saved at hspec ⊢
  obtain ⟨hsaved, hsame⟩ := hspec
  have hmem : (execAll aluFlags retAddr irqDispatch [Instr.mov .rdi vector, Instr.subRsp 8] saved).mem =
      saved.mem := by simp [execAll_cons, execAll_nil, exec]
  have hrsp : (execAll aluFlags retAddr irqDispatch [Instr.mov .rdi vector, Instr.subRsp 8] saved).regs .rsp =
      saved.regs .rsp - 8 := by simp [execAll_cons, execAll_nil, exec, Cpu.set]
  refine ⟨⟨saved.mem (saved.regs .rsp - 8), ?_⟩, ?_⟩
  · rw [hmem, hrsp]
    exact cellsAt_cons _ _ _ hsaved
  · simp [execAll_cons, execAll_nil, exec, Cpu.set]

/-- The state in which `irq_dispatch` returns to the stub. -/
def dispatched (kind : StubKind) (vector code : Word) (c : Cpu) : Cpu :=
  irqDispatch.run ((callEntry aluFlags retAddr irqDispatch kind vector code c).push retAddr)

private theorem dispatched_spec (kind : StubKind) (vector code : Word) (c : Cpu) :
    let back := dispatched aluFlags retAddr irqDispatch kind vector code c
    ∃ pad, CellsAt back.mem (back.regs .rsp)
      (pad :: (poppedRegs.map c.regs ++ kind.codeCell code :: interruptFrame c)) := by
  obtain ⟨⟨pad, hcells⟩, -⟩ := callEntry_spec aluFlags retAddr irqDispatch kind vector code c
  refine ⟨pad, ?_⟩
  generalize hentry : callEntry aluFlags retAddr irqDispatch kind vector code c = entry at hcells
  have hrsp := irqDispatch.rsp_eq (entry.push retAddr)
  simp only [dispatched, hentry]
  rw [hrsp, Cpu.push_rsp]
  intro i hi
  have hframe := irqDispatch.frame (entry.push retAddr) i (by
    simpa [stubCells, poppedRegs, interruptFrame] using hi)
  have hat : entry.regs .rsp - 8 + 8 + 8 * BitVec.ofNat 64 i =
      entry.regs .rsp + 8 * BitVec.ofNat 64 i := by bv_omega
  have hne : entry.regs .rsp + 8 * BitVec.ofNat 64 i ≠ entry.regs .rsp - 8 := by
    have hlt : i < 20 := by simpa [poppedRegs, interruptFrame] using hi
    bv_omega
  rw [Cpu.push_rsp, hat, Cpu.push_mem, Function.update_of_ne hne] at hframe
  rw [hat, hframe]
  exact hcells i hi

/-- The state the stub's `iretq` leaves. -/
def interrupted (kind : StubKind) (vector code : Word) (c : Cpu) : Cpu :=
  execAll aluFlags retAddr irqDispatch (isrStub kind vector) (deliver (kind.errorCode code) c)

private theorem interrupted_eq (kind : StubKind) (vector code : Word) (c : Cpu) :
    interrupted aluFlags retAddr irqDispatch kind vector code c =
      execAll aluFlags retAddr irqDispatch ([Instr.addRsp 8] ++ (popRegs ++ [Instr.addRsp 8, Instr.iretq]))
        (dispatched aluFlags retAddr irqDispatch kind vector code c) := by
  rw [interrupted, isrStub_eq]
  simp only [execAll_append, execAll_cons, execAll_nil, exec, dispatched, callEntry, saveEntry]

private theorem iret_spec (kind : StubKind) (code : Word) (c popped : Cpu)
    (h : CellsAt popped.mem (popped.regs .rsp) (kind.codeCell code :: interruptFrame c)) :
    let final := execAll aluFlags retAddr irqDispatch [Instr.addRsp 8, Instr.iretq] popped
    (∀ r, r ≠ .rsp → final.regs r = popped.regs r) ∧ final.regs .rsp = c.regs .rsp ∧
      final.rip = c.rip ∧ final.cs = c.cs ∧ final.rflags = c.rflags ∧ final.ss = c.ss := by
  have hrip := cellsAt_tail h
  have hcs := cellsAt_tail hrip
  have hflags := cellsAt_tail hcs
  have hrsp := cellsAt_tail hflags
  have hss := cellsAt_tail hrsp
  simp only [execAll_cons, execAll_nil, exec, Cpu.set]
  refine ⟨fun r hr => by simp [hr], ?_, ?_, ?_, ?_, ?_⟩
  · simpa [BitVec.add_assoc] using cellsAt_head hrsp
  · simpa using cellsAt_head hrip
  · simpa [BitVec.add_assoc] using cellsAt_head hcs
  · simpa [BitVec.add_assoc] using cellsAt_head hflags
  · simpa [BitVec.add_assoc] using cellsAt_head hss

private theorem mem_poppedRegs (r : Reg) (hsp : r ≠ .rsp) (hdi : r ≠ .rdi) (hsi : r ≠ .rsi) :
    r ∈ poppedRegs := by
  cases r <;> first | decide | contradiction

/-- Whatever `irq_dispatch` does within its contract, the frame and fourteen registers come
back; `rdi` and `rsi` are not in the save list and keep what `irq_dispatch` left in them. -/
private theorem interrupted_spec (kind : StubKind) (vector code : Word) (c : Cpu) :
    let back := dispatched aluFlags retAddr irqDispatch kind vector code c
    let final := interrupted aluFlags retAddr irqDispatch kind vector code c
    (∀ r, r ≠ .rdi → r ≠ .rsi → final.regs r = c.regs r) ∧
      final.regs .rdi = back.regs .rdi ∧ final.regs .rsi = back.regs .rsi ∧
      final.rip = c.rip ∧ final.cs = c.cs ∧ final.rflags = c.rflags ∧ final.ss = c.ss := by
  obtain ⟨pad, hcells⟩ := dispatched_spec aluFlags retAddr irqDispatch kind vector code c
  dsimp only
  rw [interrupted_eq, execAll_append, execAll_append]
  generalize dispatched aluFlags retAddr irqDispatch kind vector code c = back at hcells ⊢
  -- drop the alignment pad
  have hskip : execAll aluFlags retAddr irqDispatch [Instr.addRsp 8] back =
      { back.set .rsp (back.regs .rsp + 8) with rflags := aluFlags (back.regs .rsp) 8 } := by
    simp [execAll_cons, execAll_nil, exec]
  have hregs : ∀ r, r ≠ .rsp →
      (execAll aluFlags retAddr irqDispatch [Instr.addRsp 8] back).regs r = back.regs r := by
    intro r hr
    rw [hskip]
    simp [Cpu.set, hr]
  have hstack : CellsAt (execAll aluFlags retAddr irqDispatch [Instr.addRsp 8] back).mem
      ((execAll aluFlags retAddr irqDispatch [Instr.addRsp 8] back).regs .rsp)
      (poppedRegs.map c.regs ++ kind.codeCell code :: interruptFrame c) := by
    rw [hskip]
    simpa [Cpu.set] using cellsAt_tail hcells
  have hpop := popAll_spec aluFlags retAddr irqDispatch c.regs poppedRegs _ _ (by decide)
    (by decide) hstack
  rw [← popRegs] at hpop
  generalize execAll aluFlags retAddr irqDispatch [Instr.addRsp 8] back = unpadded at hregs hpop ⊢
  generalize execAll aluFlags retAddr irqDispatch popRegs unpadded = popped at hpop ⊢
  obtain ⟨hframe, hin, hout⟩ := hpop
  obtain ⟨hkeep, hrsp, hrest⟩ := iret_spec aluFlags retAddr irqDispatch kind code c popped hframe
  refine ⟨?_, ?_, ?_, hrest⟩
  · intro r hdi hsi
    by_cases hr : r = .rsp
    · subst r
      exact hrsp
    · rw [hkeep r hr]
      exact hin r (mem_poppedRegs r hr hdi hsi)
  · rw [hkeep _ (by decide), hout _ (by decide) (by decide), hregs _ (by decide)]
  · rw [hkeep _ (by decide), hout _ (by decide) (by decide), hregs _ (by decide)]

/-- All sixteen general-purpose registers and the interrupt frame are back. -/
def Restored (before after : Cpu) : Prop :=
  (∀ r, after.regs r = before.regs r) ∧ after.rip = before.rip ∧ after.cs = before.cs ∧
    after.rflags = before.rflags ∧ after.ss = before.ss

/-- A stub restores the interrupted context exactly when `irq_dispatch` happens to return with
`rdi` and `rsi` as the interrupted code had them: `PUSH_REGS` leaves these two out. -/
theorem interrupted_restored_iff (kind : StubKind) (vector code : Word) (c : Cpu) :
    Restored c (interrupted aluFlags retAddr irqDispatch kind vector code c) ↔
      (dispatched aluFlags retAddr irqDispatch kind vector code c).regs .rdi = c.regs .rdi ∧
      (dispatched aluFlags retAddr irqDispatch kind vector code c).regs .rsi = c.regs .rsi := by
  obtain ⟨hregs, hdi, hsi, hframe⟩ :=
    interrupted_spec aluFlags retAddr irqDispatch kind vector code c
  constructor
  · intro h
    exact ⟨hdi.symm.trans (h.1 .rdi), hsi.symm.trans (h.1 .rsi)⟩
  · intro h
    refine ⟨fun r => ?_, hframe⟩
    by_cases hr : r = .rdi
    · subst r
      exact hdi.trans h.1
    by_cases hr' : r = .rsi
    · subst r
      exact hsi.trans h.2
    exact hregs r hr hr'

end Stub

/-- A handler that returns at once: it clobbers nothing at all. -/
def emptyHandler : SysVFunction stubCells where
  run c := c.set .rsp (c.regs .rsp + 8)
  rsp_eq c := by simp
  saved c r hr := by
    apply Cpu.set_regs_of_ne
    rintro rfl
    simp at hr
  frame c i _ := rfl

def zeroCpu : Cpu := ⟨fun _ => 0, fun _ => 0, 0, 0, 0, 0⟩

/-- Even the empty handler does not save the keyboard stub: the stub itself loads the vector
number into `rdi` and never puts the old value back. -/
theorem keyboard_stub_loses_rdi :
    ¬ Restored zeroCpu
      (interrupted (fun _ _ => 0) 0 emptyHandler .noErr 0x21 0 zeroCpu) := by
  intro h
  have hkeep := (interrupted_spec (fun _ _ => 0) 0 emptyHandler .noErr 0x21 0 zeroCpu).2.1
  have hdi := (callEntry_spec (fun _ _ => 0) 0 emptyHandler .noErr 0x21 0 zeroCpu).2
  have hback : (dispatched (fun _ _ => 0) 0 emptyHandler .noErr 0x21 0 zeroCpu).regs .rdi =
      (callEntry (fun _ _ => 0) 0 emptyHandler .noErr 0x21 0 zeroCpu).regs .rdi := by
    simp [dispatched, emptyHandler, Cpu.push, Cpu.set, Cpu.store]
  have hzero := h.1 .rdi
  rw [hkeep, hback, hdi] at hzero
  exact absurd hzero (by decide)

end Aitos.Arch
