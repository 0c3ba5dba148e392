import Aitos.Arch.Descriptors

/-!
# Entry into the kernel

`arch/x86/kernel.asm` instruction by instruction: the entry points of the `VECTOR` lines, the system
call handler and `intr_exit`, with the gates that `idt_desc_init` sets up for them and what the
processor does on the way in and at `iretd`.  The C functions that are called may do anything a
function does: they return and leave the stack of their caller alone.
-/

namespace Aitos.Arch

namespace Entry

inductive Reg where
  | eax | ecx | edx | ebx | esp | ebp | esi | edi
  deriving DecidableEq, Repr

inductive Seg where
  | ds | es | fs | gs
  deriving DecidableEq, Repr

/-- Memory is kept in four-byte cells: the entry code moves whole words at aligned addresses. -/
structure Cpu where
  regs : Reg → Dword
  segs : Seg → Dword
  eip : Dword
  cs : Dword
  eflags : Dword
  ss : Dword
  mem : Dword → Dword
  /-- the bytes sent to the ports, the last first -/
  ports : List (Dword × Byte)

namespace Cpu

def set (c : Cpu) (r : Reg) (v : Dword) : Cpu := { c with regs := Function.update c.regs r v }

def push (c : Cpu) (v : Dword) : Cpu :=
  { c with
    regs := Function.update c.regs .esp (c.regs .esp - 4#32)
    mem := Function.update c.mem (c.regs .esp - 4#32) v }

def addEsp (c : Cpu) (n : Dword) : Cpu := c.set .esp (c.regs .esp + n)

def pop (c : Cpu) (r : Reg) : Cpu := (c.addEsp 4#32).set r (c.mem (c.regs .esp))

def popSeg (c : Cpu) (s : Seg) : Cpu :=
  { c.addEsp 4#32 with segs := Function.update c.segs s (c.mem (c.regs .esp)) }

/-- All values are those before the first push. -/
def pushad (c : Cpu) : Cpu :=
  [Reg.eax, .ecx, .edx, .ebx, .esp, .ebp, .esi, .edi].foldl (fun d r => d.push (c.regs r)) c

/-- The value saved for `esp` is skipped. -/
def popad (c : Cpu) : Cpu :=
  ((((((((c.pop .edi).pop .esi).pop .ebp).addEsp 4#32).pop .ebx).pop .edx).pop .ecx).pop .eax)

/-- The return to a less privileged level also takes the stack back. -/
def iretd (c : Cpu) : Cpu :=
  let esp := c.regs .esp
  let d := { c.addEsp 12#32 with
    eip := c.mem esp
    cs := c.mem (esp + 4#32)
    eflags := c.mem (esp + 8#32) }
  if d.cs &&& 3#32 = c.cs &&& 3#32 then d
  else { d.set .esp (c.mem (esp + 12#32)) with ss := c.mem (esp + 16#32) }

end Cpu

inductive Instr where
  | push (r : Reg)
  | pushImm (v : Dword)
  | pushSeg (s : Seg)
  | popSeg (s : Seg)
  | pushad
  | popad
  | addEsp (n : Dword)
  | movAl (v : Byte)
  | out (port : Dword)         -- `out port, al`
  | call (a : Dword)           -- `call [a]`
  | callIndexed (a : Dword)    -- `call [a + eax*4]`
  | storeEax (disp : Dword)    -- `mov [esp+disp], eax`
  | iretd

section Execution

-- `functions` runs the C function at an address up to and including its `ret`; `retAddr` is the
-- address behind the `call`, and `aluFlags` the flags an `add` leaves: neither is read again.
variable (functions : Dword → Cpu → Cpu) (retAddr : Dword) (aluFlags : Dword → Dword → Dword)

def exec (c : Cpu) : Instr → Cpu
  | .push r => c.push (c.regs r)
  | .pushImm v => c.push v
  | .pushSeg s => c.push (c.segs s)
  | .popSeg s => c.popSeg s
  | .pushad => c.pushad
  | .popad => c.popad
  | .addEsp n => { c.addEsp n with eflags := aluFlags (c.regs .esp) n }
  | .movAl v => c.set .eax ((c.regs .eax &&& ~~~0xff#32) ||| v.setWidth 32)
  | .out port => { c with ports := (port, (c.regs .eax).setWidth 8) :: c.ports }
  | .call a => functions (c.mem a) (c.push retAddr)
  | .callIndexed a => functions (c.mem (a + c.regs .eax * 4#32)) (c.push retAddr)
  | .storeEax disp => { c with mem := Function.update c.mem (c.regs .esp + disp) (c.regs .eax) }
  | .iretd => c.iretd

def run (c : Cpu) (code : List Instr) : Cpu := code.foldl (exec functions retAddr aluFlags) c

end Execution

/-- Save the environment. -/
def saveContext : List Instr := [.pushSeg .ds, .pushSeg .es, .pushSeg .fs, .pushSeg .gs, .pushad]

def restoreContext : List Instr :=
  [.popad, .popSeg .gs, .popSeg .fs, .popSeg .es, .popSeg .ds, .addEsp 4#32, .iretd]

def intrExit : List Instr := .addEsp 4#32 :: restoreContext

/-- The numbers of the `VECTOR` lines: there is none for `0x60`. -/
def vectorLines : List Nat := List.range 0x60 ++ List.range' 0x61 0x20

/-- The lines with `ERROR_CODE`; the others push a zero. -/
def errVectors : List Nat := [0x08, 0x0a, 0x0b, 0x0c, 0x0d, 0x0e, 0x11, 0x1e]

section Code

-- the addresses of `idt_table` and `syscall_table`
variable (idtTable syscallTable : Dword)

/-- `VECTOR v` -/
def vectorEntry (v : Nat) : List Instr :=
  (if v ∈ errVectors then [] else [Instr.pushImm 0#32]) ++ saveContext ++
    [Instr.movAl 0x20#8, Instr.out 0xa0#32, Instr.out 0x20#32, Instr.pushImm (BitVec.ofNat 32 v),
      Instr.call (idtTable + BitVec.ofNat 32 v * 4#32)] ++ intrExit

def syscallHandler : List Instr :=
  [Instr.pushImm 0#32] ++ saveContext ++
    [Instr.pushImm 0x80#32, Instr.push .edx, Instr.push .ecx, Instr.push .ebx,
      Instr.callIndexed syscallTable, Instr.addEsp 12#32, Instr.storeEax 32#32] ++ intrExit

end Code

/-- Where the linker has put the entry points. -/
structure Labels where
  entry : Nat → Dword
  syscallHandler : Dword
  distinct : ∀ v ∈ vectorLines, ∀ w ∈ vectorLines, entry v = entry w → v = w
  apart : ∀ v ∈ vectorLines, entry v ≠ syscallHandler

/-- The code at an address -/
def codeAt (L : Labels) (idtTable syscallTable a : Dword) : List Instr :=
  if a = L.syscallHandler then syscallHandler syscallTable
  else match vectorLines.find? fun v => L.entry v = a with
    | some v => vectorEntry idtTable v
    | none => []

/-- `intr_entry_table`, one word for each `VECTOR` line -/
def intrEntryTable (L : Labels) : List Dword := vectorLines.map L.entry

/-- `IDT_DESC_CNT` -/
def idtDescCnt : Nat := 0x81

/-- `idt_desc_init`; `behind` is the word behind `intr_entry_table`, which the loop reads last. -/
def idtDescInit (L : Labels) (behind : Dword) : List GateDesc :=
  ((List.range idtDescCnt).map fun i =>
    makeIdtDesc (idtDescAttr 0) ((intrEntryTable L).getD i behind)).set (idtDescCnt - 1)
      (makeIdtDesc (idtDescAttr 3) L.syscallHandler)

/-- The way in through a gate: from a process to the kernel stack that `esp0` of the TSS points to,
from the kernel on the stack in use.  `IF`, `TF`, `NT`, `RF` and `VM` are cleared. -/
def deliver (esp0 : Dword) (g : GateDesc) (errorCode : Option Dword) (c : Cpu) : Cpu :=
  let stack := if c.cs &&& 3#32 = 0#32 then c
    else (({ c.set .esp esp0 with ss := selectorKStack.setWidth 32 }).push c.ss).push (c.regs .esp)
  let framed := ((stack.push c.eflags).push c.cs).push c.eip
  let framed := match errorCode with
    | none => framed
    | some code => framed.push code
  { framed with
    cs := g.selector.setWidth 32
    eip := g.offset
    eflags := c.eflags &&& ~~~0x34300#32 }

section Interrupt

variable (functions : Dword → Cpu → Cpu) (retAddr : Dword) (aluFlags : Dword → Dword → Dword)
  (L : Labels) (behind idtTable syscallTable esp0 : Dword)

/-- Vector `v` from its delivery to the end of `intr_exit`; nothing for a vector that has no gate. -/
def interrupt (v : Nat) (errorCode : Option Dword) (c : Cpu) : Option Cpu :=
  (idtDescInit L behind)[v]?.map fun g =>
    run functions retAddr aluFlags (deliver esp0 g errorCode c)
      (codeAt L idtTable syscallTable g.offset)

end Interrupt

/-- The words from address `a` upwards -/
def CellsAt (mem : Dword → Dword) : Dword → List Dword → Prop
  | _, [] => True
  | a, v :: vs => mem a = v ∧ CellsAt mem (a + 4#32) vs

theorem CellsAt.congr {mem mem' : Dword → Dword} {vs : List Dword} :
    ∀ {a : Dword}, CellsAt mem a vs →
    (∀ i < vs.length, mem' (a + 4#32 * BitVec.ofNat 32 i) = mem (a + 4#32 * BitVec.ofNat 32 i)) →
    CellsAt mem' a vs := by
  induction vs with
  | nil => exact fun _ _ => trivial
  | cons v vs ih =>
      intro a h hsame
      constructor
      · have hfirst := hsame 0 (by simp)
        rw [BitVec.mul_zero, BitVec.add_zero] at hfirst
        exact hfirst.trans h.1
      · refine ih h.2 fun i hi => ?_
        have hnext := hsame (i + 1) (by simpa using hi)
        have hshift : a + 4#32 * BitVec.ofNat 32 (i + 1) = a + 4#32 + 4#32 * BitVec.ofNat 32 i := by
          bv_omega
        rwa [hshift] at hnext

private theorem cellsAt_append {mem : Dword → Dword} {us vs : List Dword} : ∀ {a : Dword},
    CellsAt mem a (us ++ vs) ↔
      CellsAt mem a us ∧ CellsAt mem (a + 4#32 * BitVec.ofNat 32 us.length) vs := by
  induction us with
  | nil =>
      intro a
      simp [CellsAt]
  | cons u us ih =>
      intro a
      have hshift : a + 4#32 + 4#32 * BitVec.ofNat 32 us.length =
          a + 4#32 * BitVec.ofNat 32 (u :: us).length := by
        rw [List.length_cons]
        bv_omega
      rw [List.cons_append, CellsAt, ih, hshift, CellsAt, and_assoc]

/-- A stack with these words on it, the bottom at `a` -/
structure Stack (c : Cpu) (a : Dword) (vs : List Dword) : Prop where
  top : c.regs .esp = a - 4#32 * BitVec.ofNat 32 vs.length
  cells : CellsAt c.mem (c.regs .esp) vs

/-- Memory is that of `c₀` but for the `n` words below `a`. -/
def SameOutside (c₀ c : Cpu) (a : Dword) (n : Nat) : Prop :=
  ∀ x, (∀ i < n, x ≠ a - 4#32 * BitVec.ofNat 32 (i + 1)) → c.mem x = c₀.mem x

section Stack

variable {c₀ c : Cpu} {a v : Dword} {us vs : List Dword}

private theorem push_esp (c : Cpu) (v : Dword) : (c.push v).regs .esp = c.regs .esp - 4#32 := by
  simp [Cpu.push]

theorem Stack.push (h : Stack c a vs) (hlen : vs.length < 64) (v : Dword) :
    Stack (c.push v) a (v :: vs) := by
  have htop := h.top
  refine ⟨?_, ⟨?_, ?_⟩⟩
  · rw [push_esp, htop, List.length_cons]
    bv_omega
  · rw [push_esp]
    exact Function.update_self _ _ _
  · have hback : (c.push v).regs .esp + 4#32 = c.regs .esp := by
      rw [push_esp]
      bv_omega
    rw [hback]
    refine h.cells.congr fun i hi => Function.update_of_ne ?_ _ _
    bv_omega

theorem SameOutside.push {n : Nat} (h : SameOutside c₀ c a n)
    (htop : c.regs .esp = a - 4#32 * BitVec.ofNat 32 n) (v : Dword) :
    SameOutside c₀ (c.push v) a (n + 1) := by
  intro x hx
  have hne : x ≠ c.regs .esp - 4#32 := by
    have hlast := hx n (by omega)
    rw [htop]
    bv_omega
  exact (Function.update_of_ne hne _ _).trans (h x fun i hi => hx i (by omega))

theorem Stack.drop (h : Stack c a (us ++ vs)) {n : Dword}
    (hn : n = 4#32 * BitVec.ofNat 32 us.length) :
    c.regs .esp + n = a - 4#32 * BitVec.ofNat 32 vs.length ∧ CellsAt c.mem (c.regs .esp + n) vs := by
  rw [hn]
  refine ⟨?_, (cellsAt_append.mp h.cells).2⟩
  rw [h.top, List.length_append]
  bv_omega

theorem Stack.store (h : Stack c a (us ++ v :: vs)) (hlen : us.length + vs.length < 64)
    {n w : Dword} (hn : n = 4#32 * BitVec.ofNat 32 us.length) :
    Stack { c with mem := Function.update c.mem (c.regs .esp + n) w } a (us ++ w :: vs) := by
  obtain ⟨hus, hv, hvs⟩ := cellsAt_append.mp h.cells
  refine ⟨?_, cellsAt_append.mpr ⟨?_, ?_, ?_⟩⟩
  · simpa using h.top
  · refine hus.congr fun i hi => Function.update_of_ne ?_ _ _
    rw [hn]
    bv_omega
  · rw [← hn]
    exact Function.update_self _ _ _
  · refine hvs.congr fun i hi => Function.update_of_ne ?_ _ _
    rw [hn]
    bv_omega

end Stack

/-- A C function that takes `args` words and leaves the next words of its caller's stack alone, up
to `cells` in all; it returns on the code and stack segments it was called with. -/
structure CFunction (args cells : Nat) (f : Cpu → Cpu) : Prop where
  esp : ∀ c, (f c).regs .esp = c.regs .esp + 4#32
  cs : ∀ c, (f c).cs = c.cs
  ss : ∀ c, (f c).ss = c.ss
  frame : ∀ c i, args ≤ i → i < cells →
    (f c).mem (c.regs .esp + 4#32 + 4#32 * BitVec.ofNat 32 i) =
      c.mem (c.regs .esp + 4#32 + 4#32 * BitVec.ofNat 32 i)

private theorem exists_cellsAt (mem : Dword → Dword) (n : Nat) : ∀ a,
    ∃ us : List Dword, us.length = n ∧ CellsAt mem a us := by
  induction n with
  | zero => exact fun a => ⟨[], rfl, trivial⟩
  | succ n ih =>
      intro a
      obtain ⟨us, hlen, hus⟩ := ih (a + 4#32)
      exact ⟨mem a :: us, by simp [hlen], rfl, hus⟩

theorem Stack.call {c : Cpu} {a : Dword} {us vs : List Dword} {cells : Nat} {f : Cpu → Cpu}
    (h : Stack c a (us ++ vs)) (hf : CFunction us.length cells f) (hlen : us.length + vs.length ≤ cells)
    (hcells : cells < 64) (retAddr : Dword) :
    ∃ us', us'.length = us.length ∧ Stack (f (c.push retAddr)) a (us' ++ vs) := by
  have hesp : (f (c.push retAddr)).regs .esp = c.regs .esp := by
    rw [hf.esp, push_esp]
    bv_omega
  have hback : (c.push retAddr).regs .esp + 4#32 = c.regs .esp := by
    rw [push_esp]
    bv_omega
  have hframe : ∀ i, us.length ≤ i → i < cells →
      (f (c.push retAddr)).mem (c.regs .esp + 4#32 * BitVec.ofNat 32 i) =
        (c.push retAddr).mem (c.regs .esp + 4#32 * BitVec.ofNat 32 i) := by
    intro i hi hi'
    have hcell := hf.frame (c.push retAddr) i hi hi'
    rwa [hback] at hcell
  have hcells₀ := (h.push (by rw [List.length_append]; omega) retAddr).cells.2
  rw [hback] at hcells₀
  obtain ⟨us', hus', hfirst⟩ := exists_cellsAt (f (c.push retAddr)).mem us.length (c.regs .esp)
  refine ⟨us', hus', ?_, ?_⟩
  · rw [hesp, h.top, List.length_append, List.length_append, hus']
  · rw [hesp, cellsAt_append, hus']
    refine ⟨hfirst, (cellsAt_append.mp hcells₀).2.congr fun i hi => ?_⟩
    have hshift : c.regs .esp + 4#32 * BitVec.ofNat 32 us.length + 4#32 * BitVec.ofNat 32 i =
        c.regs .esp + 4#32 * BitVec.ofNat 32 (us.length + i) := by bv_omega
    rw [hshift]
    exact hframe _ (by omega) (by omega)

private theorem Stack.callOne {c : Cpu} {a u : Dword} {vs : List Dword} {cells : Nat}
    {f : Cpu → Cpu}
    (h : Stack c a (u :: vs)) (hf : CFunction 1 cells f) (hlen : vs.length + 1 ≤ cells)
    (hcells : cells < 64) (retAddr : Dword) :
    ∃ u', Stack (f (c.push retAddr)) a (u' :: vs) := by
  obtain ⟨us, hus, hback⟩ := Stack.call (show Stack c a ([u] ++ vs) from h) hf
    (by rw [List.length_singleton]; omega) hcells retAddr
  obtain ⟨u', rfl⟩ := List.length_eq_one_iff.mp hus
  exact ⟨u', hback⟩

section Save

variable {c₀ c : Cpu} {a v : Dword} {vs : List Dword}

/-- The entry code has only pushed so far. -/
structure Pushed (c₀ c : Cpu) (a : Dword) (vs : List Dword) : Prop extends Stack c a vs where
  outside : SameOutside c₀ c a vs.length
  regs : ∀ r, r ≠ .esp → c.regs r = c₀.regs r
  segs : c.segs = c₀.segs
  ports : c.ports = c₀.ports

theorem Pushed.push (h : Pushed c₀ c a vs) (hlen : vs.length < 64) (v : Dword) :
    Pushed c₀ (c.push v) a (v :: vs) where
  toStack := h.toStack.push hlen v
  outside := h.outside.push h.top v
  regs r hr := (Function.update_of_ne hr _ _).trans (h.regs r hr)
  segs := h.segs
  ports := h.ports

private theorem Pushed.pushSeg (h : Pushed c₀ c a vs) (hlen : vs.length < 64) (s : Seg) :
    Pushed c₀ (c.push (c.segs s)) a (c₀.segs s :: vs) := by
  rw [h.segs]
  exact h.push hlen _

private theorem Pushed.pushReg (h : Pushed c₀ c a vs) (hlen : vs.length < 64) {r : Reg}
    (hr : r ≠ .esp) : Pushed c₀ (c.push (c.regs r)) a (c₀.regs r :: vs) := by
  rw [h.regs r hr]
  exact h.push hlen _

/-- What `pushad` and the pushes of the segment registers leave, the last pushed first -/
def savedRegs (f : Reg → Dword) : List Dword :=
  [f .edi, f .esi, f .ebp, f .esp, f .ebx, f .edx, f .ecx, f .eax]

def savedSegs (g : Seg → Dword) : List Dword := [g .gs, g .fs, g .es, g .ds]

private theorem Pushed.pushad (h : Pushed c₀ c a vs) (hlen : vs.length < 32) :
    Pushed c₀ c.pushad a
      (savedRegs (Function.update c₀.regs .esp (c.regs .esp)) ++ vs) := by
  have hregs : c.regs = Function.update c₀.regs .esp (c.regs .esp) := by
    funext r
    by_cases hr : r = .esp
    · rw [hr, Function.update_self]
    · rw [Function.update_of_ne hr, h.regs r hr]
  have h₁ := h.push (by omega) (c.regs .eax)
  have h₂ := h₁.push (by simp; omega) (c.regs .ecx)
  have h₃ := h₂.push (by simp; omega) (c.regs .edx)
  have h₄ := h₃.push (by simp; omega) (c.regs .ebx)
  have h₅ := h₄.push (by simp; omega) (c.regs .esp)
  have h₆ := h₅.push (by simp; omega) (c.regs .ebp)
  have h₇ := h₆.push (by simp; omega) (c.regs .esi)
  have h₈ := h₇.push (by simp; omega) (c.regs .edi)
  rw [← hregs]
  exact h₈

end Save

section Stubs

variable (functions : Dword → Cpu → Cpu) (retAddr : Dword) (aluFlags : Dword → Dword → Dword)
  {c₀ c : Cpu} {a v code : Dword} {vs : List Dword}

private theorem run_append (c : Cpu) (is js : List Instr) :
    run functions retAddr aluFlags c (is ++ js) =
      run functions retAddr aluFlags (run functions retAddr aluFlags c is) js :=
  List.foldl_append

theorem Pushed.saveContext (h : Pushed c₀ c a vs) (hlen : vs.length < 28) :
    ∃ esp, Pushed c₀ (run functions retAddr aluFlags c saveContext) a
        (savedRegs (Function.update c₀.regs .esp esp) ++ (savedSegs c₀.segs ++ vs)) ∧
      (run functions retAddr aluFlags c saveContext).cs = c.cs ∧
      (run functions retAddr aluFlags c saveContext).ss = c.ss := by
  have h₁ := h.pushSeg (by omega) .ds
  have h₂ := h₁.pushSeg (by simp; omega) .es
  have h₃ := h₂.pushSeg (by simp; omega) .fs
  have h₄ := h₃.pushSeg (by simp; omega) .gs
  have hpushed := h₄.pushad (by simp; omega)
  simp only [run, Entry.saveContext, List.foldl_cons, List.foldl_nil, exec]
  exact ⟨_, hpushed, rfl, rfl⟩

/-- The words that `iretd` takes -/
def frame (c : Cpu) : List Dword :=
  [c.eip, c.cs, c.eflags] ++ if c.cs &&& 3#32 = 0#32 then [] else [c.regs .esp, c.ss]

/-- Where the stack of the handler begins -/
def bottom (esp0 : Dword) (c : Cpu) : Dword :=
  if c.cs &&& 3#32 = 0#32 then c.regs .esp else esp0

private theorem frame_length (c : Cpu) : (frame c).length ≤ 5 := by
  rw [frame]
  split <;> simp

private theorem restoreContext_spec {f : Reg → Dword} {g : Seg → Dword}
    (h : Stack c a (savedRegs f ++ (savedSegs g ++ (code :: frame c₀))))
    (hcs : c.cs &&& 3#32 = 0#32) :
    run functions retAddr aluFlags c restoreContext =
      { c with
        regs := Function.update f .esp (if c₀.cs &&& 3#32 = 0#32 then a else c₀.regs .esp)
        segs := g
        eip := c₀.eip
        cs := c₀.cs
        eflags := c₀.eflags
        ss := if c₀.cs &&& 3#32 = 0#32 then c.ss else c₀.ss } := by
  have hcells := h.cells
  simp only [savedRegs, savedSegs, frame, List.cons_append, List.nil_append, CellsAt,
    BitVec.add_assoc, BitVec.reduceAdd] at hcells
  have htop := h.top
  simp only [savedRegs, savedSegs, frame, List.length_append, List.length_cons, List.length_nil]
    at htop
  simp only [run, restoreContext, List.foldl_cons, List.foldl_nil, exec, Cpu.popad, Cpu.pop,
    Cpu.popSeg, Cpu.addEsp, Cpu.set, Cpu.iretd, hcs]
  by_cases hring : c₀.cs &&& 3#32 = 0#32
  · rw [if_pos hring] at hcells htop
    have hesp : c.regs .esp + 64#32 = a := by
      rw [htop, List.length_nil]
      bv_omega
    simp only [BitVec.add_assoc, Function.update_self, Function.update_of_ne, BitVec.reduceAdd,
      hcells, hring, ne_eq, reduceCtorEq, not_false_eq_true, if_true]
    simp only [hesp, Cpu.mk.injEq, and_true]
    constructor
    · funext r
      cases r <;> simp
    · funext s
      cases s <;> simp
  · rw [if_neg hring] at hcells
    simp only [CellsAt, BitVec.add_assoc, BitVec.reduceAdd] at hcells
    simp only [BitVec.add_assoc, Function.update_self, Function.update_of_ne, BitVec.reduceAdd,
      hcells, hring, ne_eq, reduceCtorEq, not_false_eq_true, if_false, Cpu.mk.injEq, and_true]
    constructor
    · funext r
      cases r <;> simp
    · funext s
      cases s <;> simp

private theorem pushed_nil (c : Cpu) : Pushed c c (c.regs .esp) [] where
  top := by simp
  cells := trivial
  outside _ _ := rfl
  regs _ _ := rfl
  segs := rfl
  ports := rfl

private theorem deliver_spec (c : Cpu) (esp0 : Dword) (g : GateDesc) (errorCode : Option Dword) :
    Pushed c (deliver esp0 g errorCode c) (bottom esp0 c) (errorCode.toList ++ frame c) ∧
    (deliver esp0 g errorCode c).cs = g.selector.setWidth 32 ∧
    (c.cs &&& 3#32 = 0#32 → (deliver esp0 g errorCode c).ss = c.ss) := by
  have hentry : ∃ d, Pushed c d (bottom esp0 c) (frame c) ∧ (c.cs &&& 3#32 = 0#32 → d.ss = c.ss) ∧
      deliver esp0 g errorCode c =
        { errorCode.elim d d.push with
          cs := g.selector.setWidth 32
          eip := g.offset
          eflags := c.eflags &&& ~~~0x34300#32 } := by
    by_cases hring : c.cs &&& 3#32 = 0#32
    · have h := (((pushed_nil c).push (by simp) c.eflags).push (by simp) c.cs).push (by simp) c.eip
      refine ⟨((c.push c.eflags).push c.cs).push c.eip, ?_, fun _ => ?_, ?_⟩
      · rw [bottom, frame, if_pos hring, if_pos hring]
        exact h
      · rfl
      · simp only [deliver, if_pos hring]
        cases errorCode <;> rfl
    · let d : Cpu := { c.set .esp esp0 with ss := selectorKStack.setWidth 32 }
      have hd : Pushed c d esp0 [] := by
        refine ⟨⟨by simp [d, Cpu.set], trivial⟩, fun _ _ => rfl, ?_, rfl, rfl⟩
        intro r hr
        exact Function.update_of_ne hr _ _
      have h := ((((hd.push (by simp) c.ss).push (by simp) (c.regs .esp)).push (by simp)
        c.eflags).push (by simp) c.cs).push (by simp) c.eip
      refine ⟨((((d.push c.ss).push (c.regs .esp)).push c.eflags).push c.cs).push c.eip, ?_,
        fun h => absurd h hring, ?_⟩
      · rw [bottom, frame, if_neg hring, if_neg hring]
        exact h
      · simp only [deliver, if_neg hring]
        cases errorCode <;> rfl
  obtain ⟨d, hd, hss, heq⟩ := hentry
  rw [heq]
  cases errorCode with
  | none => exact ⟨⟨⟨hd.top, hd.cells⟩, hd.outside, hd.regs, hd.segs, hd.ports⟩, rfl, hss⟩
  | some code =>
      have h := hd.push (by have := frame_length c; omega) code
      exact ⟨⟨⟨h.top, h.cells⟩, h.outside, h.regs, h.segs, h.ports⟩, rfl, hss⟩

end Stubs

section Gates

variable (L : Labels) (behind : Dword)

/-- The `VECTOR` line whose entry point is in gate `v` -/
def lineOf (v : Nat) : Nat := if v < 0x60 then v else v + 1

private theorem lineOf_mem {v : Nat} (hv : v < 0x80) : lineOf v ∈ vectorLines := by
  rw [lineOf, vectorLines, List.mem_append, List.mem_range, List.mem_range']
  split
  · exact .inl ‹_›
  · exact .inr ⟨v - 0x60, by omega, by omega⟩

private theorem vectorLines_get {v : Nat} (hv : v < 0x80) : vectorLines[v]? = some (lineOf v) := by
  rw [vectorLines, lineOf]
  split
  · rw [List.getElem?_append_left (by simpa), List.getElem?_range ‹_›]
  · rw [List.getElem?_append_right (by simp; omega), List.length_range, List.getElem?_range' (by omega)]
    congr 1
    omega

private theorem idt_vector {v : Nat} (hv : v < 0x80) :
    (idtDescInit L behind)[v]? = some (makeIdtDesc (idtDescAttr 0) (L.entry (lineOf v))) := by
  rw [idtDescInit, List.getElem?_set_ne (by rw [idtDescCnt]; omega), List.getElem?_map,
    List.getElem?_range (by rw [idtDescCnt]; omega), Option.map_some, intrEntryTable, List.getD,
    List.getElem?_map, vectorLines_get hv]
  rfl

private theorem idt_syscall : (idtDescInit L behind)[0x80]? =
    some (makeIdtDesc (idtDescAttr 3) L.syscallHandler) := by
  rw [idtDescInit]
  exact List.getElem?_set_self (by simp [idtDescCnt])

private theorem codeAt_entry (idtTable syscallTable : Dword) {v : Nat} (hv : v ∈ vectorLines) :
    codeAt L idtTable syscallTable (L.entry v) = vectorEntry idtTable v := by
  have hfind : vectorLines.find? (fun w => L.entry w = L.entry v) = some v := by
    cases h : vectorLines.find? fun w => L.entry w = L.entry v with
    | none =>
        have hnone := List.find?_eq_none.mp h v hv
        simp at hnone
    | some w =>
        have hw := List.mem_of_find?_eq_some h
        have heq : L.entry w = L.entry v := by simpa using List.find?_some h
        rw [L.distinct w hw v hv heq]
  rw [codeAt, if_neg (L.apart v hv), hfind]

end Gates

section Samples

private theorem vectorLines_le (v : Nat) (hv : v ∈ vectorLines) : v ≤ 0x80 := by
  rcases List.mem_append.mp hv with hv | hv
  · have hlt := List.mem_range.mp hv
    omega
  · obtain ⟨i, hi, rfl⟩ := List.mem_range'.mp hv
    omega

/-- Entry points 64 bytes apart, and a function that returns its first argument -/
def spacedLabels : Labels where
  entry v := BitVec.ofNat 32 (0x1000 + 64 * v)
  syscallHandler := 0x100
  distinct v hv w hw h := by
    have hv' := vectorLines_le v hv
    have hw' := vectorLines_le w hw
    have hnat := congrArg BitVec.toNat h
    simp only [BitVec.toNat_ofNat] at hnat
    omega
  apart v hv h := by
    have hv' := vectorLines_le v hv
    have hnat : (4096 + 64 * v) % 2 ^ 32 = 256 := congrArg BitVec.toNat h
    omega

def firstArgument (c : Cpu) : Cpu := (c.addEsp 4#32).set .eax (c.mem (c.regs .esp + 4#32))

private theorem firstArgument_function (args cells : Nat) : CFunction args cells firstArgument where
  esp c := by simp [firstArgument, Cpu.addEsp, Cpu.set]
  cs _ := rfl
  ss _ := rfl
  frame _ _ _ _ := rfl

/-- A process about to make system call 1 with argument 7 -/
def userTask : Cpu where
  regs := Function.update (Function.update (fun _ => 0) .eax 1) .ebx 7
  segs _ := 0x33
  eip := 0x8048000
  cs := 0x2b
  eflags := 0x202
  ss := 0x33
  mem _ := 0
  ports := []

end Samples

section Transparent

variable (functions : Dword → Cpu → Cpu) (retAddr : Dword) (aluFlags : Dword → Dword → Dword)
  {idtTable syscallTable : Dword} {esp0 : Dword} {c : Cpu}

/-- The words of the stack are apart from the cell at `x`. -/
def ApartFrom (a x : Dword) : Prop := ∀ i < 32, x ≠ a - 4#32 * BitVec.ofNat 32 (i + 1)

theorem ApartFrom.same {c₀ d : Cpu} {a x : Dword} {n : Nat} (h : ApartFrom a x)
    (hd : SameOutside c₀ d a n) (hn : n ≤ 32) : d.mem x = c₀.mem x :=
  hd x fun i hi => h i (by omega)

theorem intrExit_spec {d : Cpu} {vector code : Dword} {f : Reg → Dword} {g : Seg → Dword}
    (h : Stack d (bottom esp0 c) (vector :: (savedRegs f ++ (savedSegs g ++ (code :: frame c)))))
    (hcs : d.cs = selectorKCode.setWidth 32) (hss : c.cs &&& 3#32 = 0#32 → d.ss = c.ss) :
    run functions retAddr aluFlags d intrExit =
      { c with
        regs := Function.update f .esp (c.regs .esp)
        segs := g
        mem := d.mem
        ports := d.ports } := by
  obtain ⟨htop, hcells⟩ := Stack.drop (show Stack d _ ([vector] ++ _) from h) (n := 4#32) rfl
  let e : Cpu := { d.addEsp 4#32 with eflags := aluFlags (d.regs .esp) 4#32 }
  have hesp : e.regs .esp = d.regs .esp + 4#32 := by simp [e, Cpu.addEsp, Cpu.set]
  have he : Stack e (bottom esp0 c) (savedRegs f ++ (savedSegs g ++ (code :: frame c))) := by
    refine ⟨?_, ?_⟩
    · rw [hesp]
      exact htop
    · rw [hesp]
      exact hcells
  have hkernel : e.cs &&& 3#32 = 0#32 := by
    change d.cs &&& 3#32 = 0#32
    rw [hcs]
    decide
  have hrun := restoreContext_spec functions retAddr aluFlags he hkernel
  rw [intrExit, run, List.foldl_cons]
  change run functions retAddr aluFlags e restoreContext = _
  rw [hrun, bottom]
  by_cases hring : c.cs &&& 3#32 = 0#32
  · simp only [hring, if_true]
    rw [show e.ss = c.ss from hss hring]
    rfl
  · simp only [hring, if_false]
    rfl

/-- The error code slot below the frame -/
def codeCell (v : Nat) (code : Dword) : Dword := if v ∈ errVectors then code else 0

/-- The stack is the same for both kinds of lines once the missing error code is made up for. -/
private theorem padded_spec (c : Cpu) (esp0 : Dword) (attr : Byte) (a : Dword) (v : Nat)
    (code : Dword) : ∃ d, run functions retAddr aluFlags (deliver esp0 (makeIdtDesc attr a)
        (if v ∈ errVectors then some code else none) c)
        (if v ∈ errVectors then [] else [Instr.pushImm 0#32]) = d ∧
      Pushed c d (bottom esp0 c) (codeCell v code :: frame c) ∧
      d.cs = selectorKCode.setWidth 32 ∧ (c.cs &&& 3#32 = 0#32 → d.ss = c.ss) := by
  obtain ⟨hpushed, hcs, hss⟩ := deliver_spec c esp0 (makeIdtDesc attr a)
    (if v ∈ errVectors then some code else none)
  have hlen := frame_length c
  by_cases herr : v ∈ errVectors
  · rw [if_pos herr] at hpushed hcs hss
    rw [if_pos herr, if_pos herr, codeCell, if_pos herr]
    exact ⟨_, rfl, hpushed, hcs, hss⟩
  · rw [if_neg herr] at hpushed hcs hss
    rw [if_neg herr, if_neg herr, codeCell, if_neg herr]
    exact ⟨_, rfl, hpushed.push (by rw [Option.toList_none, List.nil_append]; omega) 0#32, hcs, hss⟩

private theorem entered_spec (c : Cpu) (esp0 : Dword) (attr : Byte) (a : Dword) (v : Nat)
    (code : Dword) : ∃ e esp, run functions retAddr aluFlags (deliver esp0 (makeIdtDesc attr a)
        (if v ∈ errVectors then some code else none) c)
        ((if v ∈ errVectors then [] else [Instr.pushImm 0#32]) ++ saveContext) = e ∧
      Pushed c e (bottom esp0 c) (savedRegs (Function.update c.regs .esp esp) ++
        (savedSegs c.segs ++ (codeCell v code :: frame c))) ∧
      e.cs = selectorKCode.setWidth 32 ∧ (c.cs &&& 3#32 = 0#32 → e.ss = c.ss) := by
  obtain ⟨d, hpad, hd, hcs, hss⟩ := padded_spec functions retAddr aluFlags c esp0 attr a v code
  have hlen := frame_length c
  obtain ⟨esp, hsaved, hcs', hss'⟩ := hd.saveContext functions retAddr aluFlags
    (by rw [List.length_cons]; omega)
  refine ⟨_, esp, rfl, ?_⟩
  rw [run_append, hpad]
  exact ⟨hsaved, hcs'.trans hcs, fun hring => hss'.trans (hss hring)⟩

private theorem saved_length (c : Cpu) (f : Reg → Dword) (code : Dword) :
    (savedRegs f ++ (savedSegs c.segs ++ (code :: frame c))).length ≤ 18 := by
  have hlen := frame_length c
  simp only [savedRegs, savedSegs, List.length_append, List.length_cons, List.length_nil]
  omega

private theorem callExit_spec {x : Cpu} {esp vector code : Dword} {f : Cpu → Cpu}
    (hx : Stack x (bottom esp0 c) (vector :: (savedRegs (Function.update c.regs .esp esp) ++
      (savedSegs c.segs ++ (code :: frame c)))))
    (hf : CFunction 1 19 f) (hcs : x.cs = selectorKCode.setWidth 32)
    (hss : c.cs &&& 3#32 = 0#32 → x.ss = c.ss) :
    run functions retAddr aluFlags (f (x.push retAddr)) intrExit =
      { c with
        mem := (f (x.push retAddr)).mem
        ports := (f (x.push retAddr)).ports } := by
  have hlen := saved_length c (Function.update c.regs .esp esp) code
  obtain ⟨arg, hback⟩ := hx.callOne hf (by omega) (by omega) retAddr
  rw [intrExit_spec functions retAddr aluFlags hback ((hf.cs _).trans hcs)
    fun hring => (hf.ss _).trans (hss hring), Function.update_idem, Function.update_eq_self]

private theorem commands_spec {e : Cpu} {vs : List Dword} (he : Pushed c e (bottom esp0 c) vs) :
    ∃ x, run functions retAddr aluFlags e
        [Instr.movAl 0x20#8, Instr.out 0xa0#32, Instr.out 0x20#32] = x ∧
      Stack x (bottom esp0 c) vs ∧ SameOutside c x (bottom esp0 c) vs.length ∧
      x.ports = (0x20#32, 0x20#8) :: (0xa0#32, 0x20#8) :: c.ports ∧ x.cs = e.cs ∧ x.ss = e.ss := by
  let x : Cpu := { e.set .eax ((e.regs .eax &&& ~~~0xff#32) ||| (0x20#8).setWidth 32) with
    ports := (0x20#32, 0x20#8) :: (0xa0#32, 0x20#8) :: c.ports }
  refine ⟨x, ?_, ⟨?_, ?_⟩, he.outside, rfl, rfl, rfl⟩
  · simp [run, exec, x, Cpu.set, he.ports]
  · simpa [x, Cpu.set] using he.top
  · simpa [x, Cpu.set] using he.cells

/-- Every vector below `0x80` calls the function of its `VECTOR` line with the number of that line,
tells both interrupt controllers, and returns with nothing of the interrupted task changed but what
that function did to memory.  From `0x60` on the line is that of the next vector. -/
theorem interrupt_transparent (L : Labels) (behind : Dword) {v : Nat} (hv : v < 0x80) (code : Dword)
    (hf : CFunction 1 19 (functions (c.mem (idtTable + BitVec.ofNat 32 (lineOf v) * 4#32))))
    (hapart : ApartFrom (bottom esp0 c) (idtTable + BitVec.ofNat 32 (lineOf v) * 4#32)) :
    ∃ called : Cpu, CellsAt called.mem (called.regs .esp) [retAddr, BitVec.ofNat 32 (lineOf v)] ∧
      called.ports = (0x20#32, 0x20#8) :: (0xa0#32, 0x20#8) :: c.ports ∧
      interrupt functions retAddr aluFlags L behind idtTable syscallTable esp0 v
        (if lineOf v ∈ errVectors then some code else none) c =
          some { c with
            mem := (functions (c.mem (idtTable + BitVec.ofNat 32 (lineOf v) * 4#32)) called).mem
            ports := (functions (c.mem (idtTable + BitVec.ofNat 32 (lineOf v) * 4#32)) called).ports } := by
  have hmem := lineOf_mem hv
  rw [interrupt, idt_vector L behind hv, Option.map_some, makeIdtDesc_offset,
    codeAt_entry L idtTable syscallTable hmem]
  generalize lineOf v = w at hf hapart hmem ⊢
  obtain ⟨e, esp, hentered, he, hcs, hss⟩ := entered_spec functions retAddr aluFlags c esp0
    (idtDescAttr 0) (L.entry w) w code
  obtain ⟨x, hcommands, hx, hout, hports, hcs', hss'⟩ := commands_spec functions retAddr aluFlags he
  have hlen := saved_length c (Function.update c.regs .esp esp) (codeCell w code)
  have hvector := hx.push (by omega) (BitVec.ofNat 32 w)
  have hcell := hapart.same (hout.push hx.top (BitVec.ofNat 32 w)) (by omega)
  have hcells := (hvector.push (by rw [List.length_cons]; omega) retAddr).cells
  have hexit := callExit_spec functions retAddr aluFlags hvector hf (hcs'.trans hcs)
    fun hring => hss'.trans (hss hring)
  refine ⟨(x.push (BitVec.ofNat 32 w)).push retAddr, ⟨hcells.1, hcells.2.1, trivial⟩, hports, ?_⟩
  have hcode : vectorEntry idtTable w =
      ((if w ∈ errVectors then [] else [Instr.pushImm 0#32]) ++ saveContext) ++
        ([Instr.movAl 0x20#8, Instr.out 0xa0#32, Instr.out 0x20#32] ++
          ([Instr.pushImm (BitVec.ofNat 32 w), Instr.call (idtTable + BitVec.ofNat 32 w * 4#32)] ++
            intrExit)) := by
    simp [vectorEntry]
  have hcall : run functions retAddr aluFlags x
      [Instr.pushImm (BitVec.ofNat 32 w), Instr.call (idtTable + BitVec.ofNat 32 w * 4#32)] =
        functions (c.mem (idtTable + BitVec.ofNat 32 w * 4#32))
          ((x.push (BitVec.ofNat 32 w)).push retAddr) := by
    rw [← hcell]
    rfl
  rw [hcode, run_append, hentered, run_append, hcommands, run_append, hcall, hexit]

theorem interrupt_transparent_clock : ∃ m p,
    interrupt (fun _ => firstArgument) 0 (fun _ _ => 0) spacedLabels 0 0xc0020000 0xc0021000
      0xc009f000 0x20 none userTask = some { userTask with mem := m, ports := p } := by
  obtain ⟨_, _, _, h⟩ := @interrupt_transparent (fun _ => firstArgument) 0 (fun _ _ => 0) 0xc0020000
    0xc0021000 0xc009f000 userTask spacedLabels 0 0x20 (by decide) 0 (firstArgument_function 1 19) (by unfold ApartFrom; decide)
  exact ⟨_, _, h⟩

end Transparent

section SystemCall

variable (functions : Dword → Cpu → Cpu) (retAddr : Dword) (aluFlags : Dword → Dword → Dword)
  (L : Labels) (behind idtTable syscallTable esp0 : Dword)

/-- `int v`; nothing when the gate is closed to the code and the processor refuses. -/
def softInt (v : Nat) (c : Cpu) : Option Cpu :=
  (idtDescInit L behind)[v]?.bind fun g =>
    if (c.cs &&& 3#32).toNat ≤ g.dpl.toNat then
      interrupt functions retAddr aluFlags L behind idtTable syscallTable esp0 v none c
    else none

/-- Where `pushad` puts `eax` -/
def eaxCell (esp0 : Dword) (c : Cpu) : Dword :=
  bottom esp0 c - 4#32 * BitVec.ofNat 32 ((frame c).length + 6)

private theorem softInt_closed {c : Cpu} (hring : c.cs &&& 3#32 ≠ 0#32) {v : Nat} (hv : v ≠ 0x80) :
    softInt functions retAddr aluFlags L behind idtTable syscallTable esp0 v c = none := by
  rw [softInt]
  by_cases hlow : v < 0x80
  · have hclosed : ¬ (c.cs &&& 3#32).toNat ≤ (makeIdtDesc (idtDescAttr 0) (L.entry (lineOf v))).dpl.toNat := by
      have hdpl : (makeIdtDesc (idtDescAttr 0) (L.entry (lineOf v))).dpl = 0 := by
        simp only [GateDesc.dpl, makeIdtDesc]
        decide
      rw [hdpl]
      simpa [BitVec.toNat_eq] using hring
    rw [idt_vector L behind hlow, Option.bind_some, if_neg hclosed]
  · have hlen : (idtDescInit L behind)[v]? = none := by
      apply List.getElem?_eq_none
      simp only [idtDescInit, List.length_set, List.length_map, List.length_range, idtDescCnt]
      omega
    rw [hlen, Option.bind_none]

variable {esp0} {c : Cpu}

theorem arguments_spec (c : Cpu) (esp0 : Dword) (attr : Byte) (a : Dword) :
    ∃ x esp, run functions retAddr aluFlags (deliver esp0 (makeIdtDesc attr a) none c)
        ([Instr.pushImm 0#32] ++ (saveContext ++ [Instr.pushImm 0x80#32, Instr.push .edx,
          Instr.push .ecx, Instr.push .ebx])) = x ∧
      Pushed c x (bottom esp0 c) ([c.regs .ebx, c.regs .ecx, c.regs .edx] ++ (0x80#32 ::
        (savedRegs (Function.update c.regs .esp esp) ++ (savedSegs c.segs ++ (0#32 :: frame c))))) ∧
      x.cs = selectorKCode.setWidth 32 ∧ (c.cs &&& 3#32 = 0#32 → x.ss = c.ss) := by
  obtain ⟨hpushed, hcs, hss⟩ := deliver_spec c esp0 (makeIdtDesc attr a) none
  rw [Option.toList_none, List.nil_append] at hpushed
  have hlen := frame_length c
  have hzero := hpushed.push (by omega) 0#32
  obtain ⟨esp, hsaved, hcs', hss'⟩ := hzero.saveContext functions retAddr aluFlags
    (by rw [List.length_cons]; omega)
  have hstack := saved_length c (Function.update c.regs .esp esp) 0#32
  obtain ⟨e, he⟩ : ∃ e, run functions retAddr aluFlags
      ((deliver esp0 (makeIdtDesc attr a) none c).push 0#32) saveContext = e := ⟨_, rfl⟩
  rw [he] at hsaved hcs' hss'
  have hrun : ∀ pushes, run functions retAddr aluFlags (deliver esp0 (makeIdtDesc attr a) none c)
      ([Instr.pushImm 0#32] ++ (saveContext ++ pushes)) = run functions retAddr aluFlags e pushes := by
    intro pushes
    rw [← he, run_append, run_append]
    rfl
  rw [hrun]
  refine ⟨_, esp, rfl, ?_⟩
  generalize savedRegs (Function.update c.regs .esp esp) ++ (savedSegs c.segs ++ (0#32 :: frame c)) =
    saved at hsaved hstack ⊢
  have hvector := hsaved.push (by omega) 0x80#32
  have hedx := hvector.pushReg (by simp only [List.length_cons]; omega) (r := .edx) (by decide)
  have hecx := hedx.pushReg (by simp only [List.length_cons]; omega) (r := .ecx) (by decide)
  have hebx := hecx.pushReg (by simp only [List.length_cons]; omega) (r := .ebx) (by decide)
  exact ⟨hebx, hcs'.trans hcs, fun hring => hss'.trans (hss hring)⟩

private theorem result_spec {y : Cpu} {esp b₁ b₂ b₃ vector code : Dword}
    (hy : Stack y (bottom esp0 c) ([b₁, b₂, b₃] ++ (vector ::
      (savedRegs (Function.update c.regs .esp esp) ++ (savedSegs c.segs ++ (code :: frame c))))))
    (hcs : y.cs = selectorKCode.setWidth 32) (hss : c.cs &&& 3#32 = 0#32 → y.ss = c.ss) :
    run functions retAddr aluFlags y ([Instr.addEsp 12#32, Instr.storeEax 32#32] ++ intrExit) =
      { c with
        regs := Function.update c.regs .eax (y.regs .eax)
        mem := Function.update y.mem (eaxCell esp0 c) (y.regs .eax)
        ports := y.ports } := by
  obtain ⟨htop, hcells⟩ := hy.drop (n := 12#32) rfl
  let z : Cpu := { y.addEsp 12#32 with eflags := aluFlags (y.regs .esp) 12#32 }
  have hesp : z.regs .esp = y.regs .esp + 12#32 := by simp [z, Cpu.addEsp, Cpu.set]
  have heax : z.regs .eax = y.regs .eax := by simp [z, Cpu.addEsp, Cpu.set]
  have hz : Stack z (bottom esp0 c) ([vector, c.regs .edi, c.regs .esi, c.regs .ebp, esp, c.regs .ebx,
      c.regs .edx, c.regs .ecx] ++ c.regs .eax :: (savedSegs c.segs ++ (code :: frame c))) := by
    refine ⟨?_, ?_⟩
    · rw [hesp]
      exact htop
    · rw [hesp]
      exact hcells
  have hlen := frame_length c
  have hstore := hz.store (by simp [savedSegs]; omega) (n := 32#32) (w := y.regs .eax) rfl
  have hcell : z.regs .esp + 32#32 = eaxCell esp0 c := by
    rw [hz.top, eaxCell]
    simp only [savedSegs, List.length_append, List.length_cons, List.length_nil]
    bv_omega
  rw [run_append]
  have hrun : run functions retAddr aluFlags y [Instr.addEsp 12#32, Instr.storeEax 32#32] =
      { z with mem := Function.update z.mem (z.regs .esp + 32#32) (y.regs .eax) } := by
    rw [← heax]
    rfl
  rw [hrun]
  have hresult : Stack { z with mem := Function.update z.mem (z.regs .esp + 32#32) (y.regs .eax) }
      (bottom esp0 c) (vector :: (savedRegs (Function.update (Function.update c.regs .esp esp) .eax
        (y.regs .eax)) ++ (savedSegs c.segs ++ (code :: frame c)))) := by
    simpa [savedRegs] using hstore
  rw [intrExit_spec functions retAddr aluFlags hresult hcs hss, hcell,
    Function.update_comm (by decide : Reg.eax ≠ .esp), Function.update_idem, Function.update_eq_self]
  rfl

/-- From a process the gate of the system calls alone is open.  Through it the function of the number
in `eax` is called with `ebx`, `ecx` and `edx`, on the kernel's code segment; its result comes back
in `eax`, and nothing else of the process is changed but what the function did to memory, the
interrupt controllers being left alone. -/
theorem system_call
    (hf : CFunction 3 22 (functions (c.mem (syscallTable + c.regs .eax * 4#32))))
    (hapart : ApartFrom (bottom esp0 c) (syscallTable + c.regs .eax * 4#32)) :
    (c.cs &&& 3#32 ≠ 0#32 → ∀ v ≠ 0x80,
      softInt functions retAddr aluFlags L behind idtTable syscallTable esp0 v c = none) ∧
    ∃ called y : Cpu,
      CellsAt called.mem (called.regs .esp) [retAddr, c.regs .ebx, c.regs .ecx, c.regs .edx] ∧
      called.cs = selectorKCode.setWidth 32 ∧ called.ports = c.ports ∧
      y = functions (c.mem (syscallTable + c.regs .eax * 4#32)) called ∧
      softInt functions retAddr aluFlags L behind idtTable syscallTable esp0 0x80 c =
        some { c with
          regs := Function.update c.regs .eax (y.regs .eax)
          mem := Function.update y.mem (eaxCell esp0 c) (y.regs .eax)
          ports := y.ports } := by
  refine ⟨fun hring v hv => softInt_closed functions retAddr aluFlags L behind idtTable syscallTable
    esp0 hring hv, ?_⟩
  obtain ⟨x, esp, hargs, hx, hcs, hss⟩ := arguments_spec functions retAddr
    aluFlags c esp0 (idtDescAttr 3) L.syscallHandler
  have hlen := saved_length c (Function.update c.regs .esp esp) 0#32
  obtain ⟨saved, hsaved⟩ : ∃ saved, savedRegs (Function.update c.regs .esp esp) ++
    (savedSegs c.segs ++ (0#32 :: frame c)) = saved := ⟨_, rfl⟩
  rw [hsaved] at hx hlen
  have hcell : x.mem (syscallTable + c.regs .eax * 4#32) = c.mem (syscallTable + c.regs .eax * 4#32) :=
    hapart.same hx.outside (by simp only [List.length_append, List.length_cons, List.length_nil]; omega)
  have heax : x.regs .eax = c.regs .eax := hx.regs .eax (by decide)
  have hcalled := hx.push (by simp only [List.length_append, List.length_cons, List.length_nil]; omega)
    retAddr
  obtain ⟨bs, hbs, hback⟩ := hx.toStack.call hf
    (by simp only [List.length_cons, List.length_nil]; omega) (by omega) retAddr
  obtain ⟨b₁, b₂, b₃, rfl⟩ := List.length_eq_three.mp hbs
  rw [← hsaved] at hback
  have hresult := result_spec functions retAddr aluFlags hback ((hf.cs _).trans hcs) fun hring => (hf.ss _).trans (hss hring)
  refine ⟨x.push retAddr, _, ⟨hcalled.cells.1, hcalled.cells.2.1, hcalled.cells.2.2.1,
    hcalled.cells.2.2.2.1, trivial⟩, hcs, hx.ports, rfl, ?_⟩
  have hcode : codeAt L idtTable syscallTable L.syscallHandler =
      ([Instr.pushImm 0#32] ++ (saveContext ++ [Instr.pushImm 0x80#32, Instr.push .edx,
        Instr.push .ecx, Instr.push .ebx])) ++ ([Instr.callIndexed syscallTable] ++
          ([Instr.addEsp 12#32, Instr.storeEax 32#32] ++ intrExit)) := by
    rw [codeAt, if_pos rfl]
    rfl
  have hcall : run functions retAddr aluFlags x [Instr.callIndexed syscallTable] =
      functions (c.mem (syscallTable + c.regs .eax * 4#32)) (x.push retAddr) := by
    rw [← hcell, ← heax]
    rfl
  have hopen : (c.cs &&& 3#32).toNat ≤ (makeIdtDesc (idtDescAttr 3) L.syscallHandler).dpl.toNat := by
    have hdpl : (makeIdtDesc (idtDescAttr 3) L.syscallHandler).dpl = 3 := by
      simp only [GateDesc.dpl, makeIdtDesc]
      decide
    rw [hdpl, BitVec.toNat_and]
    exact Nat.and_le_right
  rw [softInt, idt_syscall, Option.bind_some, if_pos hopen, interrupt, idt_syscall, Option.map_some,
    makeIdtDesc_offset, hcode, run_append, hargs, run_append, hcall, hresult]

theorem system_call_first : ∃ m,
    softInt (fun _ => firstArgument) 0 (fun _ _ => 0) spacedLabels 0 0xc0020000 0xc0021000
      0xc009f000 0x80 userTask =
        some { userTask with regs := Function.update userTask.regs .eax 7, mem := m } := by
  obtain ⟨called, y, hcells, _, hports, rfl, h⟩ := (@system_call (fun _ => firstArgument) 0
    (fun _ _ => 0) spacedLabels 0 0xc0020000 0xc0021000 0xc009f000 userTask
    (firstArgument_function 3 22) (by unfold ApartFrom; decide)).2
  have hresult : (firstArgument called).regs .eax = 7 := by
    simp only [firstArgument, Cpu.set, Function.update_self]
    exact hcells.2.1
  rw [hresult] at h
  have hsame : (firstArgument called).ports = [] := hports
  rw [hsame] at h
  exact ⟨_, h⟩

end SystemCall

end Entry

end Aitos.Arch
