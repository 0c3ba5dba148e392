import Aitos.Framework.Run

/-!
# Task switches

`switch_to` of `arch/x86/switch.asm` instruction by instruction, and the two places that build the
stack it resumes: `thread_create` in `sched/thread.c` and `build_child_stack` in `proc/fork.c`.
The PCB of a task is at the bottom of a page and its kernel stack grows down from the top of the
same page.  Between two switches the running task sets registers and stores words as it likes,
except into what the others keep on their stacks.
-/

namespace Aitos.Proc.Switch

open Framework

abbrev Word := BitVec 32

inductive Reg where
  | eax | ebx | esi | edi | ebp | esp
  deriving DecidableEq, Repr

/-- Memory is kept in four-byte cells: everything here moves whole words at aligned addresses. -/
structure Cpu where
  regs : Reg → Word
  eip : Word
  mem : Word → Word

namespace Cpu

def set (c : Cpu) (r : Reg) (v : Word) : Cpu := { c with regs := Function.update c.regs r v }

def store (c : Cpu) (a v : Word) : Cpu := { c with mem := Function.update c.mem a v }

def push (c : Cpu) (v : Word) : Cpu :=
  (c.store (c.regs .esp - 4#32) v).set .esp (c.regs .esp - 4#32)

def pop (c : Cpu) (r : Reg) : Cpu :=
  (c.set .esp (c.regs .esp + 4#32)).set r (c.mem (c.regs .esp))

end Cpu

inductive Instr where
  | push (r : Reg)
  | pop (r : Reg)
  | load (r base : Reg) (disp : Word)  -- `mov r, [base+disp]`
  | store (base r : Reg)               -- `mov [base], r`
  | ret
  deriving DecidableEq, Repr

def exec (c : Cpu) : Instr → Cpu
  | .push r => c.push (c.regs r)
  | .pop r => c.pop r
  | .load r base disp => c.set r (c.mem (c.regs base + disp))
  | .store base r => c.store (c.regs base) (c.regs r)
  | .ret => { c.set .esp (c.regs .esp + 4#32) with eip := c.mem (c.regs .esp) }

/-- Save the context of the current task. -/
def saveContext : List Instr :=
  [.push .esi, .push .edi, .push .ebx, .push .ebp, .load .eax .esp 20#32, .store .eax .esp]

/-- Resume the context of the next task. -/
def resumeContext : List Instr :=
  [.load .eax .esp 24#32, .load .esp .eax 0#32, .pop .ebp, .pop .ebx, .pop .edi, .pop .esi, .ret]

def switchTo : List Instr := saveContext ++ resumeContext

def pgSize : Word := 4096#32

/-- `addr & 0xfffff000`: the page, and for a stack pointer the PCB, as in `running_thread`. -/
def pageOf (a : Word) : Word := a &&& 0xfffff000#32

/-- `sizeof(struct task_struct)`, `sizeof(struct intr_stack)`, `sizeof(struct thread_stack)`. -/
def taskStructSize : Word := 280#32

def intrStackSize : Word := 76#32

def threadStackSize : Word := 32#32

/-- How a task that does not run is going to go on.  `returns` holds the registers and the memory
when it called `switch_to`, and where that returns to; `starts` the arguments of `thread_start`;
`forked` the interrupt frame of the parent. -/
inductive Resumption where
  | returns (regs : Reg → Word) (ret : Word) (stack : Word → Word)
  | starts (function funcArg : Word)
  | forked (frame : Nat → Word)

/-- The processor, the PCBs of the tasks, and a record of how each task has been left. -/
structure Machine where
  cpu : Cpu
  threads : List Word
  resumption : Word → Resumption

namespace Machine

def runningThread (m : Machine) : Word := pageOf (m.cpu.regs .esp)

/-- The words that belong to a task that does not run: `self_kstack` and the stack above it. -/
def Kept (m : Machine) (t a : Word) : Prop := a = t ∨ pageOf a = t ∧ m.cpu.mem t ≤ a

instance (m : Machine) (t a : Word) : Decidable (m.Kept t a) := inferInstanceAs (Decidable (_ ∨ _))

/-- The words of a page hold `f`, by their offset. -/
def setPage (m : Machine) (p : Word) (f : Word → Word) : Machine :=
  { m with cpu := { m.cpu with mem := fun a => if pageOf a = p then f (a - p) else m.cpu.mem a } }

def store (m : Machine) (a v : Word) : Machine := { m with cpu := m.cpu.store a v }

/-- The members of `struct task_struct` other than `self_kstack`, by their offset. -/
def setFields (m : Machine) (p : Word) (fields : Word → Word) : Machine :=
  m.setPage p fun d => if d ≠ 0 ∧ d < taskStructSize then fields d else m.cpu.mem (p + d)

/-- `init_thread`; `fields` is what it leaves in the other members. -/
def initThread (m : Machine) (p : Word) (fields : Word → Word) : Machine :=
  (m.setFields p fields).store p (p + pgSize)

/-- `thread_create`.  `self_kstack` is a `uint32_t*`, so the two sizes count in words. -/
def threadCreate (kernelThread : Word) (m : Machine) (p function funcArg : Word) : Machine :=
  let m := m.store p (m.cpu.mem p - 4#32 * intrStackSize)
  let m := m.store p (m.cpu.mem p - 4#32 * threadStackSize)
  let k := m.cpu.mem p
  ((((((m.store (k + 16#32) kernelThread).store (k + 24#32) function).store (k + 28#32) funcArg).store
    (k + 8#32) 0).store (k + 12#32) 0).store (k + 4#32) 0).store k 0

/-- `thread_start`, in the page that `get_kernel_pages` returns. -/
def threadStart (kernelThread : Word) (m : Machine) (p function funcArg : Word)
    (fields : Word → Word) : Machine :=
  (((m.setPage p fun _ => 0).initThread p fields).threadCreate kernelThread p function funcArg)

/-- The `struct intr_stack` at the top of the page, word by word. -/
def intrStack (m : Machine) (p : Word) (i : Nat) : Word :=
  m.cpu.mem (p + pgSize - intrStackSize + 4#32 * BitVec.ofNat 32 i)

/-- `copy_pcb_vaddrbitmap_stack0`: the whole page, then other members; `fields` is what it leaves
in them. -/
def copyPcbVaddrbitmapStack0 (m : Machine) (child parent : Word) (fields : Word → Word) : Machine :=
  (m.setPage child fun d => m.cpu.mem (parent + d)).setFields child fields

def buildChildStack (intrExit : Word) (m : Machine) (child : Word) : Machine :=
  let intr0Stack := child + pgSize - intrStackSize
  let m := m.store (intr0Stack + 32#32) 0
  let m := m.store (intr0Stack - 4#32) intrExit
  let m := (((m.store (intr0Stack - 8#32) 0).store (intr0Stack - 12#32) 0).store
    (intr0Stack - 16#32) 0).store (intr0Stack - 20#32) 0
  m.store child (intr0Stack - 20#32)

end Machine

/-- The offset of `eax` in `struct intr_stack`, in words. -/
def eaxIndex : Nat := 8

inductive Event where
  /-- the running task sets a register -/
  | setReg (r : Reg) (v : Word)
  /-- the running task stores a word -/
  | store (a v : Word)
  /-- the running task calls `thread_start` and gets the page `p` -/
  | threadStart (p function funcArg : Word) (fields : Word → Word)
  /-- the running task forks and gets the page `child` -/
  | fork (child : Word) (fields : Word → Word)
  /-- the running task calls `switch_to`, which is to return to `ret` -/
  | switchTo (ret : Word)

namespace Machine

/-- A page that is nobody's PCB. -/
def Fresh (m : Machine) (p : Word) : Prop := pageOf p = p ∧ p ∉ m.threads

instance (m : Machine) (p : Word) : Decidable (m.Fresh p) := inferInstanceAs (Decidable (_ ∧ _))

/-- `schedule` calls `switch_to(running_thread(), next)` with both arguments on the stack, which
has not grown down into the PCB. -/
def Enabled (m : Machine) : Event → Prop
  | .setReg r v => r = .esp → pageOf v = m.runningThread
  | .store a _ => ∀ t ∈ m.threads, t ≠ m.runningThread → ¬ m.Kept t a
  | .threadStart p _ _ _ => m.Fresh p
  | .fork child _ => m.Fresh child
  | .switchTo _ =>
      m.cpu.regs .esp % 4#32 = 0#32 ∧
      m.runningThread + taskStructSize + 20#32 ≤ m.cpu.regs .esp ∧
      m.cpu.mem (m.cpu.regs .esp) = m.runningThread ∧
      m.cpu.mem (m.cpu.regs .esp + 4#32) ∈ m.threads

instance (m : Machine) (e : Event) : Decidable (m.Enabled e) := by
  cases e <;> unfold Enabled <;> infer_instance

variable (kernelThread intrExit : Word)

def step (m : Machine) : Event → Machine
  | .setReg r v => { m with cpu := m.cpu.set r v }
  | .store a v => m.store a v
  | .threadStart p function funcArg fields =>
      { m.threadStart kernelThread p function funcArg fields with
        threads := p :: m.threads
        resumption := Function.update m.resumption p (.starts function funcArg) }
  | .fork child fields =>
      { (m.copyPcbVaddrbitmapStack0 child m.runningThread fields).buildChildStack intrExit child with
        threads := child :: m.threads
        resumption := Function.update m.resumption child (.forked (m.intrStack m.runningThread)) }
  | .switchTo ret =>
      { m with
        cpu := switchTo.foldl exec (m.cpu.push ret)
        resumption := Function.update m.resumption m.runningThread
          (.returns m.cpu.regs ret m.cpu.mem) }

end Machine

/-- One task, the main thread, runs on its own stack. -/
def tasks (kernelThread intrExit : Word) : System Machine Event where
  init m := m.threads = [m.runningThread]
  step m e m' := m.Enabled e ∧ m.step kernelThread intrExit e = m'

end Aitos.Proc.Switch
