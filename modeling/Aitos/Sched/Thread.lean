import Mathlib

/-!
# Threads and the ready queue

`sched/thread.c` over an explicit kernel state.  A thread is its PCB address, a list of
`general_tag` nodes is the list of the threads they belong to, and `running_thread()` is the
field `cur`.  An `ASSERT` that fails stops the machine (`panic_spin` never returns), so every
function returns either the new state or the assertion it stopped at.
-/

namespace Aitos.Sched

abbrev Tid := Nat
abbrev LockId := Nat

/-- `enum task_status` -/
inductive TaskStatus where
  | running | ready | blocked | waiting | hanging | died
  deriving DecidableEq, Repr

/-- A semaphore is a variable of its own or the one inside a `struct lock`. -/
inductive SemaId where
  | plain (n : Nat)
  | ofLock (l : LockId)
  deriving DecidableEq, Repr

/-- The statement of `lock_acquire` or `lock_release` a thread executes next. -/
inductive LockPhase where
  | acqDown      -- `sema_down(&plock->semaphore)`
  | acqHolder    -- `plock->holder = running_thread()`
  | acqAssert    -- `ASSERT(plock->holder_repeat_nr == 0)`
  | acqRepeat    -- `plock->holder_repeat_nr = 1`
  | acqAgain     -- `plock->holder_repeat_nr++`
  | relTest      -- `if (plock->holder_repeat_nr > 1)`
  | relDec       -- `plock->holder_repeat_nr--`
  | relAssert    -- `ASSERT(plock->holder_repeat_nr == 1)`
  | relHolder    -- `plock->holder = NULL`
  | relRepeat    -- `plock->holder_repeat_nr = 0`
  | relUp        -- `sema_up(&plock->semaphore)`
  deriving DecidableEq, Repr

/-- Where a thread stands. -/
inductive Pc where
  /-- outside the scheduler and the locks -/
  | user
  /-- in `thread_block`, called by `ioq_wait` or by `idle` -/
  | parked
  /-- in `thread_block`, called by the loop of `sema_down` -/
  | semaWait (s : SemaId)
  /-- between two statements of a lock function -/
  | lockOp (l : LockId) (phase : LockPhase)
  deriving DecidableEq, Repr

/-- `struct semaphore` -/
structure Semaphore where
  value : Nat
  waiters : List Tid
  deriving DecidableEq, Repr

/-- `struct lock`, its semaphore apart -/
structure Lock where
  holder : Option Tid
  holderRepeatNr : Nat
  deriving DecidableEq, Repr

/-- The assertions of `thread.c` and `sync.c`. -/
inductive Assertion where
  | threadStartNotReady | threadStartNotListed
  | scheduleIntrOff | scheduleNotReady | scheduleNonempty
  | yieldNotReady
  | blockStatus
  | unblockStatus | unblockNotReady
  | semaDownNotWaiting | semaDownValue
  | semaUpValue | semaUpRaised
  | lockAcquireRepeat
  | lockReleaseHolder | lockReleaseRepeat
  deriving DecidableEq, Repr

structure Kernel where
  /-- `thread_all_list` -/
  tasks : List Tid
  status : Tid → TaskStatus
  ticks : Tid → Nat
  priority : Tid → Nat
  /-- `thread_ready_list` -/
  ready : List Tid
  cur : Tid
  idle : Tid
  /-- the interrupt flag of the processor -/
  intrOn : Bool
  sema : SemaId → Semaphore
  lock : LockId → Lock
  pc : Tid → Pc
  /-- how often a thread has acquired a lock and not yet released it -/
  depth : Tid → LockId → Nat

abbrev Result := Except Assertion Kernel

def assert (a : Assertion) (c : Prop) [Decidable c] : Except Assertion Unit :=
  if c then .ok () else .error a

namespace Kernel

def intrDisable (k : Kernel) : Kernel := { k with intrOn := false }

def intrEnable (k : Kernel) : Kernel := { k with intrOn := true }

def setStatus (k : Kernel) (t : Tid) (st : TaskStatus) : Kernel :=
  { k with status := Function.update k.status t st }

def setReady (k : Kernel) (ts : List Tid) : Kernel := { k with ready := ts }

def setTicks (k : Kernel) (t : Tid) (n : Nat) : Kernel :=
  { k with ticks := Function.update k.ticks t n }

def setPc (k : Kernel) (t : Tid) (p : Pc) : Kernel :=
  { k with pc := Function.update k.pc t p }

def setSema (k : Kernel) (s : SemaId) (v : Semaphore) : Kernel :=
  { k with sema := Function.update k.sema s v }

def setLock (k : Kernel) (l : LockId) (v : Lock) : Kernel :=
  { k with lock := Function.update k.lock l v }

def setDepth (k : Kernel) (t : Tid) (l : LockId) (n : Nat) : Kernel :=
  { k with depth := Function.update k.depth t (Function.update (k.depth t) l n) }

end Kernel

def TaskStatus.isBlocked (st : TaskStatus) : Bool :=
  st = .blocked || st = .waiting || st = .hanging

/-- `init_thread` and the two appends of `thread_start`; `process_execute` makes the same
changes.  `get_kernel_pages` returns the PCB `thread`. -/
def threadStart (k : Kernel) (thread : Tid) (prio : Nat) : Result := do
  let k := { k with
    status := Function.update k.status thread .ready
    priority := Function.update k.priority thread prio
    ticks := Function.update k.ticks thread prio
    pc := Function.update k.pc thread .user
    depth := Function.update k.depth thread (fun _ => 0) }
  assert .threadStartNotReady (thread ∉ k.ready)
  let k := { k with ready := k.ready ++ [thread] }
  assert .threadStartNotListed (thread ∉ k.tasks)
  return { k with tasks := k.tasks ++ [thread] }

def threadUnblock (k : Kernel) (pthread : Tid) : Result := do
  assert .unblockStatus ((k.status pthread).isBlocked = true)
  if k.status pthread ≠ .ready then
    assert .unblockNotReady (pthread ∉ k.ready)
    return (k.setReady (pthread :: k.ready)).setStatus pthread .ready
  else
    return k

/-- The first half of `schedule`: a thread that still runs goes to the end of the queue. -/
def requeue (k : Kernel) : Result := do
  assert .scheduleIntrOff (k.intrOn = false)
  if k.status k.cur = .running then
    assert .scheduleNotReady (k.cur ∉ k.ready)
    return ((k.setReady (k.ready ++ [k.cur])).setTicks k.cur (k.priority k.cur)).setStatus
      k.cur .ready
  else
    return k

/-- Whether a thread that is switched to turns interrupts on before its next statement.  One
that was preempted or yielded does (`iretq`, `intr_set_status`), and so does a new one
(`kernel_thread`); one that blocked is still inside `thread_block`. -/
def Pc.intrOnResume : Pc → Bool
  | .user | .lockOp _ _ => true
  | .parked | .semaWait _ => false

def Kernel.switchTo (k : Kernel) (next : Tid) (rest : List Tid) : Kernel :=
  { (k.setReady rest).setStatus next .running with
    cur := next, intrOn := (k.pc next).intrOnResume }

/-- The second half of `schedule`: `switch_to` the head of the queue, `idle_thread` if there is
none. -/
def dispatch (k : Kernel) : Result := do
  let k ← if k.ready = [] then threadUnblock k k.idle else pure k
  match k.ready with
  | [] => throw .scheduleNonempty
  | next :: rest => return k.switchTo next rest

def schedule (k : Kernel) : Result := do
  let k ← requeue k
  dispatch k

def threadYield (k : Kernel) : Result := do
  let k := k.intrDisable
  assert .yieldNotReady (k.cur ∉ k.ready)
  schedule ((k.setReady (k.ready ++ [k.cur])).setStatus k.cur .ready)

def threadBlock (k : Kernel) (stat : TaskStatus) : Result := do
  assert .blockStatus (stat.isBlocked = true)
  schedule (k.intrDisable.setStatus k.cur stat)

/-- `intr_timer_handler`, entered through an interrupt gate. -/
def timerHandler (k : Kernel) : Result :=
  if k.ticks k.cur = 0 then schedule k.intrDisable
  else return k.setTicks k.cur (k.ticks k.cur - 1)

/-- `thread_init`: `init` and `idle` wait in the ready queue, `main` runs.  The semaphores are
whatever `sema_init` made them, the locks are as `lock_init` leaves them. -/
def threadInit (main init idle : Tid) (value : Nat → Nat) : Result := do
  let k : Kernel :=
    { tasks := [], status := fun _ => .running, ticks := fun _ => 0, priority := fun _ => 0
      ready := [], cur := main, idle := idle, intrOn := true
      sema := fun
        | .plain n => ⟨value n, []⟩
        | .ofLock _ => ⟨1, []⟩
      lock := fun _ => ⟨none, 0⟩, pc := fun _ => .user, depth := fun _ _ => 0 }
  let k ← threadStart k init 31
  let k := { k with
    tasks := k.tasks ++ [main]
    priority := Function.update k.priority main 31
    ticks := Function.update k.ticks main 31 }
  threadStart k idle 10

end Aitos.Sched
