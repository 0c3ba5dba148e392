import Aitos.Sched.Sync

/-!
# The disk handshake

`ide_read`, `ide_write` and `intr_hd_handler` of `drivers/ide.c` on one channel, with the lock and
semaphore functions of `sched/sync.c` they run on.  Threads run with interrupts on, so every
statement that touches shared data is a step of its own; the semaphore functions and the handler
are atomic up to the switch inside `thread_block`.  Which thread runs next, and when the device
interrupts, is left open.  What is transferred through the data port is not part of this.
-/

namespace Aitos.Drivers.Ide

open Framework Sched

def maxLba : UInt32 := 163839

/-- The arguments of a call and how far its loop has come. -/
structure Job where
  write : Bool
  devNo : Bool
  lba : UInt32
  secCnt : UInt32
  secsDone : UInt32
  deriving DecidableEq, Repr

/-- The sectors of the next command. -/
def Job.secsOp (j : Job) : UInt32 :=
  if j.secsDone + 256 ≤ j.secCnt then 256 else j.secCnt - j.secsDone

def Job.next (j : Job) : Job := { j with secsDone := j.secsDone + j.secsOp }

/-- The statement a thread executes next. -/
inductive Place where
  | outside
  | acqDown (j : Job)    -- `sema_down(&plock->semaphore)`
  | acqWait (j : Job)    -- in its `thread_block`
  | acqHolder (j : Job)  -- `plock->holder = running_thread()`
  | acqAssert (j : Job)  -- `ASSERT(plock->holder_repeat_nr == 0)`
  | acqRepeat (j : Job)  -- `plock->holder_repeat_nr = 1`
  | loop (j : Job)       -- the loop's test, `select_sector`, `channel->expecting_intr = true`
  | cmdOut (j : Job)     -- `outb(reg_cmd(channel), cmd)`
  | writeData (j : Job)  -- `busy_wait` and `write_to_sector`
  | doneDown (j : Job)   -- `sema_down(&hd->my_channel->disk_done)`
  | doneWait (j : Job)   -- in its `thread_block`
  | readData (j : Job)   -- `busy_wait` and `read_from_sector`
  | relAssert            -- `ASSERT(plock->holder == running_thread())`
  | relTest              -- the tests of `holder_repeat_nr`
  | relHolder            -- `plock->holder = NULL`
  | relRepeat            -- `plock->holder_repeat_nr = 0`
  | relUp                -- `sema_up(&plock->semaphore)`
  deriving DecidableEq, Repr

/-- A thread in `thread_block` goes on with interrupts off. -/
def Place.waiting : Place → Bool
  | .acqWait _ | .doneWait _ => true
  | _ => false

inductive Failure where
  | lba | secCnt | notReady
  | unblockStatus | unblockNotReady
  | semaDownNotWaiting | semaDownValue | semaUpValue | semaUpRaised
  | acquireRepeat | releaseHolder | releaseRepeat
  deriving DecidableEq, Repr

/-- The failures that come from the arguments or from the device: the `ASSERT`s on the sector
numbers and the `PANIC` after `busy_wait`. -/
def Failure.external : Failure → Bool
  | .lba | .secCnt | .notReady => true
  | _ => false

inductive Sema where
  | diskDone | lock
  deriving DecidableEq, Repr

/-- One `struct ide_channel` and the threads that use it.  `inFlight` are the threads whose
command has not been answered yet; `issued`, `completed` and `consumed` record the commands, the
interrupts and the returns of `sema_down` on `disk_done`, each by the thread of its command. -/
structure Chan where
  expectingIntr : Bool
  sema : Sema → Semaphore
  lock : Lock
  cur : Option Tid
  ready : List Tid
  status : Tid → TaskStatus
  place : Tid → Place
  inFlight : List Tid
  issued : List Tid
  completed : List Tid
  consumed : List Tid

def check (f : Failure) (c : Prop) [Decidable c] : Except Failure Unit :=
  if c then .ok () else .error f

namespace Chan

def setPlace (s : Chan) (t : Tid) (p : Place) : Chan :=
  { s with place := Function.update s.place t p }

def setStatus (s : Chan) (t : Tid) (st : TaskStatus) : Chan :=
  { s with status := Function.update s.status t st }

def setSema (s : Chan) (i : Sema) (v : Semaphore) : Chan :=
  { s with sema := Function.update s.sema i v }

/-- `thread_block(TASK_BLOCKED)` up to the switch inside `schedule`. -/
def threadBlock (s : Chan) (t : Tid) : Chan := { s.setStatus t .blocked with cur := none }

def threadUnblock (s : Chan) (t : Tid) : Except Failure Chan := do
  check .unblockStatus ((s.status t).isBlocked = true)
  if s.status t ≠ .ready then
    check .unblockNotReady (t ∉ s.ready)
    return { s with ready := t :: s.ready }.setStatus t .ready
  else return s

/-- One round of the loop of `sema_down` by `t`: block at `wait`, or go on at `next`. -/
def semaDown (s : Chan) (i : Sema) (t : Tid) (wait next : Place) : Except Failure Chan := do
  if (s.sema i).value = 0 then
    check .semaDownNotWaiting (t ∉ (s.sema i).waiters)
    let s := s.setSema i ⟨(s.sema i).value, (s.sema i).waiters ++ [t]⟩
    return (s.setPlace t wait).threadBlock t
  else
    check .semaDownValue ((s.sema i).value - 1 = 0)
    return (s.setSema i ⟨(s.sema i).value - 1, (s.sema i).waiters⟩).setPlace t next

def semaUp (s : Chan) (i : Sema) : Except Failure Chan := do
  check .semaUpValue ((s.sema i).value = 0)
  let s ← match (s.sema i).waiters with
    | [] => pure s
    | t :: rest => (s.setSema i ⟨(s.sema i).value, rest⟩).threadUnblock t
  check .semaUpRaised ((s.sema i).value + 1 = 1)
  return s.setSema i ⟨(s.sema i).value + 1, (s.sema i).waiters⟩

def intrHdHandler (s : Chan) : Except Failure Chan :=
  if s.expectingIntr then { s with expectingIntr := false }.semaUp .diskDone else return s

/-- `sema_down` on `disk_done`, recording its return. -/
def downDone (s : Chan) (t : Tid) (j : Job) : Except Failure Chan := do
  let s' ← s.semaDown .diskDone t (.doneWait j) (if j.write then .loop j.next else .readData j)
  if (s.sema .diskDone).value = 0 then return s'
  else return { s' with consumed := s'.consumed ++ [t] }

/-- The beginning of `ide_read` or `ide_write`, up to `lock_acquire`. -/
def call (s : Chan) (t : Tid) (j : Job) : Except Failure Chan := do
  check .lba (j.lba ≤ maxLba)
  check .secCnt (0 < j.secCnt)
  if s.lock.holder ≠ some t then return s.setPlace t (.acqDown j)
  else
    return { s with lock := { s.lock with
      holderRepeatNr := (s.lock.holderRepeatNr + 1) % 2 ^ 32 } }.setPlace t (.loop j)

/-- The next statement of thread `t`; `ok` is what `busy_wait` returns. -/
def run (s : Chan) (t : Tid) (ok : Bool) : Except Failure Chan :=
  match s.place t with
  | .outside => return s
  | .acqDown j | .acqWait j => s.semaDown .lock t (.acqWait j) (.acqHolder j)
  | .acqHolder j =>
      return { s with lock := { s.lock with holder := some t } }.setPlace t (.acqAssert j)
  | .acqAssert j => do
      check .acquireRepeat (s.lock.holderRepeatNr = 0)
      return s.setPlace t (.acqRepeat j)
  | .acqRepeat j =>
      return { s with lock := { s.lock with holderRepeatNr := 1 } }.setPlace t (.loop j)
  | .loop j =>
      if j.secsDone < j.secCnt then do
        check .lba (j.lba + j.secsDone ≤ maxLba)
        return { s with expectingIntr := true }.setPlace t (.cmdOut j)
      else return s.setPlace t .relAssert
  | .cmdOut j =>
      return { s with inFlight := s.inFlight ++ [t], issued := s.issued ++ [t] }.setPlace t
        (if j.write then .writeData j else .doneDown j)
  | .writeData j => do
      check .notReady (ok = true)
      return s.setPlace t (.doneDown j)
  | .doneDown j | .doneWait j => s.downDone t j
  | .readData j => do
      check .notReady (ok = true)
      return s.setPlace t (.loop j.next)
  | .relAssert => do
      check .releaseHolder (s.lock.holder = some t)
      return s.setPlace t .relTest
  | .relTest =>
      if s.lock.holderRepeatNr > 1 then
        return { s with lock := { s.lock with
          holderRepeatNr := s.lock.holderRepeatNr - 1 } }.setPlace t .outside
      else do
        check .releaseRepeat (s.lock.holderRepeatNr = 1)
        return s.setPlace t .relHolder
  | .relHolder => return { s with lock := { s.lock with holder := none } }.setPlace t .relRepeat
  | .relRepeat => return { s with lock := { s.lock with holderRepeatNr := 0 } }.setPlace t .relUp
  | .relUp => do
      let s ← s.semaUp .lock
      return s.setPlace t .outside

end Chan

inductive Event where
  /-- `schedule` picks a thread that is ready -/
  | dispatch (t : Tid)
  /-- the running thread is preempted or yields -/
  | preempt
  /-- the running thread calls `ide_read` or `ide_write` -/
  | call (j : Job)
  /-- the running thread goes on inside its call -/
  | run (ok : Bool)
  /-- the device answers the command of `t` -/
  | interrupt (t : Tid)
  deriving DecidableEq, Repr

namespace Chan

def Enabled (s : Chan) : Event → Prop
  | .dispatch t => s.cur = none ∧ t ∈ s.ready
  | .preempt => ∃ t ∈ s.cur, (s.place t).waiting = false
  | .call j => j.secsDone = 0 ∧ ∃ t ∈ s.cur, s.place t = .outside
  | .run _ => ∃ t ∈ s.cur, s.place t ≠ .outside
  | .interrupt t => t ∈ s.inFlight ∧ ∀ u ∈ s.cur, (s.place u).waiting = false

instance (s : Chan) (e : Event) : Decidable (s.Enabled e) := by
  cases e <;> unfold Enabled <;> infer_instance

def step (s : Chan) : Event → Except Failure Chan
  | .dispatch t => return { s with ready := s.ready.erase t, cur := some t }.setStatus t .running
  | .preempt =>
      match s.cur with
      | none => return s
      | some t => return { s with ready := s.ready ++ [t], cur := none }.setStatus t .ready
  | .call j =>
      match s.cur with
      | none => return s
      | some t => s.call t j
  | .run ok =>
      match s.cur with
      | none => return s
      | some t => s.run t ok
  | .interrupt t =>
      { s with inFlight := s.inFlight.erase t, completed := s.completed ++ [t] }.intrHdHandler

end Chan

/-- Any number of threads outside the driver, and the channel as `ide_init` leaves it. -/
def channel : System Chan Event where
  init s := s.expectingIntr = false ∧ s.sema .diskDone = ⟨0, []⟩ ∧ s.sema .lock = ⟨1, []⟩ ∧
    s.lock = ⟨none, 0⟩ ∧ s.cur = none ∧ s.ready.Nodup ∧ (∀ t ∈ s.ready, s.status t = .ready) ∧
    (∀ t, s.place t = .outside) ∧ s.inFlight = [] ∧ s.issued = [] ∧ s.completed = [] ∧
    s.consumed = []
  step s e s' := s.Enabled e ∧ s.step e = .ok s'

end Aitos.Drivers.Ide
