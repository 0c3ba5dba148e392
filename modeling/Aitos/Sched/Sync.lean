import Aitos.Framework.Run
import Aitos.Sched.Thread

/-!
# Semaphores, locks and the steps of the scheduler

`sched/sync.c`.  The semaphore functions run with interrupts disabled and are atomic up to the
switch inside `thread_block`.  The lock functions write their fields with interrupts enabled,
so each of their statements is a step of its own and the timer may preempt between any two.
-/

namespace Aitos.Sched

open Framework

/-- What a thread does after `sema_down` on `s` has succeeded. -/
def SemaId.next : SemaId → Pc
  | .plain _ => .user
  | .ofLock l => .lockOp l .acqHolder

/-- One round of the loop of `sema_down` by the running thread, interrupts being off. -/
def semaDown (k : Kernel) (s : SemaId) : Result := do
  let sema := k.sema s
  if sema.value = 0 then
    assert .semaDownNotWaiting (k.cur ∉ sema.waiters)
    let k := k.setSema s { sema with waiters := sema.waiters ++ [k.cur] }
    threadBlock (k.setPc k.cur (.semaWait s)) .blocked
  else
    assert .semaDownValue (sema.value - 1 = 0)
    return ((k.setSema s { sema with value := sema.value - 1 }).setPc k.cur s.next).intrEnable

def semaUp (k : Kernel) (s : SemaId) : Result := do
  let sema := k.sema s
  assert .semaUpValue (sema.value = 0)
  let k ← match sema.waiters with
    | [] => pure k
    | t :: rest => threadUnblock (k.setSema s { sema with waiters := rest }) t
  assert .semaUpRaised ((k.sema s).value + 1 = 1)
  return k.setSema s { k.sema s with value := (k.sema s).value + 1 }

/-- `lock_acquire` up to the first statement after its test of `holder`. -/
def lockAcquire (k : Kernel) (l : LockId) : Result :=
  if (k.lock l).holder ≠ some k.cur then return k.setPc k.cur (.lockOp l .acqDown)
  else return k.setPc k.cur (.lockOp l .acqAgain)

/-- `lock_release` up to the first statement after its first assertion. -/
def lockRelease (k : Kernel) (l : LockId) : Result := do
  assert .lockReleaseHolder ((k.lock l).holder = some k.cur)
  return k.setPc k.cur (.lockOp l .relTest)

/-- The next statement of the lock function the running thread is in.  `holder_repeat_nr` is a
32-bit counter. -/
def lockStep (k : Kernel) (l : LockId) : LockPhase → Result
  | .acqDown => semaDown k (.ofLock l)
  | .acqHolder =>
      return (k.setLock l { k.lock l with holder := some k.cur }).setPc k.cur (.lockOp l .acqAssert)
  | .acqAssert => do
      assert .lockAcquireRepeat ((k.lock l).holderRepeatNr = 0)
      return k.setPc k.cur (.lockOp l .acqRepeat)
  | .acqRepeat =>
      return ((k.setLock l { k.lock l with holderRepeatNr := 1 }).setDepth k.cur l 1).setPc k.cur .user
  | .acqAgain =>
      return ((k.setLock l { k.lock l with
          holderRepeatNr := ((k.lock l).holderRepeatNr + 1) % 2 ^ 32 }).setDepth k.cur l
        (k.depth k.cur l + 1)).setPc k.cur .user
  | .relTest =>
      if (k.lock l).holderRepeatNr > 1 then return k.setPc k.cur (.lockOp l .relDec)
      else return k.setPc k.cur (.lockOp l .relAssert)
  | .relDec =>
      return ((k.setLock l { k.lock l with
          holderRepeatNr := (k.lock l).holderRepeatNr - 1 }).setDepth k.cur l
        (k.depth k.cur l - 1)).setPc k.cur .user
  | .relAssert => do
      assert .lockReleaseRepeat ((k.lock l).holderRepeatNr = 1)
      return k.setPc k.cur (.lockOp l .relHolder)
  | .relHolder =>
      return ((k.setLock l { k.lock l with holder := none }).setDepth k.cur l 0).setPc k.cur
        (.lockOp l .relRepeat)
  | .relRepeat =>
      return (k.setLock l { k.lock l with holderRepeatNr := 0 }).setPc k.cur (.lockOp l .relUp)
  | .relUp => do
      let k ← semaUp k (.ofLock l)
      return k.setPc k.cur .user

inductive Event where
  | timer
  | threadStart (t : Tid) (prio : Nat)
  | yield
  | block (stat : TaskStatus)
  | wakeup (t : Tid)
  | semaDown (n : Nat)
  | semaUp (n : Nat)
  | lockAcquire (l : LockId)
  | lockRelease (l : LockId)
  /-- the running thread goes on inside the function it is in -/
  | resume
  deriving DecidableEq, Repr

/-- Go on inside `sema_down`, `thread_block` or a lock function. -/
def resume (k : Kernel) : Result :=
  match k.pc k.cur with
  | .user => return k
  | .parked => return (k.setPc k.cur .user).intrEnable
  | .semaWait s => semaDown k s
  | .lockOp l phase => lockStep k l phase

def step (k : Kernel) : Event → Result
  | .timer => timerHandler k
  | .threadStart t prio => threadStart k t prio
  | .yield => threadYield k
  | .block stat => threadBlock (k.setPc k.cur .parked) stat
  | .wakeup t => threadUnblock k t
  | .semaDown n => semaDown k (.plain n)
  | .semaUp n => semaUp k (.plain n)
  | .lockAcquire l => lockAcquire k l
  | .lockRelease l => lockRelease k l
  | .resume => resume k

/-- Which events can happen.  Interrupt handlers (the timer, and `sema_up` and `wakeup` of the
disk and the keyboard) run on whatever thread they interrupt, as long as interrupts are on; the
idle thread does nothing of its own but `thread_block(TASK_BLOCKED)`.  A PCB page is never given
out twice, `wakeup` is of the one thread `ioq_wait` recorded, and a lock is released only by a
thread that has acquired it. -/
def Enabled (k : Kernel) : Event → Prop
  | .timer => k.intrOn = true
  | .threadStart t _ => k.pc k.cur = .user ∧ k.cur ≠ k.idle ∧ t ∉ k.tasks
  | .yield => k.pc k.cur = .user ∧ k.cur ≠ k.idle
  | .block stat => k.pc k.cur = .user ∧ (k.cur = k.idle → stat = .blocked)
  | .wakeup t => k.intrOn = true ∧ t ∈ k.tasks ∧ t ≠ k.idle ∧ k.pc t = .parked ∧
      (k.status t).isBlocked = true
  | .semaDown _ => k.pc k.cur = .user ∧ k.cur ≠ k.idle
  | .semaUp _ => k.intrOn = true
  | .lockAcquire _ => k.pc k.cur = .user ∧ k.cur ≠ k.idle
  | .lockRelease l => k.pc k.cur = .user ∧ k.cur ≠ k.idle ∧ 0 < k.depth k.cur l
  | .resume => k.pc k.cur ≠ .user

instance (k : Kernel) (e : Event) : Decidable (Enabled k e) := by
  cases e <;> unfold Enabled <;> infer_instance

/-- The machine after `thread_init`, for any three PCBs and any semaphore values. -/
def scheduler : System Kernel Event where
  init k := ∃ main init idle value, main ≠ init ∧ init ≠ idle ∧ main ≠ idle ∧
    threadInit main init idle value = .ok k
  step k e k' := Enabled k e ∧ step k e = .ok k'

end Aitos.Sched
