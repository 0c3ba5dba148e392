import Aitos.Framework.RingBuffer
import Aitos.Sched.Sync

/-!
# Character queues

`drivers/ioqueue.c` with the parts of `sched/sync.c` and `sched/thread.c` it runs on.  The
callers have interrupts off, so a thread gives up the processor only inside `thread_block`; a
step is what a thread does between two such places.  Which thread runs next is left open.
-/

namespace Aitos.Drivers

open Framework Sched

def bufsize : Nat := 64

/-- `char` -/
abbrev Byte := UInt8

/-- The call a thread is in. -/
inductive Op where
  | getchar
  | putchar (target : Byte)
  deriving DecidableEq, Repr

/-- The fields `consumer` and `producer`. -/
inductive Side where
  | consumer | producer
  deriving DecidableEq, Repr

def Side.other : Side → Side
  | .consumer => .producer
  | .producer => .consumer

def Op.side : Op → Side
  | .getchar => .consumer
  | .putchar _ => .producer

/-- Where a thread stands. -/
inductive Place where
  /-- in neither of the two calls, or between the places below -/
  | outside
  /-- in `thread_block`, called by the `sema_down` of `lock_acquire(&ioq->lock)` -/
  | lockWait (op : Op)
  /-- in `thread_block`, called by `ioq_wait` -/
  | ioqWait (op : Op)
  deriving DecidableEq, Repr

inductive Failure where
  | waitWaiter | wakeupWaiter
  | unblockStatus | unblockNotReady
  | semaDownNotWaiting | semaDownValue | semaUpValue | semaUpRaised
  | acquireRepeat | releaseHolder | releaseRepeat
  deriving DecidableEq, Repr

/-- One `struct ioqueue`, the threads that use it and what they have got through it. -/
structure Ioq where
  ring : RingBuffer Byte
  /-- `consumer` and `producer`: the thread that waits on that side -/
  waiter : Side → Option Tid
  lock : Lock
  sema : Semaphore
  /-- the running thread; none while `schedule` picks one -/
  cur : Option Tid
  ready : List Tid
  status : Tid → TaskStatus
  place : Tid → Place
  /-- the characters stored, in the order in which the calls of `ioq_putchar` completed -/
  stored : List Byte
  /-- the characters returned, in the order in which the calls of `ioq_getchar` completed -/
  got : List Byte

def check (f : Failure) (c : Prop) [Decidable c] : Except Failure Unit :=
  if c then .ok () else .error f

namespace Ioq

def setPlace (s : Ioq) (t : Tid) (p : Place) : Ioq :=
  { s with place := Function.update s.place t p }

def setStatus (s : Ioq) (t : Tid) (st : TaskStatus) : Ioq :=
  { s with status := Function.update s.status t st }

/-- `thread_block(TASK_BLOCKED)` by `t` up to the switch inside `schedule`. -/
def threadBlock (s : Ioq) (t : Tid) : Ioq := { s.setStatus t .blocked with cur := none }

def threadUnblock (s : Ioq) (t : Tid) : Except Failure Ioq := do
  check .unblockStatus ((s.status t).isBlocked = true)
  if s.status t ≠ .ready then
    check .unblockNotReady (t ∉ s.ready)
    return { s with ready := t :: s.ready }.setStatus t .ready
  else
    return s

def setWaiter (s : Ioq) (side : Side) (w : Option Tid) : Ioq :=
  { s with waiter := Function.update s.waiter side w }

/-- `ioq_wait(&ioq->consumer)` in `ioq_getchar`, `ioq_wait(&ioq->producer)` in `ioq_putchar`. -/
def ioqWait (s : Ioq) (t : Tid) (op : Op) : Except Failure Ioq := do
  check .waitWaiter (s.waiter op.side = none)
  return ((s.setWaiter op.side (some t)).setPlace t (.ioqWait op)).threadBlock t

def wakeup (s : Ioq) (side : Side) : Except Failure Ioq := do
  match s.waiter side with
  | none => throw .wakeupWaiter
  | some t =>
      let s ← s.threadUnblock t
      return s.setWaiter side none

/-- `if (ioq->producer != NULL) wakeup(&ioq->producer)`, and the same for `consumer`. -/
def wakeWaiter (s : Ioq) (side : Side) : Except Failure Ioq :=
  if s.waiter side ≠ none then s.wakeup side else return s

/-- The rest of `sema_down` and of `lock_acquire`, from a test of the semaphore's value on, and
the `ioq_wait` after it. -/
def semaDown (s : Ioq) (t : Tid) (op : Op) : Except Failure Ioq := do
  if s.sema.value = 0 then
    check .semaDownNotWaiting (t ∉ s.sema.waiters)
    let s := { s with sema := { s.sema with waiters := s.sema.waiters ++ [t] } }
    return (s.setPlace t (.lockWait op)).threadBlock t
  else
    check .semaDownValue (s.sema.value - 1 = 0)
    let s := { s with sema := { s.sema with value := s.sema.value - 1 } }
    let s := { s with lock := { s.lock with holder := some t } }
    check .acquireRepeat (s.lock.holderRepeatNr = 0)
    ioqWait { s with lock := { s.lock with holderRepeatNr := 1 } } t op

/-- `lock_acquire` and `ioq_wait`. -/
def acquireAndWait (s : Ioq) (t : Tid) (op : Op) : Except Failure Ioq :=
  if s.lock.holder ≠ some t then semaDown s t op
  else ioqWait { s with lock :=
    { s.lock with holderRepeatNr := (s.lock.holderRepeatNr + 1) % 2 ^ 32 } } t op

def semaUp (s : Ioq) : Except Failure Ioq := do
  check .semaUpValue (s.sema.value = 0)
  let s ← match s.sema.waiters with
    | [] => pure s
    | t :: rest => threadUnblock { s with sema := { s.sema with waiters := rest } } t
  check .semaUpRaised (s.sema.value + 1 = 1)
  return { s with sema := { s.sema with value := s.sema.value + 1 } }

def lockRelease (s : Ioq) (t : Tid) : Except Failure Ioq := do
  check .releaseHolder (s.lock.holder = some t)
  if s.lock.holderRepeatNr > 1 then
    return { s with lock := { s.lock with holderRepeatNr := s.lock.holderRepeatNr - 1 } }
  else
    check .releaseRepeat (s.lock.holderRepeatNr = 1)
    semaUp { s with lock := ⟨none, 0⟩ }

/-- `ioq_empty` for a consumer, `ioq_full` for a producer. -/
def Stuck (s : Ioq) : Side → Prop
  | .consumer => s.ring.Empty
  | .producer => s.ring.Full bufsize

instance (s : Ioq) (side : Side) : Decidable (s.Stuck side) := by
  cases side <;> unfold Stuck <;> infer_instance

/-- The buffer and the positions after a call, and the character it has passed. -/
def moved (s : Ioq) : Op → Ioq
  | .getchar => { s with ring := s.ring.pop bufsize, got := s.got ++ [s.ring.buf s.ring.tail] }
  | .putchar target =>
      { s with ring := s.ring.push bufsize target, stored := s.stored ++ [target] }

/-- `ioq_getchar` and `ioq_putchar` after their loops. -/
def transfer (s : Ioq) (t : Tid) (op : Op) : Except Failure Ioq := do
  let s ← (s.moved op).wakeWaiter op.side.other
  return s.setPlace t .outside

/-- `ioq_getchar` and `ioq_putchar` from a test of their loop on. -/
def loop (s : Ioq) (t : Tid) (op : Op) : Except Failure Ioq :=
  if s.Stuck op.side then acquireAndWait s t op else transfer s t op

/-- Go on inside the call thread `t` is in. -/
def resume (s : Ioq) (t : Tid) : Except Failure Ioq :=
  match s.place t with
  | .outside => return s
  | .lockWait op => semaDown (s.setPlace t .outside) t op
  | .ioqWait op => do
      let s ← lockRelease (s.setPlace t .outside) t
      loop s t op

end Ioq

inductive IoqEvent where
  /-- `schedule` picks a thread that is ready -/
  | dispatch (t : Tid)
  /-- the running thread is preempted, or yields, outside the queue -/
  | preempt
  /-- the running thread calls `ioq_getchar` or `ioq_putchar` -/
  | call (op : Op)
  /-- the running thread goes on inside its call -/
  | resume
  deriving DecidableEq, Repr

namespace Ioq

def Enabled (s : Ioq) : IoqEvent → Prop
  | .dispatch t => s.cur = none ∧ t ∈ s.ready
  | .preempt | .call _ => ∃ t ∈ s.cur, s.place t = .outside
  | .resume => ∃ t ∈ s.cur, s.place t ≠ .outside

instance (s : Ioq) (e : IoqEvent) : Decidable (s.Enabled e) := by
  cases e <;> unfold Enabled <;> infer_instance

def step (s : Ioq) : IoqEvent → Except Failure Ioq
  | .dispatch t => return { s with ready := s.ready.erase t, cur := some t }.setStatus t .running
  | .preempt =>
      match s.cur with
      | none => return s
      | some t => return { s with ready := s.ready ++ [t], cur := none }.setStatus t .ready
  | .call op =>
      match s.cur with
      | none => return s
      | some t => s.loop t op
  | .resume =>
      match s.cur with
      | none => return s
      | some t => s.resume t

end Ioq

/-- Any number of threads, none of them in the queue yet, and the queue as `ioqueue_init` leaves
it. -/
def ioqueue : System Ioq IoqEvent where
  init s := s.ring.head = 0 ∧ s.ring.tail = 0 ∧ (∀ side, s.waiter side = none) ∧
    s.lock = ⟨none, 0⟩ ∧ s.sema = ⟨1, []⟩ ∧ s.cur = none ∧ s.ready.Nodup ∧
    (∀ t ∈ s.ready, s.status t = .ready) ∧ (∀ t, s.place t = .outside) ∧ s.stored = [] ∧ s.got = []
  step s e s' := s.Enabled e ∧ s.step e = .ok s'

end Aitos.Drivers
