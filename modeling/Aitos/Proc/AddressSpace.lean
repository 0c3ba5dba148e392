import Aitos.Sched.LockOwner

/-!
# Page directories and task switches

`schedule` loads the page directory that the field `pgdir` of the next task holds
(`process_activate` in `proc/process.c`).  `inode_open`, `inode_close` and `file_create` set that
field to `NULL` around an allocation from the kernel heap and put it back without loading
anything, so a process that is switched out in between comes back on the kernel's page
directory.
-/

namespace Aitos.Proc

open Framework Sched

abbrev PageDir := Nat

/-- The locks and the semaphore the calls can block on. -/
def kernelPool : LockId := 0

def userPool : LockId := 1

def channelLock : LockId := 2

def diskDone : Nat := 0

/-- The statements of the file system's calls, seen from the scheduler. -/
inductive Stmt where
  | work           -- anything that neither blocks nor touches `pgdir`
  | savePgdir      -- `cur_pagedir_bak = cur->pgdir`
  | clearPgdir     -- `cur->pgdir = NULL`
  | restorePgdir   -- `cur->pgdir = cur_pagedir_bak`
  | acquirePool    -- choose `mem_pool` by `cur->pgdir`, then `lock_acquire(&mem_pool->lock)`
  | releasePool    -- `lock_release(&mem_pool->lock)`
  | acquireDisk    -- `lock_acquire(&hd->my_channel->lock)`
  | releaseDisk    -- `lock_release(&hd->my_channel->lock)`
  | awaitDisk      -- `sema_down(&hd->my_channel->disk_done)`
  deriving DecidableEq, Repr

/-- `sys_malloc`, for a size below the size of the pool, and `sys_free`. -/
def sysMalloc : List Stmt := [.acquirePool, .work, .releasePool]

def sysFree : List Stmt := [.acquirePool, .work, .releasePool]

/-- `ide_read` and `ide_write` of at most 256 sectors. -/
def ideRead : List Stmt := [.acquireDisk, .work, .awaitDisk, .work, .releaseDisk]

def ideWrite : List Stmt := [.acquireDisk, .work, .awaitDisk, .releaseDisk]

/-- `inode_open`, for an inode that is in `open_inode` already and for one that is not. -/
def inodeOpen : Bool → List Stmt
  | true => [.work]
  | false => [.work, .savePgdir, .clearPgdir] ++ sysMalloc ++ [.restorePgdir] ++ sysMalloc ++
      ideRead ++ [.work] ++ sysFree ++ [.work]

/-- `inode_close`, for the last opener and for any other. -/
def inodeClose : Bool → List Stmt
  | true => [.work, .savePgdir, .clearPgdir] ++ sysFree ++ [.restorePgdir, .work]
  | false => [.work]

/-- What `sync_dir_entry`, `inode_sync` and `bitmap_sync` are made of. -/
inductive DiskOp where
  | read | write | malloc | free
  deriving DecidableEq, Repr

def DiskOp.text : DiskOp → List Stmt
  | .read => ideRead
  | .write => ideWrite
  | .malloc => sysMalloc
  | .free => sysFree

/-- The ways through `file_create`. -/
inductive CreatePath where
  | noBuffer | noInode | noMemory | tableFull
  | syncFailed (disk : List DiskOp)
  | done (disk : List DiskOp)
  deriving DecidableEq, Repr

/-- `file_create`.  When `sys_malloc` fails inside the window, `goto rollback` with
`rollback_step` 1 passes by the statement that restores `pgdir`. -/
def fileCreate : CreatePath → List Stmt
  | .noBuffer => sysMalloc
  | .noInode => sysMalloc ++ [.work]
  | .noMemory => opening ++ [.work] ++ sysFree
  | .tableFull => opening ++ [.restorePgdir, .work] ++ rollback
  | .syncFailed disk => opening ++ [.restorePgdir, .work] ++ disk.flatMap DiskOp.text ++ rollback
  | .done disk => opening ++ [.restorePgdir, .work] ++ disk.flatMap DiskOp.text ++ [.work] ++
      sysFree ++ [.work]
where
  opening := sysMalloc ++ [.work, .savePgdir, .clearPgdir] ++ sysMalloc
  rollback := sysFree ++ [.restorePgdir, .work] ++ sysFree

inductive FsCall where
  | inodeOpen (cached : Bool)
  | inodeClose (last : Bool)
  | fileCreate (path : CreatePath)
  deriving DecidableEq, Repr

def FsCall.text : FsCall → List Stmt
  | .inodeOpen cached => Proc.inodeOpen cached
  | .inodeClose last => Proc.inodeClose last
  | .fileCreate path => Proc.fileCreate path

structure Machine where
  kernel : Kernel
  /-- the page directory made for a process, none for a kernel thread -/
  own : Tid → Option PageDir
  /-- the field `pgdir` -/
  pgdir : Tid → Option PageDir
  /-- what `page_dir_activate` loaded last, none for the kernel's page directory -/
  cr3 : Option PageDir
  /-- what is left of the call a task is in -/
  code : Tid → List Stmt
  /-- `cur_pagedir_bak` -/
  bak : Tid → Option PageDir
  /-- `mem_pool` -/
  pool : Tid → LockId

/-- Whether the event ends in `schedule`. -/
def schedules (k : Kernel) : Event → Bool
  | .timer => k.ticks k.cur = 0
  | .yield | .block _ => true
  | .semaDown n => (k.sema (.plain n)).value = 0
  | .resume =>
      match k.pc k.cur with
      | .semaWait s => (k.sema s).value = 0
      | .lockOp l .acqDown => (k.sema (.ofLock l)).value = 0
      | _ => false
  | _ => false

namespace Machine

/-- A step of the kernel; `schedule` ends with `process_activate(next)`. -/
def kernelStep (m : Machine) (e : Event) : Except Assertion Machine := do
  let k ← Sched.step m.kernel e
  return { m with
    kernel := k
    cr3 := if schedules m.kernel e then m.pgdir k.cur else m.cr3 }

def setPgdir (m : Machine) (p : Option PageDir) : Machine :=
  { m with pgdir := Function.update m.pgdir m.kernel.cur p }

def setCode (m : Machine) (text : List Stmt) : Machine :=
  { m with code := Function.update m.code m.kernel.cur text }

/-- The pool `sys_malloc` and `sys_free` work on. -/
def choosePool (m : Machine) : LockId :=
  if m.pgdir m.kernel.cur = none then kernelPool else userPool

/-- The event of the kernel that a statement is, if it is one. -/
def eventOf (m : Machine) : Stmt → Option Event
  | .acquirePool => some (.lockAcquire m.choosePool)
  | .releasePool => some (.lockRelease (m.pool m.kernel.cur))
  | .acquireDisk => some (.lockAcquire channelLock)
  | .releaseDisk => some (.lockRelease channelLock)
  | .awaitDisk => some (.semaDown diskDone)
  | _ => none

/-- The writes of a statement to the variables of the task. -/
def assign (m : Machine) : Stmt → Machine
  | .savePgdir => { m with
      bak := Function.update m.bak m.kernel.cur (m.pgdir m.kernel.cur) }
  | .clearPgdir => m.setPgdir none
  | .restorePgdir => m.setPgdir (m.bak m.kernel.cur)
  | .acquirePool => { m with pool := Function.update m.pool m.kernel.cur m.choosePool }
  | _ => m

/-- The next statement of the running task. -/
def exec (m : Machine) : Except Assertion Machine :=
  match m.code m.kernel.cur with
  | [] => return m
  | stmt :: rest =>
      match m.eventOf stmt with
      | none => return (m.assign stmt).setCode rest
      | some e => ((m.assign stmt).setCode rest).kernelStep e

end Machine

inductive MachineEvent where
  /-- the running task calls one of the three functions -/
  | call (f : FsCall)
  /-- the running task executes the next statement of its call -/
  | exec
  /-- anything else that happens in the kernel -/
  | kernel (e : Event)
  deriving DecidableEq, Repr

namespace Machine

def step (m : Machine) : MachineEvent → Except Assertion Machine
  | .call f => return m.setCode f.text
  | .exec => m.exec
  | .kernel e => m.kernelStep e

/-- A task inside a call does nothing else, but handlers interrupt it. -/
def Enabled (m : Machine) : MachineEvent → Prop
  | .call _ => m.kernel.pc m.kernel.cur = .user ∧ m.kernel.cur ≠ m.kernel.idle ∧
      m.code m.kernel.cur = []
  | .exec => m.kernel.pc m.kernel.cur = .user ∧ ∃ stmt ∈ (m.code m.kernel.cur).head?,
      ∀ e ∈ m.eventOf stmt, Sched.Enabled m.kernel e
  | .kernel e => Sched.Enabled m.kernel e ∧
      match e with
      | .timer | .wakeup _ | .semaUp _ | .resume => True
      | _ => m.code m.kernel.cur = []

instance (m : Machine) (e : MachineEvent) : Decidable (m.Enabled e) :=
  match e with
  | .call _ => inferInstanceAs (Decidable (_ ∧ _))
  | .exec => inferInstanceAs (Decidable (_ ∧ _))
  | .kernel e => @instDecidableAnd _ _ (inferInstanceAs (Decidable (Sched.Enabled m.kernel e)))
      (match e with
      | .timer | .wakeup _ | .semaUp _ | .resume => inferInstanceAs (Decidable True)
      | .threadStart _ _ | .yield | .block _ | .semaDown _ | .lockAcquire _ | .lockRelease _ =>
          inferInstanceAs (Decidable (m.code m.kernel.cur = [])))

end Machine

/-- Any assignment of page directories to the tasks that will run; a kernel thread runs first. -/
def machine : System Machine MachineEvent where
  init m := scheduler.init m.kernel ∧ m.own m.kernel.cur = none ∧ m.pgdir = m.own ∧
    m.bak = (fun _ => none) ∧ m.cr3 = none ∧ ∀ t, m.code t = []
  step m e m' := m.Enabled e ∧ m.step e = .ok m'

section Current

variable {k k' : Kernel}

theorem assert_ok {a : Assertion} {c : Prop} [Decidable c] {f : Unit → Sched.Result}
    (h : (assert a c >>= f) = .ok k') : f () = .ok k' := by
  by_cases hc : c
  · rwa [assert, if_pos hc] at h
  · rw [assert, if_neg hc] at h
    cases h

private theorem threadUnblock_cur {t : Tid} (h : threadUnblock k t = .ok k') : k'.cur = k.cur := by
  rw [threadUnblock] at h
  have h₁ := assert_ok h
  split at h₁
  · have h₂ := assert_ok h₁
    cases h₂
    rfl
  · cases h₁
    rfl

private theorem semaDown_cur {s : SemaId} (hv : (k.sema s).value ≠ 0) (h : semaDown k s = .ok k') :
    k'.cur = k.cur := by
  rw [semaDown, if_neg hv] at h
  have h₁ := assert_ok h
  cases h₁
  rfl

private theorem semaUp_cur {s : SemaId} (h : semaUp k s = .ok k') : k'.cur = k.cur := by
  rw [semaUp] at h
  have h₁ := assert_ok h
  cases hw : (k.sema s).waiters with
  | nil =>
      simp only [hw, pure_bind] at h₁
      have h₂ := assert_ok h₁
      cases h₂
      rfl
  | cons t rest =>
      simp only [hw] at h₁
      cases hu : threadUnblock (k.setSema s { k.sema s with waiters := rest }) t with
      | error a => rw [hu] at h₁; cases h₁
      | ok k₁ =>
          rw [hu] at h₁
          have h₂ := assert_ok h₁
          cases h₂
          have hcur := threadUnblock_cur hu
          exact hcur

private theorem lockStep_cur {l : LockId} {phase : LockPhase}
    (hv : phase = .acqDown → (k.sema (.ofLock l)).value ≠ 0) (h : lockStep k l phase = .ok k') :
    k'.cur = k.cur := by
  cases phase with
  | acqDown => exact semaDown_cur (hv rfl) h
  | relUp =>
      rw [lockStep] at h
      cases hu : semaUp k (.ofLock l) with
      | error a => rw [hu] at h; cases h
      | ok k₁ =>
          rw [hu] at h
          cases h
          have hcur := semaUp_cur hu
          exact hcur
  | acqAssert => cases assert_ok h; rfl
  | relAssert => cases assert_ok h; rfl
  | relTest =>
      rw [lockStep] at h
      split at h <;> cases h <;> rfl
  | acqHolder => cases h; rfl
  | acqRepeat => cases h; rfl
  | acqAgain => cases h; rfl
  | relDec => cases h; rfl
  | relHolder => cases h; rfl
  | relRepeat => cases h; rfl

private theorem cur_of_not_schedules {e : Event} (hs : schedules k e = false)
    (h : Sched.step k e = .ok k') : k'.cur = k.cur := by
  cases e with
  | timer =>
      change timerHandler k = .ok k' at h
      rw [timerHandler, if_neg (by simpa [schedules] using hs)] at h
      cases h
      rfl
  | threadStart t prio =>
      have h₁ := assert_ok h
      cases assert_ok h₁
      rfl
  | yield => cases hs
  | block stat => cases hs
  | wakeup t => exact threadUnblock_cur h
  | semaDown n => exact semaDown_cur (by simpa [schedules] using hs) h
  | semaUp n => exact semaUp_cur h
  | lockAcquire l =>
      change lockAcquire k l = .ok k' at h
      rw [lockAcquire] at h
      split at h <;> cases h <;> rfl
  | lockRelease l =>
      obtain ⟨-, rfl⟩ := lockRelease_eq h
      rfl
  | resume =>
      change resume k = .ok k' at h
      rw [resume] at h
      rw [schedules] at hs
      cases hpc : k.pc k.cur with
      | user => rw [hpc] at h; cases h; rfl
      | parked => rw [hpc] at h; cases h; rfl
      | semaWait s =>
          rw [hpc] at h hs
          exact semaDown_cur (by simpa using hs) h
      | lockOp l phase =>
          rw [hpc] at h hs
          refine lockStep_cur ?_ h
          rintro rfl
          simpa using hs

end Current

/-- Whether the event switches tasks. -/
def Machine.switches (m : Machine) : MachineEvent → Bool
  | .call _ => false
  | .exec => (m.code m.kernel.cur).head? = some .awaitDisk ∧
      schedules m.kernel (.semaDown diskDone) = true
  | .kernel e => schedules m.kernel e

/-- A process is not switched out while its `pgdir` is `NULL`. -/
def keepsPgdir (m : Machine) (e : MachineEvent) : Prop :=
  m.switches e = true → m.own m.kernel.cur ≠ none → m.pgdir m.kernel.cur ≠ none

/-- The task is between `cur->pgdir = NULL` and the statement that restores the field. -/
def Machine.InWindow (m : Machine) (t : Tid) : Prop :=
  m.pgdir t = none ∧ Stmt.restorePgdir ∈ m.code t

/-- Only the running process can have its field cleared, and its page directory is loaded
nevertheless. -/
structure Loaded (m : Machine) : Prop where
  cur : m.own m.kernel.cur ≠ none → m.cr3 = m.own m.kernel.cur
  others : ∀ t, t ≠ m.kernel.cur → m.pgdir t = m.own t
  field : ∀ t, m.pgdir t = m.own t ∨ m.pgdir t = none
  bak : ∀ t, m.bak t = m.own t ∨ m.bak t = none

namespace Machine

variable {m m' : Machine}

private theorem kernelStep_eq {e : Event} (h : m.kernelStep e = .ok m') : ∃ k,
    Sched.step m.kernel e = .ok k ∧ m' = { m with
      kernel := k, cr3 := if schedules m.kernel e then m.pgdir k.cur else m.cr3 } := by
  rw [kernelStep] at h
  cases hk : Sched.step m.kernel e with
  | error a => rw [hk] at h; cases h
  | ok k =>
      rw [hk] at h
      cases h
      exact ⟨k, rfl, rfl⟩

private theorem loaded_kernelStep {e : Event} (h : Loaded m) (hs : m.kernelStep e = .ok m')
    (hkeep : schedules m.kernel e = true → m.own m.kernel.cur ≠ none →
      m.pgdir m.kernel.cur ≠ none) : Loaded m' := by
  obtain ⟨k, hk, rfl⟩ := kernelStep_eq hs
  cases hsch : schedules m.kernel e with
  | false =>
      have hcur := cur_of_not_schedules hsch hk
      refine ⟨?_, ?_, h.field, h.bak⟩
      · intro hown
        rw [hcur] at hown ⊢
        exact h.cur hown
      · intro t ht
        rw [hcur] at ht
        exact h.others t ht
  | true =>
      -- nobody's field is cleared when the task is switched
      have hall : ∀ t, m.pgdir t = m.own t := by
        intro t
        by_cases ht : t = m.kernel.cur
        · subst ht
          rcases h.field m.kernel.cur with hf | hf
          · exact hf
          · by_contra hne
            rw [hf] at hne
            exact hkeep hsch (Ne.symm hne) hf
        · exact h.others t ht
      exact ⟨fun _ => by simpa using hall k.cur, fun t _ => hall t, h.field, h.bak⟩

private theorem loaded_setPgdir {p : Option PageDir} (h : Loaded m)
    (hp : p = m.own m.kernel.cur ∨ p = none) : Loaded (m.setPgdir p) := by
  refine ⟨h.cur, ?_, ?_, h.bak⟩
  · intro t ht
    exact (Function.update_of_ne ht _ _).trans (h.others t ht)
  · intro t
    change Function.update m.pgdir m.kernel.cur p t = m.own t ∨
      Function.update m.pgdir m.kernel.cur p t = none
    by_cases ht : t = m.kernel.cur
    · rw [ht, Function.update_self]
      exact hp
    · rw [Function.update_of_ne ht]
      exact h.field t

private theorem loaded_setCode (h : Loaded m) (text : List Stmt) : Loaded (m.setCode text) :=
  ⟨h.cur, h.others, h.field, h.bak⟩

private theorem loaded_assign (h : Loaded m) (stmt : Stmt) : Loaded (m.assign stmt) := by
  cases stmt with
  | savePgdir =>
      refine ⟨h.cur, h.others, h.field, ?_⟩
      intro t
      change Function.update m.bak m.kernel.cur _ t = m.own t ∨
        Function.update m.bak m.kernel.cur _ t = none
      by_cases ht : t = m.kernel.cur
      · rw [ht, Function.update_self]
        exact h.field m.kernel.cur
      · rw [Function.update_of_ne ht]
        exact h.bak t
  | clearPgdir => exact loaded_setPgdir h (Or.inr rfl)
  | restorePgdir => exact loaded_setPgdir h (h.bak m.kernel.cur)
  | acquirePool => exact ⟨h.cur, h.others, h.field, h.bak⟩
  | _ => exact h

private theorem loaded_exec (h : Loaded m) (hs : m.exec = .ok m') (hkeep : keepsPgdir m .exec) :
    Loaded m' := by
  rw [exec] at hs
  cases hc : m.code m.kernel.cur with
  | nil =>
      rw [hc] at hs
      cases hs
      exact h
  | cons stmt rest =>
      simp only [hc] at hs
      have hassign := loaded_setCode (loaded_assign h stmt) rest
      cases he : m.eventOf stmt with
      | none =>
          rw [he] at hs
          cases hs
          exact hassign
      | some e =>
          rw [he] at hs
          refine loaded_kernelStep hassign hs ?_
          cases stmt with
          | awaitDisk =>
              cases he
              intro hsch
              change schedules m.kernel (.semaDown diskDone) = true at hsch
              apply hkeep
              simp [switches, hc, hsch]
          | acquirePool => cases he; intro hsch; cases hsch
          | releasePool => cases he; intro hsch; cases hsch
          | acquireDisk => cases he; intro hsch; cases hsch
          | releaseDisk => cases he; intro hsch; cases hsch
          | work => cases he
          | savePgdir => cases he
          | clearPgdir => cases he
          | restorePgdir => cases he

private theorem loaded_step {e : MachineEvent} (h : Loaded m) (hs : m.step e = .ok m')
    (hkeep : keepsPgdir m e) : Loaded m' := by
  cases e with
  | call f =>
      cases hs
      exact loaded_setCode h _
  | exec => exact loaded_exec h hs hkeep
  | kernel e => exact loaded_kernelStep h hs hkeep

/-- The state after an event, if it can happen and trips no assertion. -/
def next (m : Machine) (e : MachineEvent) : Option Machine :=
  if m.Enabled e then (m.step e).toOption else none

theorem next_step {e : MachineEvent} (h : m.next e = some m') : machine.step m e m' := by
  rw [next] at h
  split at h
  · rename_i hen
    cases hs : m.step e with
    | error a => rw [hs] at h; cases h
    | ok m₁ =>
        rw [hs] at h
        cases h
        exact ⟨hen, hs⟩
  · cases h

end Machine

instance (m : Machine) (e : MachineEvent) : Decidable (keepsPgdir m e) :=
  inferInstanceAs (Decidable (_ → _ → _))

/-- Task 3 will be a process, `main`, `init` and `idle` are kernel threads. -/
def oneProcess : Machine where
  kernel := booted 0 1 2 (fun _ => 0)
  own := fun t => if t = 3 then some 5 else none
  pgdir := fun t => if t = 3 then some 5 else none
  cr3 := none
  code := fun _ => []
  bak := fun _ => none
  pool := fun _ => 0

private theorem oneProcess_init : machine.init oneProcess :=
  ⟨⟨0, 1, 2, fun _ => 0, by decide, by decide, by decide, threadInit_eq _ (by decide) (by decide)⟩,
    rfl, rfl, rfl, rfl, fun _ => rfl⟩

/-- Whenever a process runs outside its windows its own page directory is the one loaded, in
every run in which no process is switched out while its `pgdir` is `NULL`. -/
theorem own_page_directory_loaded {m : Machine} (h : (machine.restrict keepsPgdir).Reachable m)
    {p : PageDir} (hown : m.own m.kernel.cur = some p) (_ : ¬ m.InWindow m.kernel.cur) :
    m.cr3 = some p := by
  have hloaded : Loaded m := by
    refine h.invariant (P := Loaded) ?_ ?_
    · rintro m₀ ⟨-, hcur, hpg, hbak, -, -⟩
      refine ⟨fun hne => absurd hcur hne, ?_, ?_, ?_⟩
      · simp [hpg]
      · simp [hpg]
      · simp [hbak]
    · rintro m₀ e m₁ hl ⟨hkeep, -, hs⟩
      exact Machine.loaded_step hl hs hkeep
  rw [hloaded.cur (by simp [hown]), hown]

/-- The events of `lock_acquire` on a free lock after its first test, and of `lock_release`. -/
def acquired : List MachineEvent := List.replicate 4 (.kernel .resume)

def released : List MachineEvent := List.replicate 5 (.kernel .resume)

/-- `inode_open` up to the statement that restores `pgdir`, nobody else using the heap. -/
theorem own_page_directory_loaded_uncontended :
    ∃ m, (machine.restrict keepsPgdir).Reachable m ∧ m.kernel.cur = 3 ∧ m.cr3 = some 5 := by
  let es : List MachineEvent :=
    [.kernel (.threadStart 3 31), .kernel .yield, .kernel .yield, .kernel (.block .blocked),
      .call (.inodeOpen false), .exec, .exec, .exec, .exec] ++ acquired ++ [.exec, .exec] ++
      released ++ [.exec]
  have hrun : (es.foldlM (fun m e => if keepsPgdir m e then m.next e else none) oneProcess).map
      (fun m => (m.kernel.cur, m.own 3, m.pgdir 3)) = some (3, some 5, some 5) := by decide +kernel
  obtain ⟨m, hm, hv⟩ := Option.map_eq_some_iff.mp hrun
  simp only [Prod.mk.injEq] at hv
  obtain ⟨hcur, hown, hpg⟩ := hv
  have hr : (machine.restrict keepsPgdir).Reachable m := by
    refine .replay (fun m e m' _ hn => ?_) (.init oneProcess_init) hm
    split at hn
    · exact ⟨‹_›, Machine.next_step hn⟩
    · cases hn
  refine ⟨m, hr, hcur, own_page_directory_loaded hr (by rw [hcur, hown]) ?_⟩
  rw [hcur, Machine.InWindow, hpg]
  simp

/-- `main` holds the lock of the kernel pool when it is preempted; the process blocks on it
inside `inode_open`, is switched back to with `pgdir` cleared, and leaves the window on the
kernel's page directory. -/
theorem process_runs_on_kernel_page_directory : ∃ m p, machine.Reachable m ∧
    m.own m.kernel.cur = some p ∧ ¬ m.InWindow m.kernel.cur ∧ m.cr3 ≠ some p := by
  let es : List MachineEvent :=
    [.kernel (.threadStart 3 31), .kernel (.lockAcquire kernelPool)] ++ acquired ++
      List.replicate 32 (.kernel .timer) ++ [.kernel .yield, .kernel (.block .blocked),
      .call (.inodeOpen false), .exec, .exec, .exec, .exec, .kernel .resume,
      .kernel (.lockRelease kernelPool)] ++ released ++ [.kernel .yield] ++ acquired ++
      [.exec, .exec] ++ released ++ [.exec]
  have hrun : (es.foldlM Machine.next oneProcess).map
      (fun m => (m.kernel.cur, m.own 3, m.pgdir 3, m.cr3)) =
        some (3, some 5, some 5, none) := by decide +kernel
  obtain ⟨m, hm, hv⟩ := Option.map_eq_some_iff.mp hrun
  simp only [Prod.mk.injEq] at hv
  obtain ⟨hcur, hown, hpg, hcr3⟩ := hv
  refine ⟨m, 5, .replay (fun _ _ _ _ => Machine.next_step) (.init oneProcess_init) hm, ?_, ?_, ?_⟩
  · rw [hcur, hown]
  · rw [hcur, Machine.InWindow, hpg]
    simp
  · rw [hcr3]
    simp

end Aitos.Proc
