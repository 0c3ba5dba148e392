import Aitos.Sched.Queues

/-!
# Every run of the scheduler

The queue discipline holds in every state reached after `thread_init`, in whatever order threads
are started, preempted, blocked and woken, and the assertions of `schedule`, `thread_yield` and
`thread_unblock` never fail.
-/

namespace Aitos.Sched

open Framework

/-- The queues are right for the running thread, and interrupts are off exactly while it is
still inside `thread_block`. -/
structure Inv (k : Kernel) : Prop where
  queues : Queues k (some k.cur)
  intr : k.intrOn = (k.pc k.cur).intrOnResume

theorem Scheduled.inv {k k' : Kernel} (h : Scheduled k k') : Inv k' := ⟨h.queues, h.intr⟩

/-- The assertions that depend on what the callers do with semaphores and locks. -/
def Assertion.ofCaller : Assertion → Bool
  | .blockStatus | .semaDownValue | .semaUpValue | .lockAcquireRepeat | .lockReleaseHolder
  | .lockReleaseRepeat => true
  | _ => false

/-- A step either leads to a state in which `P` holds or stops at a caller's assertion. -/
def Safe (r : Result) (P : Kernel → Prop) : Prop :=
  (∃ k, r = .ok k ∧ P k) ∨ ∃ a, r = .error a ∧ a.ofCaller = true

theorem Safe.ok {k : Kernel} {P : Kernel → Prop} (h : P k) : Safe (.ok k) P := Or.inl ⟨k, rfl, h⟩

/-- A new thread, ready and in both lists. -/
def Kernel.started (k : Kernel) (t : Tid) (prio : Nat) : Kernel :=
  { k with
    status := Function.update k.status t .ready
    priority := Function.update k.priority t prio
    ticks := Function.update k.ticks t prio
    pc := Function.update k.pc t .user
    depth := Function.update k.depth t (fun _ => 0)
    ready := k.ready ++ [t]
    tasks := k.tasks ++ [t] }

/-- The running thread may test the value of `s`. -/
def Kernel.mayDown (k : Kernel) (s : SemaId) : Prop :=
  (k.pc k.cur = .user ∧ ∃ n, s = .plain n) ∨ k.pc k.cur = .semaWait s ∨
    ∃ l, s = .ofLock l ∧ k.pc k.cur = .lockOp l .acqDown

/-- Everything a step can do. -/
inductive Effect (k : Kernel) : Event → Kernel → Prop
  | world {e : Event} {k' : Kernel} : SameWorld k k' → Effect k e k'
  | start (t : Tid) (prio : Nat) : t ∉ k.tasks → Effect k (.threadStart t prio) (k.started t prio)
  | park {k' : Kernel} (stat : TaskStatus) : k.pc k.cur = .user →
      SameWorld ((k.setPc k.cur .parked).setStatus k.cur stat) k' → Effect k (.block stat) k'
  | unpark : k.pc k.cur = .parked → Effect k .resume (k.setPc k.cur .user).intrEnable
  | sleep {e : Event} {k' : Kernel} (s : SemaId) : k.mayDown s → (k.sema s).value = 0 →
      SameWorld (k.asleepOn s) k' → Effect k e k'
  | take {e : Event} (s : SemaId) : k.mayDown s → (k.sema s).value = 1 → Effect k e (k.taken s)
  | raise (n : Nat) : (k.sema (.plain n)).value = 0 → Effect k (.semaUp n) (k.raised (.plain n))
  | raiseLock (l : LockId) : k.pc k.cur = .lockOp l .relUp → (k.sema (.ofLock l)).value = 0 →
      Effect k .resume ((k.raised (.ofLock l)).setPc k.cur .user)
  | acquire {k' : Kernel} (l : LockId) : k.pc k.cur = .user → lockAcquire k l = .ok k' →
      Effect k (.lockAcquire l) k'
  | release {k' : Kernel} (l : LockId) : k.pc k.cur = .user → 0 < k.depth k.cur l →
      lockRelease k l = .ok k' → Effect k (.lockRelease l) k'
  | locked {k' : Kernel} (l : LockId) (phase : LockPhase) : k.pc k.cur = .lockOp l phase →
      phase ≠ .acqDown → phase ≠ .relUp → lockStep k l phase = .ok k' → Effect k .resume k'

def Next (k : Kernel) (e : Event) (k' : Kernel) : Prop := Inv k' ∧ Effect k e k'

section Steps

variable {k : Kernel}

private theorem Inv.cur_notBlocked (h : Inv k) : k.status k.cur ≠ .blocked := by
  rw [h.queues.cur_status]
  decide

private theorem Inv.intrOn_of_lockOp (h : Inv k) {l : LockId} {phase : LockPhase}
    (hp : k.pc k.cur = .lockOp l phase) : k.intrOn = true := by
  rw [h.intr, hp]
  rfl

theorem Inv.setPc (h : Inv k) {p : Pc} (hi : k.intrOn = true) (hp : p.intrOnResume = true)
    (hidle : k.cur = k.idle → p = .user ∨ p = .parked) : Inv (k.setPc k.cur p) := by
  refine ⟨h.queues.setPc h.cur_notBlocked hidle, ?_⟩
  change k.intrOn = (Function.update k.pc k.cur p k.cur).intrOnResume
  rw [Function.update_self, hi, hp]

theorem Inv.setLock (h : Inv k) (l : LockId) (v : Lock) : Inv (k.setLock l v) :=
  ⟨h.queues.congr rfl rfl rfl rfl rfl (fun _ => rfl), h.intr⟩

theorem Inv.setDepth (h : Inv k) (t : Tid) (l : LockId) (n : Nat) : Inv (k.setDepth t l n) :=
  ⟨h.queues.congr rfl rfl rfl rfl rfl (fun _ => rfl), h.intr⟩

private theorem timerHandler_next (h : Inv k) : Safe (timerHandler k) (Next k .timer) := by
  rw [timerHandler]
  by_cases ht : k.ticks k.cur = 0
  · rw [if_pos ht]
    have hq : Queues k.intrDisable (some k.intrDisable.cur) :=
      h.queues.congr rfl rfl rfl rfl rfl (fun _ => rfl)
    have hw : SameWorld k k.intrDisable := ⟨rfl, rfl, rfl, rfl, rfl, rfl, fun _ => Or.inl rfl⟩
    obtain ⟨k', hk, hs⟩ := schedule_running hq rfl
    rw [hk]
    exact Safe.ok ⟨hs.inv, .world (hw.trans hs.world)⟩
  · rw [if_neg ht]
    refine Safe.ok ⟨⟨h.queues.congr rfl rfl rfl rfl rfl (fun _ => rfl), h.intr⟩, .world ?_⟩
    exact ⟨rfl, rfl, rfl, rfl, rfl, rfl, fun _ => Or.inl rfl⟩

private theorem threadYield_next (h : Inv k) : Safe (threadYield k) (Next k .yield) := by
  let k₁ := (k.intrDisable.setReady (k.ready ++ [k.cur])).setStatus k.cur .ready
  have hq : Queues k₁ none := h.queues.requeue.congr rfl rfl rfl rfl rfl (fun _ => rfl)
  have hw : SameWorld k k₁ := by
    have hs := SameWorld.setStatus k k.cur .ready rfl
    exact ⟨rfl, rfl, rfl, rfl, rfl, rfl, hs.status⟩
  obtain ⟨k', hk, hs⟩ := schedule_stopped hq rfl h.queues.cur_mem
  have hnr : k.intrDisable.cur ∉ k.intrDisable.ready := h.queues.cur_notMem_ready
  rw [threadYield, assert_bind_eq _ _ hnr]
  change Safe (schedule k₁) (Next k .yield)
  rw [hk]
  exact Safe.ok ⟨hs.inv, .world (hw.trans hs.world)⟩

private theorem threadBlock_next (h : Inv k) (hp : k.pc k.cur = .user) (stat : TaskStatus) :
    Safe (threadBlock (k.setPc k.cur .parked) stat) (Next k (.block stat)) := by
  by_cases hb : stat.isBlocked = true
  · let k₁ := (k.setPc k.cur .parked).intrDisable.setStatus k.cur stat
    have hq : Queues k₁ none := (h.queues.park hb).congr rfl rfl rfl rfl rfl (fun _ => rfl)
    have hw : SameWorld ((k.setPc k.cur .parked).setStatus k.cur stat) k₁ :=
      ⟨rfl, rfl, rfl, rfl, rfl, rfl, fun _ => Or.inl rfl⟩
    obtain ⟨k', hk, hs⟩ := schedule_stopped hq rfl h.queues.cur_mem
    rw [threadBlock_eq _ hb]
    change Safe (schedule k₁) (Next k (.block stat))
    rw [hk]
    exact Safe.ok ⟨hs.inv, .park stat hp (hw.trans hs.world)⟩
  · refine Or.inr ⟨.blockStatus, ?_, rfl⟩
    simp [threadBlock, assert, hb, bind, Except.bind]

theorem threadStart_eq {t : Tid} (hr : t ∉ k.ready) (ht : t ∉ k.tasks) (prio : Nat) :
    threadStart k t prio = .ok (k.started t prio) := by
  rw [threadStart, assert_bind_eq _ _ hr, assert_bind_eq _ _ ht]
  rfl

private theorem threadStart_next (h : Inv k) {t : Tid} (ht : t ∉ k.tasks) (prio : Nat) :
    Safe (threadStart k t prio) (Next k (.threadStart t prio)) := by
  have hnr : t ∉ k.ready := fun hm => ht ((h.queues.memReady t).mp hm).1
  have hcur : k.cur ≠ t := fun he => ht (he ▸ h.queues.cur_mem)
  have hidle : k.idle ≠ t := fun he => ht (he ▸ h.queues.idleMem)
  rw [threadStart_eq hnr ht]
  refine Safe.ok ⟨?_, .start t prio ht⟩
  refine ⟨⟨?_, ?_, ?_, ?_, h.queues.waitersNodup, ?_, ?_, ?_⟩, ?_⟩
  · apply List.Nodup.append h.queues.readyNodup (List.nodup_singleton t)
    simpa using hnr
  · intro u
    change u ∈ k.ready ++ [t] ↔ u ∈ k.tasks ++ [t] ∧ Function.update k.status t .ready u = .ready
    by_cases hu : u = t
    · subst u
      simp
    · rw [Function.update_of_ne hu, List.mem_append, List.mem_append, h.queues.memReady]
      simp [hu]
  · intro u
    change u ∈ k.tasks ++ [t] ∧ Function.update k.status t .ready u = .running ↔
      some k.cur = some u
    by_cases hu : u = t
    · subst u
      simp [hcur]
    · rw [Function.update_of_ne hu, ← h.queues.running, List.mem_append]
      simp [hu]
  · intro u hm
    change Function.update k.status t .ready u ≠ .died
    by_cases hu : u = t
    · subst u
      simp
    · rw [Function.update_of_ne hu]
      exact h.queues.alive u (by simpa [Kernel.started, hu] using hm)
  · intro s u
    change u ∈ (k.sema s).waiters ↔ u ∈ k.tasks ++ [t] ∧
      Function.update k.status t .ready u = .blocked ∧ Function.update k.pc t .user u = .semaWait s
    rw [h.queues.memWaiters]
    by_cases hu : u = t
    · subst u
      simp [ht]
    · rw [Function.update_of_ne hu, Function.update_of_ne hu]
      simp [hu]
  · exact List.mem_append_left _ h.queues.idleMem
  · change Function.update k.pc t .user k.idle = .user ∨ Function.update k.pc t .user k.idle = .parked
    rw [Function.update_of_ne hidle]
    exact h.queues.idleFree
  · change k.intrOn = (Function.update k.pc t .user k.cur).intrOnResume
    rw [Function.update_of_ne hcur]
    exact h.intr

private theorem threadUnblock_next (h : Inv k) {t : Tid} (ht : t ∈ k.tasks) (hp : k.pc t = .parked)
    (hb : (k.status t).isBlocked = true) : Safe (threadUnblock k t) (Next k (.wakeup t)) := by
  rw [threadUnblock_eq hb (h.queues.notMem_ready_of_isBlocked hb)]
  refine Safe.ok ⟨⟨h.queues.unblock ht hb h.queues.waitersNodup ?_, h.intr⟩, .world ?_⟩
  · intro s u
    rw [h.queues.memWaiters]
    constructor
    · rintro ⟨hm, hs, hw⟩
      refine ⟨⟨hm, hs, hw⟩, ?_⟩
      rintro rfl
      rw [hp] at hw
      exact absurd hw (by simp)
    · exact fun hu => hu.1
  · exact (SameWorld.setReady k (t :: k.ready)).trans (SameWorld.setStatus _ t .ready rfl)

private theorem semaDown_next (h : Inv k) (hidle : k.cur ≠ k.idle) {s : SemaId} (hm : k.mayDown s)
    {e : Event} :
    Safe (semaDown k s) (Next k e) := by
  rcases semaDown_spec h.queues hidle s with ⟨hv, k', hk, hs⟩ | ⟨hv, hk⟩ | ⟨-, hk⟩
  · rw [hk]
    exact Safe.ok ⟨hs.inv, .sleep s hm hv hs.world⟩
  · rw [hk]
    refine Safe.ok ⟨⟨h.queues.taken hidle s, ?_⟩, .take s hm hv⟩
    change true = (Function.update k.pc k.cur s.next k.cur).intrOnResume
    rw [Function.update_self]
    cases s <;> rfl
  · rw [hk]
    exact Or.inr ⟨_, rfl, rfl⟩

theorem raised_frame (k : Kernel) (s : SemaId) :
    (k.raised s).cur = k.cur ∧ (k.raised s).pc = k.pc ∧ (k.raised s).intrOn = k.intrOn ∧
      (k.raised s).lock = k.lock ∧ (k.raised s).depth = k.depth ∧ (k.raised s).tasks = k.tasks ∧
      (k.raised s).idle = k.idle := by
  rw [Kernel.raised]
  split <;> exact ⟨rfl, rfl, rfl, rfl, rfl, rfl, rfl⟩

theorem Inv.raised (h : Inv k) {s : SemaId} (hq : Queues (k.raised s) (some k.cur)) :
    Inv (k.raised s) := by
  obtain ⟨hcur, hpc, hi, -⟩ := raised_frame k s
  refine ⟨by rwa [hcur], ?_⟩
  rw [hi, hpc, hcur]
  exact h.intr

private theorem semaUp_next (h : Inv k) (n : Nat) :
    Safe (semaUp k (.plain n)) (Next k (.semaUp n)) := by
  rcases semaUp_spec h.queues (.plain n) with ⟨hv, hk, hq⟩ | ⟨-, hk⟩
  · rw [hk]
    exact Safe.ok ⟨h.raised hq, .raise n hv⟩
  · rw [hk]
    exact Or.inr ⟨_, rfl, rfl⟩

theorem Inv.cur_ne_idle (h : Inv k) (hu : k.pc k.cur ≠ .user) (hp : k.pc k.cur ≠ .parked) :
    k.cur ≠ k.idle := by
  intro he
  rw [he] at hu hp
  exact h.queues.idleFree.elim hu hp

private theorem lockStep_next (h : Inv k) {l : LockId} {phase : LockPhase}
    (hp : k.pc k.cur = .lockOp l phase) : Safe (lockStep k l phase) (Next k .resume) := by
  have hi := h.intrOn_of_lockOp hp
  have hidle : k.cur ≠ k.idle := h.cur_ne_idle (by simp [hp]) (by simp [hp])
  have hmove : ∀ p : Pc, p.intrOnResume = true → Inv (k.setPc k.cur p) :=
    fun p hr => h.setPc hi hr (fun he => absurd he hidle)
  have hlocked : ∀ {k'}, Inv k' → phase ≠ .acqDown → phase ≠ .relUp →
      lockStep k l phase = .ok k' → Safe (lockStep k l phase) (Next k .resume) :=
    fun hinv hd hu hk => Or.inl ⟨_, hk, hinv, .locked l phase hp hd hu hk⟩
  cases phase with
  | acqDown => exact semaDown_next h hidle (Or.inr (Or.inr ⟨l, rfl, hp⟩))
  | acqHolder =>
      exact hlocked ((h.setLock l _).setPc hi rfl (fun he => absurd he hidle)) (by decide)
        (by decide) rfl
  | acqAssert =>
      by_cases hc : (k.lock l).holderRepeatNr = 0
      · refine hlocked (hmove (.lockOp l .acqRepeat) rfl) (by decide) (by decide) ?_
        rw [lockStep, assert_bind_eq _ _ hc]
        rfl
      · exact Or.inr ⟨.lockAcquireRepeat, by simp [lockStep, assert, hc, bind, Except.bind], rfl⟩
  | acqRepeat =>
      exact hlocked (((h.setLock l _).setDepth _ l _).setPc hi rfl (fun he => absurd he hidle))
        (by decide) (by decide) rfl
  | acqAgain =>
      exact hlocked (((h.setLock l _).setDepth _ l _).setPc hi rfl (fun he => absurd he hidle))
        (by decide) (by decide) rfl
  | relTest =>
      by_cases hc : (k.lock l).holderRepeatNr > 1
      · refine hlocked (hmove (.lockOp l .relDec) rfl) (by decide) (by decide) ?_
        rw [lockStep, if_pos hc]
        rfl
      · refine hlocked (hmove (.lockOp l .relAssert) rfl) (by decide) (by decide) ?_
        rw [lockStep, if_neg hc]
        rfl
  | relDec =>
      exact hlocked (((h.setLock l _).setDepth _ l _).setPc hi rfl (fun he => absurd he hidle))
        (by decide) (by decide) rfl
  | relAssert =>
      by_cases hc : (k.lock l).holderRepeatNr = 1
      · refine hlocked (hmove (.lockOp l .relHolder) rfl) (by decide) (by decide) ?_
        rw [lockStep, assert_bind_eq _ _ hc]
        rfl
      · exact Or.inr ⟨.lockReleaseRepeat, by simp [lockStep, assert, hc, bind, Except.bind], rfl⟩
  | relHolder =>
      exact hlocked (((h.setLock l _).setDepth _ l _).setPc hi rfl (fun he => absurd he hidle))
        (by decide) (by decide) rfl
  | relRepeat =>
      exact hlocked ((h.setLock l _).setPc hi rfl (fun he => absurd he hidle)) (by decide)
        (by decide) rfl
  | relUp =>
      rcases semaUp_spec h.queues (.ofLock l) with ⟨hv, hk, hq⟩ | ⟨-, hk⟩
      · obtain ⟨hcur, -, hon, -, -, -, hid⟩ := raised_frame k (.ofLock l)
        have hinv := (h.raised hq).setPc (p := .user) (hon.trans hi) rfl
          (fun he => absurd he (by rwa [hcur, hid]))
        rw [lockStep, hk]
        refine Safe.ok ⟨hinv, ?_⟩
        rw [hcur]
        exact .raiseLock l hp hv
      · exact Or.inr ⟨_, by rw [lockStep, hk]; rfl, rfl⟩

private theorem resume_next (h : Inv k) (hp : k.pc k.cur ≠ .user) :
    Safe (resume k) (Next k .resume) := by
  rw [resume]
  cases hpc : k.pc k.cur with
  | user => exact absurd hpc hp
  | parked =>
      refine Safe.ok ⟨⟨?_, ?_⟩, .unpark hpc⟩
      · exact (h.queues.setPc h.cur_notBlocked (fun _ => Or.inl rfl)).congr rfl rfl rfl rfl rfl
          (fun _ => rfl)
      · change true = (Function.update k.pc k.cur .user k.cur).intrOnResume
        rw [Function.update_self]
        rfl
  | semaWait s =>
      exact semaDown_next h (h.cur_ne_idle hp (by simp [hpc])) (Or.inr (Or.inl hpc))
  | lockOp l phase => exact lockStep_next h hpc

private theorem step_next (h : Inv k) {e : Event} (he : Enabled k e) :
    Safe (step k e) (Next k e) := by
  have huser : k.pc k.cur = .user → k.intrOn = true := by
    intro hp
    rw [h.intr, hp]
    rfl
  cases e with
  | timer => exact timerHandler_next h
  | threadStart t prio => exact threadStart_next h he.2.2 prio
  | yield => exact threadYield_next h
  | block stat => exact threadBlock_next h he.1 stat
  | wakeup t => exact threadUnblock_next h he.2.1 he.2.2.2.1 he.2.2.2.2
  | semaDown n => exact semaDown_next h he.2 (Or.inl ⟨he.1, n, rfl⟩)
  | semaUp n => exact semaUp_next h n
  | lockAcquire l =>
      have hmove : ∀ phase, Inv (k.setPc k.cur (.lockOp l phase)) :=
        fun phase => h.setPc (huser he.1) rfl (fun hi => absurd hi he.2)
      by_cases hh : (k.lock l).holder ≠ some k.cur
      · have hk : lockAcquire k l = .ok (k.setPc k.cur (.lockOp l .acqDown)) := if_pos hh
        exact Or.inl ⟨_, hk, hmove _, .acquire l he.1 hk⟩
      · have hk : lockAcquire k l = .ok (k.setPc k.cur (.lockOp l .acqAgain)) := if_neg hh
        exact Or.inl ⟨_, hk, hmove _, .acquire l he.1 hk⟩
  | lockRelease l =>
      by_cases hh : (k.lock l).holder = some k.cur
      · have hk : lockRelease k l = .ok (k.setPc k.cur (.lockOp l .relTest)) := by
          rw [lockRelease, assert_bind_eq _ _ hh]
          rfl
        exact Or.inl ⟨_, hk, h.setPc (huser he.1) rfl (fun hi => absurd hi he.2.1),
          .release l he.1 he.2.2 hk⟩
      · exact Or.inr ⟨.lockReleaseHolder, by simp [step, lockRelease, assert, hh, bind, Except.bind],
          rfl⟩
  | resume => exact resume_next h he

theorem Inv.effect (h : Inv k) {e : Event} {k' : Kernel} (he : Enabled k e)
    (hs : step k e = .ok k') : Inv k' ∧ Effect k e k' := by
  rcases step_next h he with ⟨k₁, hk, hn⟩ | ⟨a, hk, -⟩
  · rw [hs, Except.ok.injEq] at hk
    exact hk ▸ hn
  · rw [hs] at hk
    cases hk

end Steps

/-- The running thread executes statements of a lock function on `l`. -/
structure LockWrite (k : Kernel) (l : LockId) (k' : Kernel) : Prop where
  tasks : k'.tasks = k.tasks
  status : k'.status = k.status
  sema : k'.sema = k.sema
  lock : ∀ l', l' ≠ l → k'.lock l' = k.lock l'
  depth : ∀ t l', t ≠ k.cur ∨ l' ≠ l → k'.depth t l' = k.depth t l'
  pc : ∀ t, t ≠ k.cur → k'.pc t = k.pc t
  cur : k'.pc k.cur = .user ∨ ∃ phase, k'.pc k.cur = .lockOp l phase

section LockWrite

variable {k k' : Kernel} {l : LockId}

theorem LockWrite.refl_setPc (k : Kernel) (l : LockId) {p : Pc}
    (hp : p = .user ∨ ∃ phase, p = .lockOp l phase) : LockWrite k l (k.setPc k.cur p) where
  tasks := rfl
  status := rfl
  sema := rfl
  lock _ _ := rfl
  depth _ _ _ := rfl
  pc _ ht := Function.update_of_ne ht _ _
  cur := by
    change Function.update k.pc k.cur p k.cur = .user ∨
      ∃ phase, Function.update k.pc k.cur p k.cur = .lockOp l phase
    rwa [Function.update_self]

theorem LockWrite.setLock (h : LockWrite k l k') (v : Lock) : LockWrite k l (k'.setLock l v) :=
  { h with lock := fun l' hl => (Function.update_of_ne hl _ _).trans (h.lock l' hl) }

theorem LockWrite.setDepth (h : LockWrite k l k') (n : Nat) :
    LockWrite k l (k'.setDepth k.cur l n) := by
  refine { h with depth := fun t l' ht => ?_ }
  change Function.update k'.depth k.cur (Function.update (k'.depth k.cur) l n) t l' = k.depth t l'
  rw [← h.depth t l' ht]
  by_cases hc : t = k.cur
  · have hl : l' ≠ l := ht.resolve_left (fun hn => hn hc)
    rw [hc, Function.update_self, Function.update_of_ne hl]
  · rw [Function.update_of_ne hc]

theorem lockAcquire_write (hk : lockAcquire k l = .ok k') : LockWrite k l k' := by
  rw [lockAcquire] at hk
  split at hk <;> cases hk <;> exact .refl_setPc k l (Or.inr ⟨_, rfl⟩)

theorem lockRelease_eq (hk : lockRelease k l = .ok k') :
    (k.lock l).holder = some k.cur ∧ k' = k.setPc k.cur (.lockOp l .relTest) := by
  by_cases hh : (k.lock l).holder = some k.cur
  · rw [lockRelease, assert_bind_eq _ _ hh] at hk
    cases hk
    exact ⟨hh, rfl⟩
  · simp [lockRelease, assert, hh, bind, Except.bind] at hk

theorem lockStep_write {phase : LockPhase} (hd : phase ≠ .acqDown) (hu : phase ≠ .relUp)
    (hk : lockStep k l phase = .ok k') : LockWrite k l k' := by
  have hpc : ∀ phase, LockWrite k l (k.setPc k.cur (.lockOp l phase)) :=
    fun phase => .refl_setPc k l (Or.inr ⟨phase, rfl⟩)
  have huser : LockWrite k l (k.setPc k.cur .user) := .refl_setPc k l (Or.inl rfl)
  cases phase with
  | acqDown => exact absurd rfl hd
  | relUp => exact absurd rfl hu
  | acqHolder => cases hk; exact (hpc _).setLock _
  | acqAssert =>
      by_cases hc : (k.lock l).holderRepeatNr = 0
      · rw [lockStep, assert_bind_eq _ _ hc] at hk
        cases hk
        exact hpc _
      · simp [lockStep, assert, hc, bind, Except.bind] at hk
  | acqRepeat => cases hk; exact (huser.setLock _).setDepth _
  | acqAgain => cases hk; exact (huser.setLock _).setDepth _
  | relTest =>
      rw [lockStep] at hk
      split at hk <;> cases hk <;> exact hpc _
  | relDec => cases hk; exact (huser.setLock _).setDepth _
  | relAssert =>
      by_cases hc : (k.lock l).holderRepeatNr = 1
      · rw [lockStep, assert_bind_eq _ _ hc] at hk
        cases hk
        exact hpc _
      · simp [lockStep, assert, hc, bind, Except.bind] at hk
  | relHolder => cases hk; exact ((hpc _).setLock _).setDepth _
  | relRepeat => cases hk; exact (hpc _).setLock _

end LockWrite

/-- The state before the first thread is made. -/
def blank (main idle : Tid) (value : Nat → Nat) : Kernel where
  tasks := []
  status := fun _ => .running
  ticks := fun _ => 0
  priority := fun _ => 0
  ready := []
  cur := main
  idle := idle
  intrOn := true
  sema
    | .plain n => ⟨value n, []⟩
    | .ofLock _ => ⟨1, []⟩
  lock := fun _ => ⟨none, 0⟩
  pc := fun _ => .user
  depth := fun _ _ => 0

/-- `make_main_thread` -/
def Kernel.addMain (k : Kernel) (main : Tid) : Kernel :=
  { k with
    tasks := k.tasks ++ [main]
    priority := Function.update k.priority main 31
    ticks := Function.update k.ticks main 31 }

/-- The state `thread_init` leaves. -/
def booted (main init idle : Tid) (value : Nat → Nat) : Kernel :=
  (((blank main idle value).started init 31).addMain main).started idle 10

theorem threadInit_eq {main init idle : Tid} (value : Nat → Nat) (hii : init ≠ idle)
    (hmd : main ≠ idle) :
    threadInit main init idle value = .ok (booted main init idle value) := by
  have h₁ : threadStart (blank main idle value) init 31 =
      .ok ((blank main idle value).started init 31) :=
    threadStart_eq (by simp [blank]) (by simp [blank]) 31
  have h₂ : threadStart (((blank main idle value).started init 31).addMain main) idle 10 =
      .ok (booted main init idle value) := by
    apply threadStart_eq
    · simpa [Kernel.addMain, Kernel.started, blank] using hii.symm
    · simpa [Kernel.addMain, Kernel.started, blank] using ⟨hii.symm, hmd.symm⟩
  change (threadStart (blank main idle value) init 31 >>= fun k =>
    threadStart (k.addMain main) idle 10) = _
  rw [h₁]
  exact h₂

private theorem inv_booted {main init idle : Tid} (value : Nat → Nat) (hmi : main ≠ init)
    (hii : init ≠ idle) (hmd : main ≠ idle) : Inv (booted main init idle value) := by
  have hpc : ∀ t, (booted main init idle value).pc t = .user := by
    intro t
    simp [booted, Kernel.started, Kernel.addMain, blank]
  have hwait : ∀ s, ((booted main init idle value).sema s).waiters = [] := by
    intro s
    cases s <;> rfl
  have hready : (booted main init idle value).ready = [init, idle] := rfl
  have htasks : (booted main init idle value).tasks = [init, main, idle] := rfl
  have hstatus : ∀ t, (booted main init idle value).status t =
      if t = idle then .ready else if t = init then .ready else .running := by
    intro t
    simp [booted, Kernel.started, Kernel.addMain, blank, Function.update_apply]
  have hcur : (booted main init idle value).cur = main := rfl
  refine ⟨⟨?_, ?_, ?_, ?_, ?_, ?_, ?_, Or.inl (hpc _)⟩, by rw [hpc]; rfl⟩
  · simpa [hready] using hii
  · intro t
    rw [hready, htasks, hstatus]
    grind
  · intro t
    rw [htasks, hstatus, hcur]
    grind
  · intro t _
    rw [hstatus]
    grind
  · intro s
    rw [hwait]
    exact List.nodup_nil
  · intro s t
    rw [hwait, hpc]
    simp
  · rw [htasks]
    simp [booted, Kernel.started, Kernel.addMain, blank]

theorem Reachable.inv {k : Kernel} (h : scheduler.Reachable k) : Inv k := by
  refine h.invariant ?_ ?_
  · rintro s ⟨main, init, idle, value, hmi, hii, hmd, hs⟩
    rw [threadInit_eq value hii hmd, Except.ok.injEq] at hs
    exact hs ▸ inv_booted value hmi hii hmd
  · rintro s e s' hinv ⟨he, hs⟩
    exact (hinv.effect he hs).1

/-- The state after a list of events, if each of them can happen and none trips an assertion. -/
def run (k : Kernel) : List Event → Option Kernel
  | [] => some k
  | e :: es =>
      if Enabled k e then
        match step k e with
        | .ok k' => run k' es
        | .error _ => none
      else none

theorem Reachable.run {S : System Kernel Event} {es : List Event} {k k' : Kernel}
    (h : S.Reachable k)
    (hS : ∀ {k₁ e k₂}, e ∈ es → Enabled k₁ e → step k₁ e = .ok k₂ → S.step k₁ e k₂)
    (hk : run k es = some k') : S.Reachable k' := by
  induction es generalizing k with
  | nil =>
      cases hk
      exact h
  | cons e es ih =>
      rw [Sched.run] at hk
      split at hk
      · rename_i he
        split at hk
        · rename_i k₁ hs
          exact ih (h.step (hS List.mem_cons_self he hs)) (fun hm => hS (List.mem_cons_of_mem e hm)) hk
        · cases hk
      · cases hk

/-- The lists a thread's `general_tag` can be linked in. -/
inductive Queue where
  | ready
  | waiters (s : SemaId)

def Kernel.queue (k : Kernel) : Queue → List Tid
  | .ready => k.ready
  | .waiters s => (k.sema s).waiters

/-- The assertions in `schedule`, `thread_yield` and `thread_unblock`. -/
def schedulerAssertions : List Assertion :=
  [.scheduleIntrOff, .scheduleNotReady, .scheduleNonempty, .yieldNotReady, .unblockStatus,
    .unblockNotReady]

private theorem Queues.status_of_mem_queue {k : Kernel} {run : Option Tid} (h : Queues k run)
    {t : Tid} {q : Queue} (ht : t ∈ k.queue q) : q = .ready ∧ k.status t = .ready ∨
      ∃ s, q = .waiters s ∧ k.status t = .blocked ∧ k.pc t = .semaWait s := by
  cases q with
  | ready => exact Or.inl ⟨rfl, ((h.memReady t).mp ht).2⟩
  | waiters s => exact Or.inr ⟨s, rfl, ((h.memWaiters s t).mp ht).2⟩

private theorem Queues.queue_unique {k : Kernel} {run : Option Tid} (h : Queues k run) {t : Tid}
    {q q' : Queue} (ht : t ∈ k.queue q) (ht' : t ∈ k.queue q') : q = q' := by
  rcases h.status_of_mem_queue ht with ⟨rfl, hs⟩ | ⟨s, rfl, hs, hp⟩ <;>
    rcases h.status_of_mem_queue ht' with ⟨rfl, hs'⟩ | ⟨s', rfl, hs', hp'⟩
  · rfl
  · rw [hs] at hs'
    cases hs'
  · rw [hs] at hs'
    cases hs'
  · rw [hp, Pc.semaWait.injEq] at hp'
    rw [hp']

private theorem Queues.queue_nodup {k : Kernel} {run : Option Tid} (h : Queues k run) (q : Queue) :
    (k.queue q).Nodup := by
  cases q with
  | ready => exact h.readyNodup
  | waiters s => exact h.waitersNodup s

/-- In every reachable state one thread runs, the ready queue holds the ready threads, no tag is
linked twice, and no step trips an assertion of the scheduler. -/
theorem scheduler_queues_safe {k : Kernel} (h : scheduler.Reachable k) :
    (∃! t, t ∈ k.tasks ∧ k.status t = .running) ∧
    (∀ t ∈ k.tasks, k.status t = .running → t ∉ k.ready) ∧
    k.ready.Nodup ∧
    (∀ t, t ∈ k.ready ↔ t ∈ k.tasks ∧ k.status t = .ready) ∧
    (∀ q, (k.queue q).Nodup) ∧
    (∀ t q q', t ∈ k.queue q → t ∈ k.queue q' → q = q') ∧
    ∀ e, Enabled k e → ∀ a ∈ schedulerAssertions, step k e ≠ .error a := by
  have hinv := Reachable.inv h
  have hq := hinv.queues
  refine ⟨⟨k.cur, ⟨hq.cur_mem, hq.cur_status⟩, ?_⟩, ?_, hq.readyNodup, hq.memReady,
    hq.queue_nodup, fun t q q' => hq.queue_unique, ?_⟩
  · intro t ht
    exact (Option.some.inj ((hq.running t).mp ht)).symm
  · intro t _ hs hm
    have hr := ((hq.memReady t).mp hm).2
    rw [hs] at hr
    cases hr
  · intro e he a ha herr
    rcases step_next hinv he with ⟨k', hk, -⟩ | ⟨a', hk, ha'⟩
    · rw [herr] at hk
      cases hk
    · rw [herr, Except.error.injEq] at hk
      subst a'
      fin_cases ha <;> cases ha'

/-- The first task sleeps on a semaphore that is down, the next one raises it and runs on. -/
theorem scheduler_queues_safe_booted :
    ∃ k, run (booted 0 1 2 (fun _ => 0)) [.semaDown 0, .semaUp 0] = some k ∧
      k.ready = [0, 2] ∧ (∃! t, t ∈ k.tasks ∧ k.status t = .running) ∧ k.status 0 = .ready ∧
      step k .yield ≠ .error .yieldNotReady := by
  have hsome : (run (booted 0 1 2 (fun _ => 0)) [.semaDown 0, .semaUp 0]).isSome = true := by
    decide
  obtain ⟨k, hk⟩ := Option.isSome_iff_exists.mp hsome
  have hb : scheduler.init (booted 0 1 2 (fun _ => 0)) :=
    ⟨0, 1, 2, fun _ => 0, by decide, by decide, by decide, threadInit_eq _ (by decide) (by decide)⟩
  have hr : scheduler.Reachable k := Reachable.run (.init hb) (fun _ he hs => ⟨he, hs⟩) hk
  have hval : (run (booted 0 1 2 (fun _ => 0)) [.semaDown 0, .semaUp 0]).map
      (fun k => (k.ready, decide (Enabled k .yield))) = some ([0, 2], true) := by decide
  rw [hk, Option.map_some, Option.some.injEq, Prod.mk.injEq] at hval
  obtain ⟨hready, henabled⟩ := hval
  obtain ⟨hrunning, -, -, hmem, -, -, hsafe⟩ := scheduler_queues_safe hr
  refine ⟨k, hk, hready, hrunning, ((hmem 0).mp ?_).2,
    hsafe .yield (of_decide_eq_true henabled) _ (by decide)⟩
  rw [hready]
  exact List.mem_cons_self

end Aitos.Sched
