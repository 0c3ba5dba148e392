import Aitos.Sched.Sync

/-!
# The ready queue and the wait queues

One `general_tag` per thread is shared by the ready queue and every wait queue.  `Queues k run`
says which queue each thread is in, given its status and the place it stands at, while `run` is
the thread with status `TASK_RUNNING`.  Inside `schedule` there is none.
-/

namespace Aitos.Sched

open Framework

structure Queues (k : Kernel) (run : Option Tid) : Prop where
  readyNodup : k.ready.Nodup
  memReady : ∀ t, t ∈ k.ready ↔ t ∈ k.tasks ∧ k.status t = .ready
  running : ∀ t, t ∈ k.tasks ∧ k.status t = .running ↔ run = some t
  alive : ∀ t ∈ k.tasks, k.status t ≠ .died
  waitersNodup : ∀ s, (k.sema s).waiters.Nodup
  memWaiters : ∀ s t, t ∈ (k.sema s).waiters ↔
    t ∈ k.tasks ∧ k.status t = .blocked ∧ k.pc t = .semaWait s
  idleMem : k.idle ∈ k.tasks
  idleFree : k.pc k.idle = .user ∨ k.pc k.idle = .parked

section Basics

variable {k : Kernel} {run : Option Tid} {t : Tid}

theorem assert_bind_eq {α : Type} (a : Assertion) {c : Prop} [Decidable c]
    (f : Unit → Except Assertion α) (h : c) : (assert a c >>= f) = f () := by
  simp [assert, h, bind, Except.bind]

theorem Queues.cur_mem (h : Queues k (some t)) : t ∈ k.tasks := ((h.running t).mpr rfl).1

theorem Queues.cur_status (h : Queues k (some t)) : k.status t = .running :=
  ((h.running t).mpr rfl).2

theorem Queues.cur_notMem_ready (h : Queues k (some t)) : t ∉ k.ready := by
  intro hm
  have hs := ((h.memReady t).mp hm).2
  rw [h.cur_status] at hs
  exact absurd hs (by decide)

theorem isBlocked_eq_false {st : TaskStatus} :
    st.isBlocked = false ↔ st = .running ∨ st = .ready ∨ st = .died := by
  cases st <;> simp [TaskStatus.isBlocked]

theorem Queues.notMem_ready_of_isBlocked (h : Queues k run) (hb : (k.status t).isBlocked = true) :
    t ∉ k.ready := by
  intro hm
  rw [((h.memReady t).mp hm).2] at hb
  exact absurd hb (by decide)

private theorem Queues.isBlocked_of_idle (h : Queues k none) (ht : t ∈ k.tasks) (hr : t ∉ k.ready) :
    (k.status t).isBlocked = true := by
  rw [← Bool.not_eq_false, isBlocked_eq_false]
  rintro (hs | hs | hs)
  · exact absurd ((h.running t).mp ⟨ht, hs⟩) (by simp)
  · exact hr ((h.memReady t).mpr ⟨ht, hs⟩)
  · exact h.alive t ht hs

theorem threadUnblock_eq (hb : (k.status t).isBlocked = true) (hr : t ∉ k.ready) :
    threadUnblock k t = .ok ((k.setReady (t :: k.ready)).setStatus t .ready) := by
  have hne : k.status t ≠ .ready := by
    intro hs
    rw [hs] at hb
    exact absurd hb (by decide)
  rw [threadUnblock, assert_bind_eq _ _ hb, if_pos hne, assert_bind_eq _ _ hr]
  rfl

end Basics

section Changes

variable {k : Kernel} {run : Option Tid}

theorem Queues.congr (h : Queues k run) {k' : Kernel} (htasks : k'.tasks = k.tasks)
    (hstatus : k'.status = k.status) (hready : k'.ready = k.ready) (hidle : k'.idle = k.idle)
    (hpc : k'.pc = k.pc) (hwait : ∀ s, (k'.sema s).waiters = (k.sema s).waiters) :
    Queues k' run := by
  constructor
  · rw [hready]; exact h.readyNodup
  · rw [hready, htasks, hstatus]; exact h.memReady
  · rw [htasks, hstatus]; exact h.running
  · rw [htasks, hstatus]; exact h.alive
  · intro s; rw [hwait]; exact h.waitersNodup s
  · intro s; rw [hwait, htasks, hstatus, hpc]; exact h.memWaiters s
  · rw [hidle, htasks]; exact h.idleMem
  · rw [hidle, hpc]; exact h.idleFree

theorem Queues.setPc (h : Queues k run) {t : Tid} {p : Pc} (hs : k.status t ≠ .blocked)
    (hidle : t = k.idle → p = .user ∨ p = .parked) : Queues (k.setPc t p) run := by
  refine ⟨h.readyNodup, h.memReady, h.running, h.alive, h.waitersNodup, ?_, h.idleMem, ?_⟩
  · intro s u
    change u ∈ (k.sema s).waiters ↔ u ∈ k.tasks ∧ k.status u = .blocked ∧
      Function.update k.pc t p u = .semaWait s
    by_cases hu : u = t
    · subst u
      rw [h.memWaiters]
      simp [hs]
    · rw [Function.update_of_ne hu, h.memWaiters]
  · change Function.update k.pc t p k.idle = .user ∨ Function.update k.pc t p k.idle = .parked
    by_cases hi : k.idle = t
    · rw [hi, Function.update_self]
      exact hidle hi.symm
    · rw [Function.update_of_ne hi]
      exact h.idleFree

theorem Queues.sleep {t : Tid} (h : Queues k (some t)) {stat : TaskStatus} {p : Pc}
    {sema : SemaId → Semaphore} (hb : stat.isBlocked = true)
    (hidle : t = k.idle → p = .user ∨ p = .parked)
    (hnodup : ∀ s, (sema s).waiters.Nodup)
    (hmem : ∀ s u, u ∈ (sema s).waiters ↔
      u ∈ (k.sema s).waiters ∨ u = t ∧ stat = .blocked ∧ p = .semaWait s) :
    Queues (({ k with sema := sema }.setPc t p).setStatus t stat) none := by
  have hne : stat ≠ .ready ∧ stat ≠ .running ∧ stat ≠ .died := by
    cases stat <;> simp_all [TaskStatus.isBlocked]
  have hnw : ∀ s, t ∉ (k.sema s).waiters := by
    intro s hm
    have hs := ((h.memWaiters s t).mp hm).2.1
    rw [h.cur_status] at hs
    exact absurd hs (by decide)
  refine ⟨h.readyNodup, ?_, ?_, ?_, hnodup, ?_, h.idleMem, ?_⟩
  · intro u
    change u ∈ k.ready ↔ u ∈ k.tasks ∧ Function.update k.status t stat u = .ready
    by_cases hu : u = t
    · subst u
      simp [h.cur_notMem_ready, hne.1]
    · rw [Function.update_of_ne hu, h.memReady]
  · intro u
    change u ∈ k.tasks ∧ Function.update k.status t stat u = .running ↔ none = some u
    by_cases hu : u = t
    · subst u
      simp [hne.2.1]
    · rw [Function.update_of_ne hu, h.running]
      simp [Ne.symm hu]
  · intro u hm
    change Function.update k.status t stat u ≠ .died
    by_cases hu : u = t
    · subst u
      simpa using hne.2.2
    · rw [Function.update_of_ne hu]
      exact h.alive u hm
  · intro s u
    change u ∈ (sema s).waiters ↔ u ∈ k.tasks ∧ Function.update k.status t stat u = .blocked ∧
      Function.update k.pc t p u = .semaWait s
    rw [hmem]
    by_cases hu : u = t
    · subst u
      simp [hnw s, h.cur_mem]
    · rw [Function.update_of_ne hu, Function.update_of_ne hu, h.memWaiters]
      simp [hu]
  · change Function.update k.pc t p k.idle = .user ∨ Function.update k.pc t p k.idle = .parked
    by_cases hi : k.idle = t
    · rw [hi, Function.update_self]
      exact hidle hi.symm
    · rw [Function.update_of_ne hi]
      exact h.idleFree

theorem Queues.park {t : Tid} (h : Queues k (some t)) {stat : TaskStatus}
    (hb : stat.isBlocked = true) : Queues ((k.setPc t .parked).setStatus t stat) none := by
  apply h.sleep hb
  · intro _
    exact Or.inr rfl
  · exact h.waitersNodup
  · intro s u
    simp

/-- `thread_block` called by `sema_down` after it has appended the thread to the waiters. -/
theorem Queues.wait {t : Tid} (h : Queues k (some t)) (hidle : t ≠ k.idle) (s : SemaId) :
    Queues (((k.setSema s { k.sema s with waiters := (k.sema s).waiters ++ [t] }).setPc t
      (.semaWait s)).setStatus t .blocked) none := by
  have hnw : t ∉ (k.sema s).waiters := by
    intro hm
    have hs := ((h.memWaiters s t).mp hm).2.1
    rw [h.cur_status] at hs
    exact absurd hs (by decide)
  apply h.sleep rfl
  · intro hi
    exact absurd hi hidle
  · intro s'
    by_cases hs : s' = s
    · subst s'
      rw [Function.update_self]
      apply List.Nodup.append (h.waitersNodup s) (List.nodup_singleton t)
      simpa using hnw
    · rw [Function.update_of_ne hs]
      exact h.waitersNodup s'
  · intro s' u
    by_cases hs : s' = s
    · subst s'
      simp
    · rw [Function.update_of_ne hs]
      simp [Ne.symm hs]

/-- A sleeping thread is put at the head of the ready queue; if it slept on `s`, it is the
first of the wait queue and leaves it. -/
theorem Queues.unblock (h : Queues k run) {t : Tid} (ht : t ∈ k.tasks)
    (hb : (k.status t).isBlocked = true) {sema : SemaId → Semaphore}
    (hnodup : ∀ s, (sema s).waiters.Nodup)
    (hmem : ∀ s u, u ∈ (sema s).waiters ↔ u ∈ (k.sema s).waiters ∧ u ≠ t) :
    Queues (({ k with sema := sema }.setReady (t :: k.ready)).setStatus t .ready) run := by
  refine ⟨?_, ?_, ?_, ?_, hnodup, ?_, h.idleMem, h.idleFree⟩
  · exact List.nodup_cons.mpr ⟨h.notMem_ready_of_isBlocked hb, h.readyNodup⟩
  · intro u
    change u ∈ t :: k.ready ↔ u ∈ k.tasks ∧ Function.update k.status t .ready u = .ready
    by_cases hu : u = t
    · subst u
      simp [ht]
    · rw [Function.update_of_ne hu, List.mem_cons, h.memReady]
      simp [hu]
  · intro u
    change u ∈ k.tasks ∧ Function.update k.status t .ready u = .running ↔ run = some u
    by_cases hu : u = t
    · subst u
      have hs : k.status t ≠ .running := by
        intro hs
        rw [hs] at hb
        exact absurd hb (by decide)
      rw [← h.running, Function.update_self]
      simp [hs]
    · rw [Function.update_of_ne hu, h.running]
  · intro u hm
    change Function.update k.status t .ready u ≠ .died
    by_cases hu : u = t
    · subst u
      simp
    · rw [Function.update_of_ne hu]
      exact h.alive u hm
  · intro s u
    change u ∈ (sema s).waiters ↔ u ∈ k.tasks ∧ Function.update k.status t .ready u = .blocked ∧
      k.pc u = .semaWait s
    rw [hmem]
    by_cases hu : u = t
    · subst u
      simp
    · rw [Function.update_of_ne hu, h.memWaiters]
      simp [hu]

theorem Queues.requeue {t : Tid} (h : Queues k (some t)) :
    Queues ((k.setReady (k.ready ++ [t])).setStatus t .ready) none := by
  refine ⟨?_, ?_, ?_, ?_, h.waitersNodup, ?_, h.idleMem, h.idleFree⟩
  · apply List.Nodup.append h.readyNodup (List.nodup_singleton t)
    simpa using h.cur_notMem_ready
  · intro u
    change u ∈ k.ready ++ [t] ↔ u ∈ k.tasks ∧ Function.update k.status t .ready u = .ready
    by_cases hu : u = t
    · subst u
      simp [h.cur_mem]
    · rw [Function.update_of_ne hu, List.mem_append, h.memReady]
      simp [hu]
  · intro u
    change u ∈ k.tasks ∧ Function.update k.status t .ready u = .running ↔ none = some u
    by_cases hu : u = t
    · subst u
      simp
    · rw [Function.update_of_ne hu, h.running]
      simp [Ne.symm hu]
  · intro u hm
    change Function.update k.status t .ready u ≠ .died
    by_cases hu : u = t
    · subst u
      simp
    · rw [Function.update_of_ne hu]
      exact h.alive u hm
  · intro s u
    change u ∈ (k.sema s).waiters ↔ u ∈ k.tasks ∧ Function.update k.status t .ready u = .blocked ∧
      k.pc u = .semaWait s
    rw [h.memWaiters]
    by_cases hu : u = t
    · subst u
      simp [h.cur_status]
    · rw [Function.update_of_ne hu]

theorem Queues.switch (h : Queues k none) {next : Tid} {rest : List Tid}
    (hready : k.ready = next :: rest) : Queues (k.switchTo next rest) (some next) := by
  have hnd := h.readyNodup
  rw [hready, List.nodup_cons] at hnd
  have hnext := (h.memReady next).mp (by rw [hready]; exact List.mem_cons_self)
  refine ⟨hnd.2, ?_, ?_, ?_, h.waitersNodup, ?_, h.idleMem, h.idleFree⟩
  · intro u
    change u ∈ rest ↔ u ∈ k.tasks ∧ Function.update k.status next .running u = .ready
    by_cases hu : u = next
    · subst u
      simp [hnd.1]
    · rw [Function.update_of_ne hu, ← h.memReady, hready, List.mem_cons]
      simp [hu]
  · intro u
    change u ∈ k.tasks ∧ Function.update k.status next .running u = .running ↔ some next = some u
    by_cases hu : u = next
    · subst u
      simp [hnext.1]
    · rw [Function.update_of_ne hu, h.running]
      simp [Ne.symm hu]
  · intro u hm
    change Function.update k.status next .running u ≠ .died
    by_cases hu : u = next
    · subst u
      simp
    · rw [Function.update_of_ne hu]
      exact h.alive u hm
  · intro s u
    change u ∈ (k.sema s).waiters ↔ u ∈ k.tasks ∧
      Function.update k.status next .running u = .blocked ∧ k.pc u = .semaWait s
    rw [h.memWaiters]
    by_cases hu : u = next
    · subst u
      simp [hnext.2]
    · rw [Function.update_of_ne hu]

end Changes

/-- What `schedule` leaves alone: everything but who runs.  No thread goes to sleep. -/
structure SameWorld (k k' : Kernel) : Prop where
  tasks : k'.tasks = k.tasks
  idle : k'.idle = k.idle
  sema : k'.sema = k.sema
  lock : k'.lock = k.lock
  pc : k'.pc = k.pc
  depth : k'.depth = k.depth
  status : ∀ t, k'.status t = k.status t ∨ (k'.status t).isBlocked = false

theorem SameWorld.trans {a b c : Kernel} (h : SameWorld a b) (h' : SameWorld b c) :
    SameWorld a c := by
  refine ⟨h'.tasks.trans h.tasks, h'.idle.trans h.idle, h'.sema.trans h.sema, h'.lock.trans h.lock,
    h'.pc.trans h.pc, h'.depth.trans h.depth, fun t => ?_⟩
  rcases h'.status t with hs | hs
  · rw [hs]
    exact h.status t
  · exact Or.inr hs

theorem SameWorld.setStatus (k : Kernel) (t : Tid) (st : TaskStatus)
    (hst : st.isBlocked = false) : SameWorld k (k.setStatus t st) := by
  refine ⟨rfl, rfl, rfl, rfl, rfl, rfl, ?_⟩
  intro u
  change Function.update k.status t st u = k.status u ∨
    (Function.update k.status t st u).isBlocked = false
  by_cases he : u = t
  · subst u
    rw [Function.update_self]
    exact Or.inr hst
  · rw [Function.update_of_ne he]
    exact Or.inl rfl

theorem SameWorld.setReady (k : Kernel) (ts : List Tid) : SameWorld k (k.setReady ts) :=
  ⟨rfl, rfl, rfl, rfl, rfl, rfl, fun _ => Or.inl rfl⟩

theorem SameWorld.switchTo (k : Kernel) (next : Tid) (rest : List Tid) :
    SameWorld k (k.switchTo next rest) :=
  let h := (SameWorld.setReady k rest).trans (SameWorld.setStatus _ next .running rfl)
  ⟨h.tasks, h.idle, h.sema, h.lock, h.pc, h.depth, h.status⟩

/-- The state in which `schedule` has picked the next thread. -/
structure Scheduled (k k' : Kernel) : Prop where
  queues : Queues k' (some k'.cur)
  world : SameWorld k k'
  intr : k'.intrOn = (k'.pc k'.cur).intrOnResume

private theorem dispatch_spec {k : Kernel} (h : Queues k none) :
    ∃ k', dispatch k = .ok k' ∧ Scheduled k k' := by
  cases hready : k.ready with
  | cons next rest =>
      refine ⟨k.switchTo next rest, ?_, h.switch hready, SameWorld.switchTo k next rest, rfl⟩
      simp only [dispatch, hready, reduceCtorEq, if_false, pure_bind]
      rfl
  | nil =>
      have hb := h.isBlocked_of_idle h.idleMem (by rw [hready]; simp)
      have hnr := h.notMem_ready_of_isBlocked hb
      have hun := h.unblock h.idleMem hb h.waitersNodup (by
        intro s u
        rw [h.memWaiters]
        constructor
        · rintro ⟨hm, hs, hp⟩
          refine ⟨⟨hm, hs, hp⟩, ?_⟩
          rintro rfl
          rcases h.idleFree with hi | hi <;> simp [hi] at hp
        · exact fun hu => hu.1)
      let k₁ := (k.setReady (k.idle :: k.ready)).setStatus k.idle .ready
      have hw : SameWorld k k₁ :=
        (SameWorld.setReady k _).trans (SameWorld.setStatus _ k.idle .ready rfl)
      refine ⟨k₁.switchTo k.idle k.ready, ?_, hun.switch rfl,
        hw.trans (SameWorld.switchTo k₁ k.idle k.ready), rfl⟩
      rw [dispatch, if_pos hready, threadUnblock_eq hb hnr]
      rfl

theorem schedule_running {k : Kernel} (h : Queues k (some k.cur)) (hi : k.intrOn = false) :
    ∃ k', schedule k = .ok k' ∧ Scheduled k k' := by
  let k₁ := ((k.setReady (k.ready ++ [k.cur])).setTicks k.cur (k.priority k.cur)).setStatus
    k.cur .ready
  have hq : Queues k₁ none := h.requeue.congr rfl rfl rfl rfl rfl (fun _ => rfl)
  have hw : SameWorld k k₁ := by
    have h₁ := (SameWorld.setReady k (k.ready ++ [k.cur])).trans
      (SameWorld.setStatus _ k.cur .ready rfl)
    exact ⟨rfl, rfl, rfl, rfl, rfl, rfl, h₁.status⟩
  obtain ⟨k', hd, hs⟩ := dispatch_spec hq
  refine ⟨k', ?_, hs.queues, hw.trans hs.world, hs.intr⟩
  rw [schedule, requeue, assert_bind_eq _ _ hi, if_pos h.cur_status,
    assert_bind_eq _ _ h.cur_notMem_ready]
  exact hd

theorem schedule_stopped {k : Kernel} (h : Queues k none) (hi : k.intrOn = false)
    (hm : k.cur ∈ k.tasks) : ∃ k', schedule k = .ok k' ∧ Scheduled k k' := by
  have hne : k.status k.cur ≠ .running := by
    intro hs
    exact absurd ((h.running k.cur).mp ⟨hm, hs⟩) (by simp)
  obtain ⟨k', hd, hs⟩ := dispatch_spec h
  refine ⟨k', ?_, hs⟩
  rw [schedule, requeue, assert_bind_eq _ _ hi, if_neg hne]
  exact hd

/-- The running thread has appended itself to the waiters of `s` and blocked. -/
def Kernel.asleepOn (k : Kernel) (s : SemaId) : Kernel :=
  ((k.setSema s { k.sema s with waiters := (k.sema s).waiters ++ [k.cur] }).setPc k.cur
    (.semaWait s)).intrDisable.setStatus k.cur .blocked

/-- The running thread has taken the unit of `s`. -/
def Kernel.taken (k : Kernel) (s : SemaId) : Kernel :=
  ((k.setSema s { k.sema s with value := 0 }).setPc k.cur s.next).intrEnable

theorem threadBlock_eq (k : Kernel) {stat : TaskStatus} (hb : stat.isBlocked = true) :
    threadBlock k stat = schedule (k.intrDisable.setStatus k.cur stat) := by
  rw [threadBlock, assert_bind_eq _ _ hb]

/-- `sema_down` by the running thread sleeps, takes the unit, or trips its own assertion on a
semaphore that was above one; it trips none of the scheduler's. -/
theorem semaDown_spec {k : Kernel} (h : Queues k (some k.cur)) (hidle : k.cur ≠ k.idle)
    (s : SemaId) :
    ((k.sema s).value = 0 ∧ ∃ k', semaDown k s = .ok k' ∧ Scheduled (k.asleepOn s) k') ∨
    ((k.sema s).value = 1 ∧ semaDown k s = .ok (k.taken s)) ∨
    (1 < (k.sema s).value ∧ semaDown k s = .error .semaDownValue) := by
  have hnw : k.cur ∉ (k.sema s).waiters := by
    intro hm
    have hs := ((h.memWaiters s _).mp hm).2.1
    rw [h.cur_status] at hs
    exact absurd hs (by decide)
  rcases Nat.lt_trichotomy (k.sema s).value 1 with hv | hv | hv
  · have hz : (k.sema s).value = 0 := by omega
    refine Or.inl ⟨hz, ?_⟩
    have hq : Queues (k.asleepOn s) none :=
      (h.wait hidle s).congr rfl rfl rfl rfl rfl (fun _ => rfl)
    obtain ⟨k', hk, hs⟩ := schedule_stopped hq rfl h.cur_mem
    refine ⟨k', ?_, hs⟩
    simp only [semaDown]
    rw [if_pos hz, assert_bind_eq _ _ hnw, threadBlock_eq _ rfl]
    exact hk
  · refine Or.inr (Or.inl ⟨hv, ?_⟩)
    simp only [semaDown]
    rw [if_neg (by omega), assert_bind_eq _ _ (by omega), hv]
    rfl
  · refine Or.inr (Or.inr ⟨hv, ?_⟩)
    simp only [semaDown]
    rw [if_neg (by omega)]
    simp [assert, show ¬ (k.sema s).value - 1 = 0 by omega, bind, Except.bind]

theorem Queues.taken {k : Kernel} (h : Queues k (some k.cur)) (hidle : k.cur ≠ k.idle)
    (s : SemaId) : Queues (k.taken s) (some k.cur) := by
  have hset : Queues (k.setSema s { k.sema s with value := 0 }) (some k.cur) := by
    refine h.congr rfl rfl rfl rfl rfl (fun s' => ?_)
    by_cases hs : s' = s
    · subst s'
      simp [Kernel.setSema]
    · simp [Kernel.setSema, hs]
  have hpc := hset.setPc (t := k.cur) (p := s.next)
    (by
      change k.status k.cur ≠ .blocked
      rw [h.cur_status]
      decide)
    (fun hi => absurd hi hidle)
  exact hpc.congr rfl rfl rfl rfl rfl (fun _ => rfl)

/-- `sema_up` has woken the first waiter, if any, and raised the value. -/
def Kernel.raised (k : Kernel) (s : SemaId) : Kernel :=
  match (k.sema s).waiters with
  | [] => k.setSema s ⟨1, []⟩
  | t :: rest => ((k.setSema s ⟨1, rest⟩).setReady (t :: k.ready)).setStatus t .ready

theorem semaUp_spec {k : Kernel} {run : Option Tid} (h : Queues k run) (s : SemaId) :
    ((k.sema s).value = 0 ∧ semaUp k s = .ok (k.raised s) ∧ Queues (k.raised s) run) ∨
    ((k.sema s).value ≠ 0 ∧ semaUp k s = .error .semaUpValue) := by
  by_cases hv : (k.sema s).value = 0
  · refine Or.inl ⟨hv, ?_⟩
    simp only [semaUp]
    rw [assert_bind_eq _ _ hv]
    cases hw : (k.sema s).waiters with
    | nil =>
        refine ⟨?_, ?_⟩
        · simp only [pure_bind]
          rw [assert_bind_eq _ _ (by omega), Kernel.raised, hw]
          simp [hv]
          rfl
        · rw [Kernel.raised, hw]
          refine h.congr rfl rfl rfl rfl rfl (fun s' => ?_)
          by_cases hs : s' = s
          · subst s'
            simp [Kernel.setSema, hw]
          · simp [Kernel.setSema, hs]
    | cons t rest =>
        have ht := (h.memWaiters s t).mp (by rw [hw]; exact List.mem_cons_self)
        have hb : (k.status t).isBlocked = true := by rw [ht.2.1]; rfl
        have hnd := h.waitersNodup s
        rw [hw, List.nodup_cons] at hnd
        refine ⟨?_, ?_⟩
        · have hun := threadUnblock_eq (k := k.setSema s ⟨(k.sema s).value, rest⟩) hb
            (h.notMem_ready_of_isBlocked hb)
          simp only [hun, Kernel.raised, hw]
          simp [Kernel.setSema, Kernel.setReady, Kernel.setStatus, hv, bind, Except.bind, assert,
            pure, Except.pure]
        · rw [Kernel.raised, hw]
          apply h.unblock ht.1 hb
          · intro s'
            by_cases hs : s' = s
            · subst s'
              simpa using hnd.2
            · rw [Function.update_of_ne hs]
              exact h.waitersNodup s'
          · intro s' u
            by_cases hs : s' = s
            · subst s'
              rw [Function.update_self, hw, List.mem_cons]
              constructor
              · intro hu
                exact ⟨Or.inr hu, fun he => hnd.1 (he ▸ hu)⟩
              · rintro ⟨hu | hu, hne⟩
                · exact absurd hu hne
                · exact hu
            · rw [Function.update_of_ne hs]
              constructor
              · intro hu
                refine ⟨hu, ?_⟩
                rintro rfl
                have hp := ((h.memWaiters s' u).mp hu).2.2
                rw [ht.2.2] at hp
                simp only [Pc.semaWait.injEq] at hp
                exact hs hp.symm
              · exact fun hu => hu.1
  · refine Or.inr ⟨hv, ?_⟩
    simp [semaUp, assert, hv, bind, Except.bind]

end Aitos.Sched
