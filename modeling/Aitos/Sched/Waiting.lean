import Aitos.Framework.Amortised
import Aitos.Sched.Scheduler

/-!
# How long a ready thread waits

`schedule` serves the ready queue from its head, and a thread that has used up its ticks goes to the
end with a full slice; `thread_unblock` alone lets a thread in at the head.  So a ready thread waits
for the rest of the running thread's slice, for the slices of the threads ahead of it, and for those
of the threads that are woken meanwhile.
-/

namespace Aitos.Sched

open Framework

/-- The threads that a step puts at the head of the ready queue. -/
def Kernel.woken (k : Kernel) : Event → List Tid
  | .wakeup t => [t]
  | .semaUp n => (k.sema (.plain n)).waiters.take 1
  | .resume =>
      match k.pc k.cur with
      | .lockOp l .relUp => (k.sema (.ofLock l)).waiters.take 1
      | _ => []
  | _ => []

/-- The queue and the running thread's slice in one step: the running thread stays, or the head of
the queue takes over. -/
inductive Turn (k : Kernel) (e : Event) (k' : Kernel) : Prop where
  | stays (back : List Tid) (cur : k'.cur = k.cur) (ready : k'.ready = k.woken e ++ k.ready ++ back)
      (ticks : ∀ u ∈ k.tasks, k'.ticks u ≤ k.ticks u)
      (timer : e = .timer → k'.ticks k.cur < k.ticks k.cur)
  | switches (next : ∀ u us, k.ready = u :: us → k'.cur = u ∧ ∃ back, k'.ready = us ++ back)
      (ticks : ∀ u ≠ k.cur, k'.ticks u = k.ticks u)

/-- A slice is started afresh or gets shorter; priorities never change. -/
structure Slices (k k' : Kernel) : Prop where
  tasks : ∀ u ∈ k'.tasks, u ∈ k.tasks ∨ k'.ticks u = k'.priority u
  priority : ∀ u ∈ k.tasks, k'.priority u = k.priority u
  ticks : ∀ u ∈ k.tasks, k'.ticks u ≤ k.ticks u ∨ k'.ticks u = k'.priority u

section Steps

variable {k k' : Kernel}

theorem Slices.same (htasks : k'.tasks = k.tasks) (hpriority : k'.priority = k.priority)
    (hticks : k'.ticks = k.ticks) : Slices k k' where
  tasks u hu := .inl (htasks ▸ hu)
  priority u _ := by rw [hpriority]
  ticks u _ := .inl (by rw [hticks])

theorem Turn.same {e : Event} (hcur : k'.cur = k.cur) (hready : k'.ready = k.ready)
    (hticks : k'.ticks = k.ticks) (hwoken : k.woken e = []) (he : e ≠ .timer) : Turn k e k' :=
  .stays [] hcur (by rw [hready, hwoken, List.nil_append, List.append_nil])
    (fun u _ => by rw [hticks]) fun h => absurd h he

theorem Turn.setPc {e : Event} (h : Turn k e k') (t : Tid) (p : Pc) : Turn k e (k'.setPc t p) := by
  cases h with
  | stays back cur ready ticks timer => exact .stays back cur ready ticks timer
  | switches next ticks => exact .switches next ticks

private theorem assert_bind_ok {α : Type} {a : Assertion} {c : Prop} [Decidable c]
    {f : Unit → Except Assertion α} {r : α} (h : (assert a c >>= f) = .ok r) : f () = .ok r := by
  by_cases hc : c
  · rwa [assert_bind_eq _ _ hc] at h
  · simp [assert, hc, bind, Except.bind] at h

private theorem threadUnblock_ok {t : Tid} (h : threadUnblock k t = .ok k') :
    k'.tasks = k.tasks ∧ k'.priority = k.priority ∧ k'.ticks = k.ticks := by
  have hrest := assert_bind_ok h
  split at hrest
  · cases assert_bind_ok hrest
    exact ⟨rfl, rfl, rfl⟩
  · cases hrest
    exact ⟨rfl, rfl, rfl⟩

private theorem dispatch_ok (h : dispatch k = .ok k') :
    (k'.tasks = k.tasks ∧ k'.priority = k.priority ∧ k'.ticks = k.ticks) ∧
      ∀ u us, k.ready = u :: us → k'.cur = u ∧ k'.ready = us := by
  cases hready : k.ready with
  | cons u us =>
      simp only [dispatch, hready, reduceCtorEq, if_false, pure_bind] at h
      cases h
      refine ⟨⟨rfl, rfl, rfl⟩, ?_⟩
      intro v vs hv
      cases hv
      exact ⟨rfl, rfl⟩
  | nil =>
      refine ⟨?_, by simp⟩
      rw [dispatch, if_pos hready] at h
      cases hun : threadUnblock k k.idle with
      | error a =>
          rw [hun] at h
          cases h
      | ok k₁ =>
          rw [hun] at h
          simp only [bind, Except.bind] at h
          split at h
          · cases h
          · obtain ⟨htasks, hpriority, hticks⟩ := threadUnblock_ok hun
            cases h
            exact ⟨htasks, hpriority, hticks⟩

private theorem schedule_ok (h : schedule k = .ok k') :
    Slices k k' ∧ (∀ u us, k.ready = u :: us → k'.cur = u ∧ ∃ back, k'.ready = us ++ back) ∧
      ∀ u ≠ k.cur, k'.ticks u = k.ticks u := by
  have hrequeue : ∃ k₁ back, dispatch k₁ = .ok k' ∧ k₁.ready = k.ready ++ back ∧
      k₁.tasks = k.tasks ∧ k₁.priority = k.priority ∧
      (k₁.ticks = k.ticks ∨ k₁.ticks = Function.update k.ticks k.cur (k.priority k.cur)) := by
    rw [schedule, requeue, bind_assoc] at h
    have hrest := assert_bind_ok h
    split at hrest
    · rw [bind_assoc] at hrest
      exact ⟨_, [k.cur], assert_bind_ok hrest, rfl, rfl, rfl, .inr rfl⟩
    · exact ⟨k, [], hrest, (List.append_nil _).symm, rfl, rfl, .inl rfl⟩
  obtain ⟨k₁, back, hk, hready, htasks, hpriority, hticks⟩ := hrequeue
  obtain ⟨⟨htasks', hpriority', hticks'⟩, hnext⟩ := dispatch_ok hk
  refine ⟨⟨?_, ?_, ?_⟩, ?_, ?_⟩
  · intro u hu
    rw [htasks', htasks] at hu
    exact .inl hu
  · intro u _
    rw [hpriority', hpriority]
  · intro u _
    rw [hticks', hpriority', hpriority]
    rcases hticks with h | h
    · exact .inl (by rw [h])
    · by_cases hu : u = k.cur
      · subst u
        exact .inr (by rw [h, Function.update_self])
      · exact .inl (by rw [h, Function.update_of_ne hu])
  · intro u us hu
    rw [hready, hu] at hnext
    obtain ⟨hcur, hrest⟩ := hnext u (us ++ back) rfl
    exact ⟨hcur, back, hrest⟩
  · intro u hu
    rw [hticks']
    rcases hticks with h | h
    · rw [h]
    · rw [h, Function.update_of_ne hu]

private theorem schedule_turn {k₁ : Kernel} (back : List Tid) {e : Event} (h : schedule k₁ = .ok k')
    (htasks : k₁.tasks = k.tasks) (hpriority : k₁.priority = k.priority)
    (hticks : k₁.ticks = k.ticks) (hcur : k₁.cur = k.cur) (hready : k₁.ready = k.ready ++ back) :
    Slices k k' ∧ Turn k e k' := by
  obtain ⟨hslices, hnext, hother⟩ := schedule_ok h
  refine ⟨⟨?_, ?_, ?_⟩, .switches ?_ ?_⟩
  · rw [← htasks]
    exact hslices.tasks
  · rw [← htasks, ← hpriority]
    exact hslices.priority
  · rw [← htasks, ← hticks]
    exact hslices.ticks
  · intro u us hu
    rw [hready, hu] at hnext
    obtain ⟨hcur', back', hrest⟩ := hnext u (us ++ back) rfl
    exact ⟨hcur', back ++ back', by rw [hrest, List.append_assoc]⟩
  · rw [← hticks, ← hcur]
    exact hother

private theorem semaDown_turn {s : SemaId} {e : Event} (h : semaDown k s = .ok k')
    (hwoken : k.woken e = []) (he : e ≠ .timer) : Slices k k' ∧ Turn k e k' := by
  simp only [semaDown] at h
  split at h
  · have hblock := assert_bind_ok (assert_bind_ok h)
    exact schedule_turn [] hblock rfl rfl rfl rfl (List.append_nil _).symm
  · cases assert_bind_ok h
    exact ⟨.same rfl rfl rfl, .same rfl rfl rfl hwoken he⟩

private theorem raised_turn (s : SemaId) {e : Event}
    (hwoken : k.woken e = (k.sema s).waiters.take 1)
    (he : e ≠ .timer) : Slices k (k.raised s) ∧ Turn k e (k.raised s) := by
  rw [Kernel.raised]
  cases hw : (k.sema s).waiters with
  | nil => exact ⟨.same rfl rfl rfl, .same rfl rfl rfl (by rw [hwoken, hw]; rfl) he⟩
  | cons t rest =>
      refine ⟨.same rfl rfl rfl, .stays [] rfl ?_ (fun u _ => le_rfl) fun h => absurd h he⟩
      rw [hwoken, hw, List.append_nil]
      rfl

private theorem lockStep_turn {l : LockId} {phase : LockPhase} (hp : k.pc k.cur = .lockOp l phase)
    (hq : Queues k (some k.cur)) (h : lockStep k l phase = .ok k') :
    Slices k k' ∧ Turn k .resume k' := by
  have hplain : phase ≠ .relUp → k.woken .resume = [] := by
    intro hne
    simp only [Kernel.woken, hp]
    split
    · rename_i heq
      cases heq
      exact absurd rfl hne
    · rfl
  have hsame : ∀ k₁ : Kernel, phase ≠ .relUp → k₁.tasks = k.tasks → k₁.priority = k.priority →
      k₁.ticks = k.ticks → k₁.cur = k.cur → k₁.ready = k.ready → Slices k k₁ ∧ Turn k .resume k₁ :=
    fun k₁ hne ht hpr htk hc hr => ⟨.same ht hpr htk, .same hc hr htk (hplain hne) (by decide)⟩
  cases phase with
  | acqDown => exact semaDown_turn h (hplain (by decide)) (by decide)
  | acqHolder | acqRepeat | acqAgain | relDec | relHolder | relRepeat =>
      cases h
      exact hsame _ (by decide) rfl rfl rfl rfl rfl
  | acqAssert | relAssert =>
      cases assert_bind_ok h
      exact hsame _ (by decide) rfl rfl rfl rfl rfl
  | relTest =>
      rw [lockStep] at h
      split at h
      · cases h
        exact hsame _ (by decide) rfl rfl rfl rfl rfl
      · cases h
        exact hsame _ (by decide) rfl rfl rfl rfl rfl
  | relUp =>
      rcases semaUp_spec hq (.ofLock l) with ⟨-, hk, -⟩ | ⟨-, hk⟩
      · rw [lockStep, hk] at h
        cases h
        obtain ⟨hslices, hturn⟩ := raised_turn (k := k) (.ofLock l) (e := .resume)
          (by simp only [Kernel.woken, hp]) (by decide)
        exact ⟨⟨hslices.tasks, hslices.priority, hslices.ticks⟩, hturn.setPc _ _⟩
      · rw [lockStep, hk] at h
        cases h

private theorem resume_turn (hq : Queues k (some k.cur)) (hp : k.pc k.cur ≠ .user)
    (h : resume k = .ok k') : Slices k k' ∧ Turn k .resume k' := by
  rw [resume] at h
  cases hpc : k.pc k.cur with
  | user => exact absurd hpc hp
  | parked =>
      rw [hpc] at h
      cases h
      exact ⟨.same rfl rfl rfl, .same rfl rfl rfl (by simp only [Kernel.woken, hpc]) (by decide)⟩
  | semaWait s =>
      rw [hpc] at h
      exact semaDown_turn h (by simp only [Kernel.woken, hpc]) (by decide)
  | lockOp l phase =>
      rw [hpc] at h
      exact lockStep_turn hpc hq h

private theorem started_turn {t : Tid} (ht : t ∉ k.tasks) (prio : Nat) :
    Slices k (k.started t prio) ∧ Turn k (.threadStart t prio) (k.started t prio) := by
  have hother : ∀ (f : Tid → Nat), ∀ u ∈ k.tasks, Function.update f t prio u = f u := by
    intro f u hu
    apply Function.update_of_ne
    rintro rfl
    exact ht hu
  refine ⟨⟨?_, ?_, ?_⟩, .stays [t] rfl rfl ?_ fun h => ?_⟩
  · intro u hu
    rcases List.mem_append.mp hu with hu | hu
    · exact .inl hu
    · cases List.mem_singleton.mp hu
      exact .inr (by simp [Kernel.started])
  · exact fun u hu => hother k.priority u hu
  · exact fun u hu => .inl (hother k.ticks u hu).le
  · exact fun u hu => (hother k.ticks u hu).le
  · cases h

private theorem step_turn (h : Inv k) {e : Event} (he : Enabled k e) (hs : step k e = .ok k') :
    Slices k k' ∧ Turn k e k' := by
  cases e with
  | timer =>
      change timerHandler k = .ok k' at hs
      rw [timerHandler] at hs
      by_cases hzero : k.ticks k.cur = 0
      · rw [if_pos hzero] at hs
        exact schedule_turn (k := k) [] hs rfl rfl rfl rfl (List.append_nil _).symm
      · rw [if_neg hzero] at hs
        cases hs
        have hle : ∀ u, Function.update k.ticks k.cur (k.ticks k.cur - 1) u ≤ k.ticks u := by
          intro u
          by_cases hu : u = k.cur
          · subst u
            rw [Function.update_self]
            exact Nat.sub_le _ _
          · rw [Function.update_of_ne hu]
        refine ⟨⟨fun u hu => .inl hu, fun _ _ => rfl, fun u _ => .inl (hle u)⟩,
          .stays [] rfl (List.append_nil _).symm (fun u _ => hle u) fun _ => ?_⟩
        change Function.update k.ticks k.cur (k.ticks k.cur - 1) k.cur < k.ticks k.cur
        rw [Function.update_self]
        omega
  | threadStart t prio =>
      have hnr : t ∉ k.ready := fun hm => he.2.2 ((h.queues.memReady t).mp hm).1
      change threadStart k t prio = .ok k' at hs
      rw [threadStart_eq hnr he.2.2] at hs
      cases hs
      exact started_turn he.2.2 prio
  | yield =>
      change threadYield k = .ok k' at hs
      exact schedule_turn [k.cur] (assert_bind_ok hs) rfl rfl rfl rfl rfl
  | block stat =>
      change threadBlock (k.setPc k.cur .parked) stat = .ok k' at hs
      exact schedule_turn [] (assert_bind_ok hs) rfl rfl rfl rfl (List.append_nil _).symm
  | wakeup t =>
      change threadUnblock k t = .ok k' at hs
      rw [threadUnblock_eq he.2.2.2.2 (h.queues.notMem_ready_of_isBlocked he.2.2.2.2)] at hs
      cases hs
      exact ⟨.same rfl rfl rfl, .stays [] rfl (List.append_nil _).symm (fun _ _ => le_rfl)
        fun h => by cases h⟩
  | semaDown n => exact semaDown_turn hs rfl (by simp)
  | semaUp n =>
      change semaUp k (.plain n) = .ok k' at hs
      rcases semaUp_spec h.queues (.plain n) with ⟨-, hk, -⟩ | ⟨-, hk⟩
      · rw [hk] at hs
        cases hs
        exact raised_turn (.plain n) rfl (by simp)
      · rw [hk] at hs
        cases hs
  | lockAcquire l =>
      change lockAcquire k l = .ok k' at hs
      rw [lockAcquire] at hs
      split at hs
      · cases hs
        exact ⟨.same rfl rfl rfl, .same rfl rfl rfl rfl (by simp)⟩
      · cases hs
        exact ⟨.same rfl rfl rfl, .same rfl rfl rfl rfl (by simp)⟩
  | lockRelease l =>
      cases assert_bind_ok hs
      exact ⟨.same rfl rfl rfl, .same rfl rfl rfl rfl (by simp)⟩
  | resume => exact resume_turn h.queues he hs

end Steps

section Waiting

/-- The threads that run before `t`: the running one and those ahead of `t` in the queue. -/
def Kernel.before (k : Kernel) (t : Tid) : List Tid := k.cur :: k.ready.takeWhile (· ≠ t)

/-- The timer interrupts and switches that `n` ticks left in each of the slices allow -/
def slices (n : Tid → Nat) (ts : List Tid) : Nat := (ts.map fun u => n u + 1).sum

private theorem slices_cons (n : Tid → Nat) (u : Tid) (us : List Tid) :
    slices n (u :: us) = n u + 1 + slices n us := by
  simp [slices]

private theorem slices_append (n : Tid → Nat) (us vs : List Tid) :
    slices n (us ++ vs) = slices n us + slices n vs := by
  simp [slices]

private theorem slices_mono {m n : Tid → Nat} {ts : List Tid} (h : ∀ u ∈ ts, m u ≤ n u) :
    slices m ts ≤ slices n ts := by
  induction ts with
  | nil => rfl
  | cons u us ih =>
      have hu := h u List.mem_cons_self
      have hus := ih fun v hv => h v (List.mem_cons_of_mem u hv)
      rw [slices_cons, slices_cons]
      omega

private theorem takeWhile_append_of_mem {t : Tid} {us vs : List Tid} (ht : t ∈ us) :
    (us ++ vs).takeWhile (· ≠ t) = us.takeWhile (· ≠ t) := by
  induction us with
  | nil => cases ht
  | cons u us ih =>
      by_cases hu : u = t
      · simp [hu]
      · have hmem : t ∈ us := by
          cases ht with
          | head => exact absurd rfl hu
          | tail _ h => exact h
        rw [List.cons_append, List.takeWhile_cons_of_pos (by simpa using hu),
          List.takeWhile_cons_of_pos (by simpa using hu), ih hmem]

private theorem takeWhile_append_of_notMem {t : Tid} {us vs : List Tid} (ht : t ∉ us) :
    (us ++ vs).takeWhile (· ≠ t) = us ++ vs.takeWhile (· ≠ t) := by
  apply List.takeWhile_append_of_pos
  intro u hu
  simpa using fun h : u = t => ht (h ▸ hu)

/-- What a step counts for: a timer interrupt or a switch. -/
def turnCost (k : Kernel) (e : Event) (k' : Kernel) : Nat :=
  if e = .timer ∨ k'.cur ≠ k.cur then 1 else 0

/-- Full slices for the threads that a step puts in front. -/
def wakeIncome (k : Kernel) (e : Event) (_ : Kernel) : Nat := slices k.priority (k.woken e)

/-- No slice is longer than the thread's priority. -/
def Bounded (k : Kernel) : Prop := ∀ u ∈ k.tasks, k.ticks u ≤ k.priority u

variable {k k' : Kernel}

private theorem Slices.bounded (h : Slices k k') (hk : Bounded k) : Bounded k' := by
  intro u hu
  rcases h.tasks u hu with hold | hnew
  · rcases h.ticks u hold with hle | heq
    · rw [h.priority u hold]
      exact hle.trans (hk u hold)
    · exact heq.le
  · exact hnew.le

private theorem reachable_bounded (h : scheduler.Reachable k) : Bounded k := by
  apply System.Reachable.invariant_of (fun k hk => Reachable.inv hk) _ _ h
  · intro k hk
    obtain ⟨main, init, idle, value, hmi, hii, hmd, hs⟩ := hk
    rw [threadInit_eq value hii hmd, Except.ok.injEq] at hs
    subst hs
    exact fun u _ => le_rfl
  · intro k e k' hinv hk hs
    exact (step_turn hinv hs.1 hs.2).1.bounded hk

private theorem Inv.before_mem (h : Inv k) {t u : Tid} (hu : u ∈ k.before t) : u ∈ k.tasks := by
  cases hu with
  | head => exact h.queues.cur_mem
  | tail _ hu => exact ((h.queues.memReady u).mp (List.takeWhile_subset _ hu)).1

private theorem woken_tasks (h : Inv k) {e : Event} (he : Enabled k e) {u : Tid}
    (hu : u ∈ k.woken e) : u ∈ k.tasks := by
  have hwaiter : ∀ s, u ∈ (k.sema s).waiters.take 1 → u ∈ k.tasks := by
    intro s hs
    exact ((h.queues.memWaiters s u).mp (List.mem_of_mem_take hs)).1
  cases e with
  | wakeup t =>
      cases List.mem_singleton.mp hu
      exact he.2.1
  | semaUp n => exact hwaiter _ hu
  | resume =>
      simp only [Kernel.woken] at hu
      split at hu
      · exact hwaiter _ hu
      · cases hu
  | timer | threadStart | yield | block | semaDown | lockAcquire | lockRelease => cases hu

/-- While the running thread stays, a woken thread costs its full slice. -/
private theorem stays_pays (h : Inv k) {e : Event} (he : Enabled k e) (hk : Bounded k)
    (hnodup : k'.ready.Nodup) {back : List Tid} (hcur : k'.cur = k.cur)
    (hready : k'.ready = k.woken e ++ k.ready ++ back)
    (hticks : ∀ u ∈ k.tasks, k'.ticks u ≤ k.ticks u)
    (htimer : e = .timer → k'.ticks k.cur < k.ticks k.cur) {t : Tid} (ht : t ∈ k.ready) :
    slices k'.ticks (k'.before t) + turnCost k e k' ≤
      slices k.ticks (k.before t) + wakeIncome k e k' := by
  rw [List.append_assoc] at hready
  have hapart : t ∉ k.woken e := by
    rw [hready] at hnodup
    exact fun hw => (List.disjoint_of_nodup_append hnodup) hw (List.mem_append_left back ht)
  have hbefore : k'.before t = k.cur :: (k.woken e ++ k.ready.takeWhile (· ≠ t)) := by
    rw [Kernel.before, hcur, hready, takeWhile_append_of_notMem hapart, takeWhile_append_of_mem ht]
  have hwoken : slices k'.ticks (k.woken e) ≤ slices k.priority (k.woken e) :=
    slices_mono fun u hu => (hticks u (woken_tasks h he hu)).trans (hk u (woken_tasks h he hu))
  have hahead : slices k'.ticks (k.ready.takeWhile (· ≠ t)) ≤
      slices k.ticks (k.ready.takeWhile (· ≠ t)) :=
    slices_mono fun u hu => hticks u (h.before_mem (List.mem_cons_of_mem k.cur hu))
  have hfirst : k'.ticks k.cur + turnCost k e k' ≤ k.ticks k.cur := by
    rw [turnCost, hcur]
    by_cases htime : e = .timer
    · rw [if_pos (.inl htime)]
      exact htimer htime
    · rw [if_neg (by simp [htime])]
      exact hticks k.cur h.queues.cur_mem
  rw [hbefore, slices_cons, slices_append, Kernel.before, slices_cons, wakeIncome]
  omega

/-- When the head of the queue takes over, the slice of the thread before it is done with. -/
private theorem switches_pays (h : Inv k) {e : Event} (hnr : k'.cur ∉ k'.ready)
    (hnext : ∀ u us, k.ready = u :: us → k'.cur = u ∧ ∃ back, k'.ready = us ++ back)
    (hticks : ∀ u ≠ k.cur, k'.ticks u = k.ticks u) {t : Tid} (ht : t ∈ k.ready)
    (ht' : t ∈ k'.ready) :
    slices k'.ticks (k'.before t) + turnCost k e k' ≤
      slices k.ticks (k.before t) + wakeIncome k e k' := by
  obtain ⟨u, us, hready⟩ := List.exists_cons_of_ne_nil (List.ne_nil_of_mem ht)
  obtain ⟨hcur, back, hready'⟩ := hnext u us hready
  have hne : u ≠ t := by
    rintro rfl
    rw [hcur] at hnr
    exact hnr ht'
  have hmem : t ∈ us := by
    rw [hready] at ht
    exact (List.mem_cons.mp ht).resolve_left hne.symm
  have hbefore : k'.before t = k.ready.takeWhile (· ≠ t) := by
    rw [Kernel.before, hcur, hready', takeWhile_append_of_mem hmem, hready,
      List.takeWhile_cons_of_pos (by simpa using hne)]
  have hsame : slices k'.ticks (k.ready.takeWhile (· ≠ t)) ≤
      slices k.ticks (k.ready.takeWhile (· ≠ t)) := by
    apply slices_mono
    intro v hv
    apply Nat.le_of_eq
    apply hticks
    rintro rfl
    exact h.queues.cur_notMem_ready (List.takeWhile_subset _ hv)
  have hcost : turnCost k e k' ≤ 1 := by
    rw [turnCost]
    split <;> omega
  rw [hbefore, Kernel.before, slices_cons]
  omega

/-- One step pays for itself out of the slices ahead of `t`. -/
private theorem turn_pays (h : Inv k) {e : Event} (he : Enabled k e) (hs : step k e = .ok k')
    (hk : Bounded k) {t : Tid} (ht : t ∈ k.ready) (ht' : t ∈ k'.ready) :
    slices k'.ticks (k'.before t) + turnCost k e k' ≤
      slices k.ticks (k.before t) + wakeIncome k e k' := by
  have hinv' := (h.effect he hs).1
  cases (step_turn h he hs).2 with
  | stays back hcur hready hticks htimer =>
      exact stays_pays h he hk hinv'.queues.readyNodup hcur hready hticks htimer ht
  | switches hnext hticks =>
      exact switches_pays h hinv'.queues.cur_notMem_ready hnext hticks ht ht'

/-- A run in which `t` stays ready, with its timer interrupts and switches, and with the full slices
of the threads that are woken in it. -/
def Waits (t : Tid) : Kernel → Nat → Nat → Kernel → Prop :=
  scheduler.Costs (fun k => t ∈ k.ready) turnCost wakeIncome

theorem Waits.ready {t : Tid} {n w : Nat} (h : Waits t k n w k') : t ∈ k'.ready := by
  rw [Waits] at h
  exact h.inside

private theorem ready_until_run (h : Inv k) {e : Event} (he : Enabled k e) (hs : step k e = .ok k')
    {t : Tid} (ht : t ∈ k.ready) : t ∈ k'.ready ∨ k'.cur = t := by
  cases (step_turn h he hs).2 with
  | stays back hcur hready hticks htimer =>
      rw [hready]
      exact .inl (List.mem_append_left back (List.mem_append_right _ ht))
  | switches hnext hticks =>
      obtain ⟨u, us, hready⟩ := List.exists_cons_of_ne_nil (List.ne_nil_of_mem ht)
      obtain ⟨hcur, back, hready'⟩ := hnext u us hready
      rw [hready] at ht
      cases ht with
      | head => exact .inr hcur
      | tail _ hmem =>
          rw [hready']
          exact .inl (List.mem_append_left back hmem)

/-- A ready thread stays ready until it runs.  While it does, there are fewer timer interrupts and
switches than the full slices of the running thread, of the threads ahead of it and of those that
are woken meanwhile make together. -/
theorem waiting_bounded {t : Tid} {n w : Nat} (hr : scheduler.Reachable k)
    (h : Waits t k n w k') :
    n < slices k.priority (k.before t) + w ∧
      ∀ e k'', scheduler.step k' e k'' → t ∈ k''.ready ∨ k''.cur = t := by
  constructor
  · have hpays := System.Costs.bound (fun k => slices k.ticks (k.before t))
      (fun k e k' hr ht ht' hs =>
        turn_pays (Reachable.inv hr) hs.1 hs.2 (reachable_bounded hr) ht ht')
      h hr
    have hfull : slices k.ticks (k.before t) ≤ slices k.priority (k.before t) :=
      slices_mono fun u hu => reachable_bounded hr u ((Reachable.inv hr).before_mem hu)
    have hleft : 0 < slices k'.ticks (k'.before t) := by
      rw [Kernel.before, slices_cons]
      omega
    omega
  · intro e k'' hs
    exact ready_until_run (Reachable.inv (System.Costs.reachable h hr)) hs.1 hs.2 h.ready

/-- After the start the idle thread is third: one timer interrupt later it is still ready. -/
theorem waiting_bounded_idle : ∃ k, step (booted 0 1 2 (fun _ => 1)) .timer = .ok k ∧
    1 < slices (booted 0 1 2 (fun _ => 1)).priority ((booted 0 1 2 (fun _ => 1)).before 2) ∧
      ∀ e k', scheduler.step k e k' → 2 ∈ k'.ready ∨ k'.cur = 2 := by
  have hr : scheduler.Reachable (booted 0 1 2 (fun _ => 1)) :=
    .init ⟨0, 1, 2, fun _ => 1, by decide, by decide, by decide,
      threadInit_eq _ (by decide) (by decide)⟩
  obtain ⟨k, hk⟩ : ∃ k, step (booted 0 1 2 (fun _ => 1)) .timer = .ok k := ⟨_, rfl⟩
  have hready : 2 ∈ k.ready := by
    cases hk
    decide
  have hfirst : 2 ∈ (booted 0 1 2 (fun _ => 1)).ready := by decide
  have hstart : Waits 2 (booted 0 1 2 (fun _ => 1)) 0 0 (booted 0 1 2 (fun _ => 1)) :=
    System.Costs.refl hfirst
  have hstep : scheduler.step (booted 0 1 2 (fun _ => 1)) .timer k := ⟨by decide, hk⟩
  obtain ⟨hlt, hnext⟩ := waiting_bounded hr (System.Costs.step hstart hstep hready)
  have hcost : turnCost (booted 0 1 2 (fun _ => 1)) .timer k = 1 := if_pos (.inl rfl)
  rw [hcost] at hlt
  exact ⟨k, hk, hlt, hnext⟩

end Waiting

end Aitos.Sched
