import Aitos.Sched.Scheduler

/-!
# No lost wake-up

`sema_up` both wakes a waiter and raises the value, so a third thread may take the unit before
the woken one tests it again.  What survives every such overtaking is that a free unit with
sleepers behind it has a woken thread on its way.
-/

namespace Aitos.Sched

open Framework

/-- Thread `t` has been woken from `s` and has not tested the value since. -/
structure Woken (k : Kernel) (s : SemaId) (t : Tid) : Prop where
  mem : t ∈ k.tasks
  pc : k.pc t = .semaWait s
  awake : (k.status t).isBlocked = false

structure Pending (s : SemaId) (k : Kernel) : Prop where
  value : (k.sema s).value ≤ 1
  woken : (k.sema s).value = 1 → (k.sema s).waiters ≠ [] → ∃ t, Woken k s t

section Frame

variable {k k' : Kernel} {s : SemaId}

theorem Pending.frame (h : Pending s k) (hs : k'.sema s = k.sema s)
    (hw : ∀ t, Woken k s t → Woken k' s t) : Pending s k' := by
  constructor
  · rw [hs]
    exact h.value
  · rw [hs]
    intro hv hne
    obtain ⟨t, ht⟩ := h.woken hv hne
    exact ⟨t, hw t ht⟩

private theorem SameWorld.awake (h : SameWorld k k') {t : Tid}
    (ht : (k.status t).isBlocked = false) : (k'.status t).isBlocked = false := by
  rcases h.status t with hs | hs
  · rwa [hs]
  · exact hs

theorem SameWorld.woken (h : SameWorld k k') {t : Tid} (ht : Woken k s t) : Woken k' s t :=
  ⟨h.tasks ▸ ht.mem, h.pc ▸ ht.pc, h.awake ht.awake⟩

theorem Pending.sameWorld (h : Pending s k) (hw : SameWorld k k') : Pending s k' :=
  h.frame (by rw [hw.sema]) (fun _ => hw.woken)

private theorem Pending.frame_cur (h : Pending s k) {c : Tid} (hc : k.pc c ≠ .semaWait s)
    (hs : k'.sema s = k.sema s) (htasks : k'.tasks = k.tasks)
    (hpc : ∀ t, t ≠ c → k'.pc t = k.pc t)
    (hst : ∀ t, t ≠ c → (k.status t).isBlocked = false → (k'.status t).isBlocked = false) :
    Pending s k' := by
  refine h.frame hs (fun t ht => ?_)
  have hne : t ≠ c := by
    rintro rfl
    exact hc ht.pc
  exact ⟨htasks ▸ ht.mem, (hpc t hne).trans ht.pc, hst t hne ht.awake⟩

private theorem Kernel.mayDown.pc_ne (h : k.mayDown s) {s' : SemaId} (hne : s' ≠ s) :
    k.pc k.cur ≠ .semaWait s' := by
  rcases h with ⟨h, -⟩ | h | ⟨l, -, h⟩ <;> rw [h] <;> simp [Ne.symm hne]

theorem raised_sema_self (k : Kernel) (s : SemaId) :
    (k.raised s).sema s = ⟨1, (k.sema s).waiters.tail⟩ := by
  rw [Kernel.raised]
  split <;> rename_i hw <;> simp [Kernel.setSema, Kernel.setReady, Kernel.setStatus, hw]

theorem raised_sema_of_ne {s' : SemaId} (hne : s' ≠ s) :
    (k.raised s).sema s' = k.sema s' := by
  rw [Kernel.raised]
  split <;> exact Function.update_of_ne hne _ _

private theorem raised_awake {t : Tid} (h : (k.status t).isBlocked = false) :
    ((k.raised s).status t).isBlocked = false := by
  rw [Kernel.raised]
  split
  · exact h
  · rename_i u rest _
    change (Function.update k.status u .ready t).isBlocked = false
    by_cases ht : t = u
    · rw [ht, Function.update_self]
      rfl
    · rwa [Function.update_of_ne ht]

private theorem raised_pending (h : Queues k (some k.cur)) : Pending s (k.raised s) := by
  rw [Kernel.raised]
  cases hw : (k.sema s).waiters with
  | nil => exact ⟨by simp [Kernel.setSema], by simp [Kernel.setSema]⟩
  | cons t rest =>
      have ht := (h.memWaiters s t).mp (by rw [hw]; exact List.mem_cons_self)
      refine ⟨by simp [Kernel.setSema, Kernel.setReady, Kernel.setStatus], fun _ _ => ⟨t, ?_⟩⟩
      refine ⟨ht.1, ht.2.2, ?_⟩
      change (Function.update k.status t .ready t).isBlocked = false
      rw [Function.update_self]
      rfl

theorem Pending.raised (h : Pending s k) {s' : SemaId} (hne : s ≠ s') :
    Pending s (k.raised s') := by
  obtain ⟨-, hpc, -, -, -, htasks, -⟩ := raised_frame k s'
  refine h.frame (raised_sema_of_ne hne) (fun t ht => ?_)
  exact ⟨htasks ▸ ht.mem, hpc ▸ ht.pc, raised_awake ht.awake⟩

end Frame

theorem Pending.step {k k' : Kernel} {s : SemaId} (h : Pending s k) (hinv : Inv k)
    {e : Event} (he : Effect k e k') : Pending s k' := by
  have hwrite : ∀ l, LockWrite k l k' → k.pc k.cur ≠ .semaWait s → Pending s k' := by
    intro l hw hp
    exact h.frame_cur hp (by rw [hw.sema]) hw.tasks hw.pc (fun t _ hb => by rwa [hw.status])
  cases he with
  | world hw => exact h.sameWorld hw
  | start t prio ht =>
      refine h.frame rfl (fun u hu => ?_)
      have hne : u ≠ t := fun e => ht (e ▸ hu.mem)
      refine ⟨List.mem_append_left _ hu.mem, ?_, ?_⟩
      · change Function.update k.pc t .user u = .semaWait s
        rw [Function.update_of_ne hne]
        exact hu.pc
      · change (Function.update k.status t .ready u).isBlocked = false
        rw [Function.update_of_ne hne]
        exact hu.awake
  | park stat hp hw =>
      have hparked : Pending s ((k.setPc k.cur .parked).setStatus k.cur stat) := by
        refine h.frame_cur (c := k.cur) (by simp [hp]) rfl rfl ?_ ?_
        · intro t ht
          exact Function.update_of_ne ht _ _
        · intro t ht hb
          change (Function.update k.status k.cur stat t).isBlocked = false
          rwa [Function.update_of_ne ht]
      exact hparked.sameWorld hw
  | unpark hp =>
      exact h.frame_cur (c := k.cur) (by simp [hp]) rfl rfl
        (fun t ht => Function.update_of_ne ht _ _) (fun _ _ hb => hb)
  | sleep s' hm hv hw =>
      refine Pending.sameWorld ?_ hw
      by_cases hs : s = s'
      · subst s'
        have hval : ((k.asleepOn s).sema s).value = 0 := by
          simpa [Kernel.asleepOn, Kernel.setSema, Kernel.setPc, Kernel.intrDisable,
            Kernel.setStatus] using hv
        exact ⟨by omega, by omega⟩
      · refine h.frame_cur (hm.pc_ne hs) (Function.update_of_ne hs _ _) rfl ?_ ?_
        · intro t ht
          exact Function.update_of_ne ht _ _
        · intro t ht hb
          change (Function.update k.status k.cur .blocked t).isBlocked = false
          rwa [Function.update_of_ne ht]
  | take s' hm hv =>
      by_cases hs : s = s'
      · subst s'
        have hval : ((k.taken s).sema s).value = 0 := by
          simp [Kernel.taken, Kernel.setSema, Kernel.setPc, Kernel.intrEnable]
        exact ⟨by omega, by omega⟩
      · exact h.frame_cur (hm.pc_ne hs) (Function.update_of_ne hs _ _) rfl
          (fun t ht => Function.update_of_ne ht _ _) (fun _ _ hb => hb)
  | raise n hv =>
      by_cases hs : s = .plain n
      · subst s
        exact raised_pending hinv.queues
      · exact h.raised hs
  | raiseLock l hp hv =>
      have hraised : Pending s (k.raised (.ofLock l)) := by
        by_cases hs : s = .ofLock l
        · subst s
          exact raised_pending hinv.queues
        · exact h.raised hs
      obtain ⟨-, hpc, -⟩ := raised_frame k (.ofLock l)
      refine hraised.frame_cur (c := k.cur) ?_ rfl rfl
        (fun t ht => Function.update_of_ne ht _ _) (fun _ _ hb => hb)
      rw [hpc, hp]
      simp
  | acquire l hp hk => exact hwrite l (lockAcquire_write hk) (by simp [hp])
  | release l hp hd hk =>
      obtain ⟨-, rfl⟩ := lockRelease_eq hk
      exact hwrite l (.refl_setPc k l (Or.inr ⟨_, rfl⟩)) (by simp [hp])
  | locked l phase hp hd hu hk => exact hwrite l (lockStep_write hd hu hk) (by simp [hp])

/-- A thread inside the loop of `sema_down` sleeps with status `TASK_BLOCKED` or not at all. -/
def Asleep (k : Kernel) : Prop :=
  ∀ t ∈ k.tasks, ∀ s, k.pc t = .semaWait s → (k.status t).isBlocked = true → k.status t = .blocked

theorem Asleep.frame {k k' : Kernel} (h : Asleep k) (c : Tid) (htasks : k'.tasks = k.tasks)
    (hpc : ∀ t, t ≠ c → k'.pc t = k.pc t)
    (hst : ∀ t, t ≠ c → k'.status t = k.status t ∨ (k'.status t).isBlocked = false)
    (hc : ∀ s, k'.pc c = .semaWait s → (k'.status c).isBlocked = true → k'.status c = .blocked) :
    Asleep k' := by
  intro t ht s hp hb
  by_cases he : t = c
  · subst t
    exact hc s hp hb
  · rcases hst t he with hs | hs
    · rw [hs]
      exact h t (htasks ▸ ht) s (hpc t he ▸ hp) (hs ▸ hb)
    · rw [hs] at hb
      cases hb

theorem Asleep.sameWorld {k k' : Kernel} (h : Asleep k) (hw : SameWorld k k') : Asleep k' := by
  intro t ht s hp hb
  rcases hw.status t with hs | hs
  · rw [hs]
    exact h t (hw.tasks ▸ ht) s (hw.pc ▸ hp) (hs ▸ hb)
  · rw [hs] at hb
    cases hb

private theorem raised_status (k : Kernel) (s : SemaId) (t : Tid) :
    (k.raised s).status t = k.status t ∨ ((k.raised s).status t).isBlocked = false := by
  rw [Kernel.raised]
  split
  · exact Or.inl rfl
  · exact (SameWorld.setStatus k _ .ready rfl).status t

theorem Asleep.raised {k : Kernel} (h : Asleep k) (s : SemaId) : Asleep (k.raised s) := by
  obtain ⟨-, hpc, -, -, -, htasks, -⟩ := raised_frame k s
  intro t ht s' hp hb
  rcases raised_status k s t with hs | hs
  · rw [hs]
    exact h t (htasks ▸ ht) s' (hpc ▸ hp) (hs ▸ hb)
  · rw [hs] at hb
    cases hb

theorem Asleep.step {k k' : Kernel} (h : Asleep k) {e : Event} (he : Effect k e k') :
    Asleep k' := by
  have hwrite : ∀ l, LockWrite k l k' → Asleep k' := by
    intro l hw
    refine h.frame k.cur hw.tasks hw.pc (fun t _ => Or.inl (by rw [hw.status])) ?_
    intro s hp
    rcases hw.cur with hc | ⟨phase, hc⟩ <;> rw [hc] at hp <;> cases hp
  -- a thread that moves to `p`, none of the waits
  have hmove : ∀ (k₁ k₂ : Kernel) (p : Pc), Asleep k₁ → k₂.tasks = k₁.tasks →
      k₂.pc = Function.update k₁.pc k.cur p →
      (∀ t, t ≠ k.cur → k₂.status t = k₁.status t) → (∀ s, p ≠ .semaWait s) → Asleep k₂ := by
    intro k₁ k₂ p h₁ ht hpc hst hp
    refine h₁.frame k.cur ht ?_ (fun t hne => Or.inl (hst t hne)) ?_
    · intro t hne
      rw [hpc, Function.update_of_ne hne]
    · intro s hs
      rw [hpc, Function.update_self] at hs
      exact absurd hs (hp s)
  cases he with
  | world hw => exact h.sameWorld hw
  | start t prio ht =>
      intro u hu s hp hb
      change u ∈ k.tasks ++ [t] at hu
      change Function.update k.pc t .user u = .semaWait s at hp
      change (Function.update k.status t .ready u).isBlocked = true at hb
      change Function.update k.status t .ready u = .blocked
      by_cases hne : u = t
      · subst u
        rw [Function.update_self] at hp
        cases hp
      · rw [Function.update_of_ne hne] at hp hb ⊢
        exact h u (by simpa [hne] using hu) s hp hb
  | park stat hp hw =>
      refine Asleep.sameWorld ?_ hw
      exact hmove k _ .parked h rfl rfl (fun t ht => Function.update_of_ne ht _ _) (by simp)
  | unpark hp => exact hmove k _ .user h rfl rfl (fun _ _ => rfl) (by simp)
  | sleep s' hm hv hw =>
      have hs : Asleep (k.asleepOn s') := by
        refine h.frame k.cur rfl ?_ ?_ ?_
        · exact fun t ht => Function.update_of_ne ht _ _
        · exact fun t ht => Or.inl (Function.update_of_ne ht _ _)
        · exact fun _ _ _ => Function.update_self _ _ _
      exact hs.sameWorld hw
  | take s' hm hv =>
      refine hmove k _ s'.next h rfl rfl (fun _ _ => rfl) ?_
      cases s' <;> simp [SemaId.next]
  | raise n hv => exact h.raised _
  | raiseLock l hp hv =>
      exact hmove (k.raised (.ofLock l)) _ .user (h.raised _) rfl rfl (fun _ _ => rfl) (by simp)
  | acquire l hp hk => exact hwrite l (lockAcquire_write hk)
  | release l hp hd hk =>
      obtain ⟨-, rfl⟩ := lockRelease_eq hk
      exact hwrite l (.refl_setPc k l (Or.inr ⟨_, rfl⟩))
  | locked l phase hp hd hu hk => exact hwrite l (lockStep_write hd hu hk)

private theorem booted_pending {main init idle : Tid} {value : Nat → Nat} {s : SemaId}
    (h : ((booted main init idle value).sema s).value ≤ 1) :
    Pending s (booted main init idle value) := by
  refine ⟨h, fun _ hne => absurd ?_ hne⟩
  cases s <;> rfl

private theorem booted_asleep (main init idle : Tid) (value : Nat → Nat) :
    Asleep (booted main init idle value) := by
  intro t _ s hp
  simp [booted, Kernel.started, Kernel.addMain, blank] at hp

theorem Reachable.asleep {k : Kernel} (h : scheduler.Reachable k) : Asleep k := by
  refine h.invariant_of (Q := Inv) (fun _ => Reachable.inv) ?_ ?_
  · rintro k₀ ⟨main, init, idle, value, -, hii, hmd, hk⟩
    rw [threadInit_eq value hii hmd, Except.ok.injEq] at hk
    exact hk ▸ booted_asleep main init idle value
  · rintro k₀ e k₁ hinv ha ⟨he, hk⟩
    exact ha.step (hinv.effect he hk).2

theorem Reachable.pending {s : SemaId} {k : Kernel}
    (h : (scheduler.startingIn fun k => (k.sema s).value ≤ 1).Reachable k) : Pending s k := by
  refine h.invariant_of (Q := Inv) (fun _ hr => Reachable.inv hr.of_startingIn) ?_ ?_
  · rintro k₀ ⟨⟨main, init, idle, value, -, hii, hmd, hk⟩, hv⟩
    rw [threadInit_eq value hii hmd, Except.ok.injEq] at hk
    subst k₀
    exact booted_pending hv
  · rintro k₀ e k₁ hinv hp ⟨he, hk⟩
    exact hp.step hinv (hinv.effect he hk).2

private theorem Queues.awake_iff {k : Kernel} {run : Option Tid} (h : Queues k run) {t : Tid}
    (ht : t ∈ k.tasks) (hb : (k.status t).isBlocked = false) :
    k.status t = .ready ∨ k.status t = .running := by
  rcases isBlocked_eq_false.mp hb with hs | hs | hs
  · exact Or.inr hs
  · exact Or.inl hs
  · exact absurd hs (h.alive t ht)

private theorem Queues.notMem_waiters {k : Kernel} {run : Option Tid} (h : Queues k run) {t : Tid}
    {s : SemaId} (hb : (k.status t).isBlocked = false) : t ∉ (k.sema s).waiters := by
  intro hm
  rw [((h.memWaiters s t).mp hm).2.1] at hb
  cases hb

/-- Of a semaphore that starts at 0 or 1: a free unit with sleepers behind it has a thread on
its way that was taken off the queue, and a thread inside the loop of `sema_down` sleeps on the
queue, once, or has been woken. -/
theorem no_lost_wakeup (s : SemaId) {k : Kernel}
    (h : (scheduler.startingIn fun k => (k.sema s).value ≤ 1).Reachable k) :
    ((k.sema s).value = 1 → (k.sema s).waiters ≠ [] →
      ∃ t ∈ k.tasks, t ∉ (k.sema s).waiters ∧ k.pc t = .semaWait s ∧
        (k.status t = .ready ∨ k.status t = .running)) ∧
    ∀ t ∈ k.tasks, k.pc t = .semaWait s →
      k.status t = .blocked ∧ (k.sema s).waiters.count t = 1 ∨
        t ∉ (k.sema s).waiters ∧ (k.status t = .ready ∨ k.status t = .running) := by
  have hq := (Reachable.inv h.of_startingIn).queues
  constructor
  · intro hv hne
    obtain ⟨t, ht⟩ := (Reachable.pending h).woken hv hne
    exact ⟨t, ht.mem, hq.notMem_waiters ht.awake, ht.pc, hq.awake_iff ht.mem ht.awake⟩
  · intro t ht hp
    cases hb : (k.status t).isBlocked with
    | false => exact Or.inr ⟨hq.notMem_waiters hb, hq.awake_iff ht hb⟩
    | true =>
        have hs := Reachable.asleep h.of_startingIn t ht s hp hb
        have hm := (hq.memWaiters s t).mpr ⟨ht, hs, hp⟩
        exact Or.inl ⟨hs, List.count_eq_one_of_mem (hq.waitersNodup s) hm⟩

/-- Two threads sleep on a semaphore that is down and an interrupt handler raises it: one is
still queued, the other is on its way. -/
theorem no_lost_wakeup_two_sleepers :
    ∃ k, run (booted 0 1 2 (fun _ => 0)) [.semaDown 0, .semaDown 0, .semaUp 0] = some k ∧
      (k.sema (.plain 0)).value = 1 ∧ (k.sema (.plain 0)).waiters = [1] ∧
      ∃ t ∈ k.tasks, t ∉ (k.sema (.plain 0)).waiters ∧ k.pc t = .semaWait (.plain 0) ∧
        (k.status t = .ready ∨ k.status t = .running) := by
  have hsome : (run (booted 0 1 2 (fun _ => 0))
      [.semaDown 0, .semaDown 0, .semaUp 0]).isSome = true := by decide
  obtain ⟨k, hk⟩ := Option.isSome_iff_exists.mp hsome
  have hb : scheduler.init (booted 0 1 2 (fun _ => 0)) :=
    ⟨0, 1, 2, fun _ => 0, by decide, by decide, by decide,
      threadInit_eq _ (by decide) (by decide)⟩
  have hr : (scheduler.startingIn fun k => (k.sema (.plain 0)).value ≤ 1).Reachable k :=
    Reachable.run (.init ⟨hb, by decide⟩) (fun _ he hs => ⟨he, hs⟩) hk
  have hval : (run (booted 0 1 2 (fun _ => 0)) [.semaDown 0, .semaDown 0, .semaUp 0]).map
      (fun k => k.sema (.plain 0)) = some ⟨1, [1]⟩ := by decide
  rw [hk, Option.map_some, Option.some.injEq] at hval
  refine ⟨k, hk, by rw [hval], by rw [hval], ?_⟩
  exact (no_lost_wakeup (.plain 0) hr).1 (by rw [hval]) (by rw [hval]; simp)

end Aitos.Sched
