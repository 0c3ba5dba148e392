import Aitos.Sched.LockOwner

/-!
# Process numbers

`allocate_pid` of `sched/thread.c`, called by `init_thread` and `fork_pid`, run statement by
statement on top of the scheduler.  The counter is written under `pid_lock`; the value that is
returned is read again after the lock has been given back.
-/

namespace Aitos.Sched

open Framework

def pidLock : LockId := 0

/-- The statement of `allocate_pid` a thread executes next, once the lock function it may be in
has returned. -/
inductive PidPhase where
  | load             -- the read of `next_pid++`
  | store (n : Int)  -- the write of `next_pid++`, `n` having been read
  | release          -- `lock_release(&pid_lock)`
  | ret              -- `return next_pid`
  deriving DecidableEq, Repr

/-- The kernel with the static variable of `allocate_pid`. -/
structure PidState where
  kernel : Kernel
  nextPid : Int
  phase : Tid → Option PidPhase
  /-- what the calls have returned, the last first -/
  returned : List Int
  /-- how many calls have been made -/
  calls : Nat

inductive PidEvent where
  /-- `allocate_pid` is entered, or goes on with its next statement -/
  | allocate
  /-- anything else that happens in the kernel -/
  | kernel (e : Event)
  deriving DecidableEq, Repr

namespace PidState

def setPhase (s : PidState) (p : Option PidPhase) : PidState :=
  { s with phase := Function.update s.phase s.kernel.cur p }

/-- The next statement of `allocate_pid` in the running thread.  `pid_t` has 16 bits. -/
def allocatePid (s : PidState) : Except Assertion PidState :=
  match s.phase s.kernel.cur with
  | none => do
      let k ← lockAcquire s.kernel pidLock
      return { s.setPhase (some .load) with kernel := k, calls := s.calls + 1 }
  | some .load => return s.setPhase (some (.store s.nextPid))
  | some (.store n) =>
      return { s.setPhase (some .release) with nextPid := Int.bmod (n + 1) (2 ^ 16) }
  | some .release => do
      let k ← lockRelease s.kernel pidLock
      return { s.setPhase (some .ret) with kernel := k }
  | some .ret => return { s.setPhase none with returned := s.nextPid :: s.returned }

def step (s : PidState) : PidEvent → Except Assertion PidState
  | .allocate => s.allocatePid
  | .kernel e => do
      let k ← Sched.step s.kernel e
      return { s with kernel := k }

/-- A thread inside `allocate_pid` does nothing else, but it can be interrupted; no other code
uses `pid_lock`. -/
def Enabled (s : PidState) : PidEvent → Prop
  | .allocate => s.kernel.pc s.kernel.cur = .user ∧ s.kernel.cur ≠ s.kernel.idle
  | .kernel e => Sched.Enabled s.kernel e ∧
      match e with
      | .timer | .wakeup _ | .semaUp _ | .resume => True
      | .lockAcquire l | .lockRelease l => s.phase s.kernel.cur = none ∧ l ≠ pidLock
      | _ => s.phase s.kernel.cur = none

instance (s : PidState) (e : PidEvent) : Decidable (s.Enabled e) :=
  match e with
  | .allocate => inferInstanceAs (Decidable (_ ∧ _))
  | .kernel e => @instDecidableAnd _ _ (inferInstanceAs (Decidable (Sched.Enabled s.kernel e)))
      (match e with
      | .timer | .wakeup _ | .semaUp _ | .resume => inferInstanceAs (Decidable True)
      | .lockAcquire _ | .lockRelease _ => inferInstanceAs (Decidable (_ ∧ _))
      | .threadStart _ _ | .yield | .block _ | .semaDown _ =>
          inferInstanceAs (Decidable (s.phase s.kernel.cur = none)))

end PidState

/-- From the state `thread_init` leaves: `init`, `main` and `idle` have got their numbers. -/
def pidSystem : System PidState PidEvent where
  init s := scheduler.init s.kernel ∧ s.nextPid = 3 ∧ s.phase = (fun _ => none) ∧
    s.returned = [3, 2, 1] ∧ s.calls = 3
  step s e s' := s.Enabled e ∧ s.step e = .ok s'

/-- What the lock functions have done for a thread that stands at a statement of
`allocate_pid`. -/
def Agrees (k : Kernel) (t : Tid) : Option PidPhase → Prop
  | none => k.depth t pidLock = 0 ∧ k.place pidLock t = none
  | some .load => (k.depth t pidLock = 0 ∧ k.place pidLock t ∈
        [some .acqDown, some .acqHolder, some .acqAssert, some .acqRepeat]) ∨
      (k.depth t pidLock = 1 ∧ k.pc t = .user)
  | some (.store _) | some .release => k.depth t pidLock = 1 ∧ k.pc t = .user
  | some .ret => (k.depth t pidLock = 1 ∧ k.place pidLock t ∈
        [some .relTest, some .relAssert, some .relHolder]) ∨
      (k.depth t pidLock = 0 ∧ k.place pidLock t ∈ [some .relRepeat, some .relUp]) ∨
      (k.depth t pidLock = 0 ∧ k.pc t = .user)

section Agrees

variable {k k' : Kernel} {t : Tid} {p : Option PidPhase} {o : Option Tid}

theorem Agrees.congr (h : Agrees k t p) (hd : k'.depth t pidLock = k.depth t pidLock)
    (hp : k'.pc t = k.pc t) : Agrees k' t p := by
  rw [Agrees.eq_def] at h ⊢
  rw [place_congr hp, hd, hp]
  exact h

private theorem interrupt_frame {e : Event} (hinv : Inv k) (he : Enabled k e)
    (hs : step k e = .ok k') (hi : e = .timer ∨ (∃ t, e = .wakeup t) ∨ ∃ n, e = .semaUp n) :
    k'.tasks = k.tasks ∧ k'.pc = k.pc ∧ k'.depth = k.depth := by
  rcases hi with rfl | ⟨t, rfl⟩ | ⟨n, rfl⟩
  · change timerHandler k = .ok k' at hs
    rw [timerHandler] at hs
    split at hs
    · have hq : Queues k.intrDisable (some k.intrDisable.cur) :=
        hinv.queues.congr rfl rfl rfl rfl rfl (fun _ => rfl)
      obtain ⟨k₁, hk, hsch⟩ := schedule_running hq rfl
      rw [hk, Except.ok.injEq] at hs
      subst hs
      exact ⟨hsch.world.tasks, hsch.world.pc, hsch.world.depth⟩
    · cases hs
      exact ⟨rfl, rfl, rfl⟩
  · have hb := he.2.2.2.2
    change threadUnblock k t = .ok k' at hs
    rw [threadUnblock_eq hb (hinv.queues.notMem_ready_of_isBlocked hb), Except.ok.injEq] at hs
    subst hs
    exact ⟨rfl, rfl, rfl⟩
  · change semaUp k (.plain n) = .ok k' at hs
    rcases semaUp_spec hinv.queues (.plain n) with ⟨-, hk, -⟩ | ⟨-, hk⟩
    · rw [hk, Except.ok.injEq] at hs
      subst hs
      obtain ⟨-, hpc, -, -, hdepth, htasks, -⟩ := raised_frame k (.plain n)
      exact ⟨htasks, hpc, hdepth⟩
    · rw [hk] at hs
      cases hs

theorem Effect.others {e : Event} (he : Effect k e k') (ht : t ≠ k.cur) :
    (k'.pc t = k.pc t ∧ k'.depth t = k.depth t) ∨
      (t ∉ k.tasks ∧ k'.pc t = .user ∧ k'.depth t = fun _ => 0) := by
  cases he with
  | world hw => exact Or.inl ⟨by rw [hw.pc], by rw [hw.depth]⟩
  | start u prio hu =>
      by_cases htu : t = u
      · subst u
        exact Or.inr ⟨hu, Function.update_self _ _ _, Function.update_self _ _ _⟩
      · exact Or.inl ⟨Function.update_of_ne htu _ _, Function.update_of_ne htu _ _⟩
  | park stat hp hw =>
      refine Or.inl ⟨?_, by rw [hw.depth]; rfl⟩
      rw [hw.pc]
      exact Function.update_of_ne ht _ _
  | unpark hp => exact Or.inl ⟨Function.update_of_ne ht _ _, rfl⟩
  | sleep s hd hv hw =>
      refine Or.inl ⟨?_, by rw [hw.depth]; rfl⟩
      rw [hw.pc]
      exact Function.update_of_ne ht _ _
  | take s hd hv => exact Or.inl ⟨Function.update_of_ne ht _ _, rfl⟩
  | raise n hv =>
      obtain ⟨-, hpc, -, -, hdepth, -, -⟩ := raised_frame k (.plain n)
      exact Or.inl ⟨by rw [hpc], by rw [hdepth]⟩
  | raiseLock l hp hv =>
      obtain ⟨-, hpc, -, -, hdepth, -, -⟩ := raised_frame k (.ofLock l)
      refine Or.inl ⟨(Function.update_of_ne ht _ _).trans (by rw [hpc]), ?_⟩
      change (k.raised (.ofLock l)).depth t = k.depth t
      rw [hdepth]
  | acquire l hp hk =>
      have hw := lockAcquire_write hk
      exact Or.inl ⟨hw.pc t ht, funext fun l' => hw.depth t l' (Or.inl ht)⟩
  | release l hp hd hk =>
      obtain ⟨-, rfl⟩ := lockRelease_eq hk
      exact Or.inl ⟨Function.update_of_ne ht _ _, rfl⟩
  | locked l phase hp hd hu hk =>
      have hw := lockStep_write hd hu hk
      exact Or.inl ⟨hw.pc t ht, funext fun l' => hw.depth t l' (Or.inl ht)⟩

private theorem Effect.mem_tasks {e : Event} (he : Effect k e k') (ht : t ∈ k.tasks) :
    t ∈ k'.tasks := by
  cases he with
  | world hw => rwa [hw.tasks]
  | start u prio hu => exact List.mem_append_left _ ht
  | park stat hp hw => rw [hw.tasks]; exact ht
  | unpark hp => exact ht
  | sleep s hd hv hw => rw [hw.tasks]; exact ht
  | take s hd hv => exact ht
  | raise n hv =>
      obtain ⟨-, -, -, -, -, htasks, -⟩ := raised_frame k (.plain n)
      rwa [htasks]
  | raiseLock l hp hv =>
      obtain ⟨-, -, -, -, -, htasks, -⟩ := raised_frame k (.ofLock l)
      change t ∈ (k.raised (.ofLock l)).tasks
      rwa [htasks]
  | acquire l hp hk => rwa [(lockAcquire_write hk).tasks]
  | release l hp hd hk =>
      obtain ⟨-, rfl⟩ := lockRelease_eq hk
      exact ht
  | locked l phase hp hd hu hk => rwa [(lockStep_write hd hu hk).tasks]

private theorem Agrees.idle_step {e : Event} (h : Agrees k k.cur none) (he : Effect k e k')
    (hacq : e ≠ .lockAcquire pidLock) (hrel : e ≠ .lockRelease pidLock) : Agrees k' k.cur none := by
  obtain ⟨hd, hp⟩ := h
  have hwrite : ∀ {l : LockId}, l ≠ pidLock → LockWrite k l k' → Agrees k' k.cur none := by
    intro l hl hw
    refine ⟨(hw.depth _ _ (Or.inr hl.symm)).trans hd, ?_⟩
    rcases hw.cur with hc | ⟨phase, hc⟩
    · exact place_user hc
    · exact place_lockOp_of_ne hc hl
  cases he with
  | world hw => exact Agrees.congr ⟨hd, hp⟩ (by rw [hw.depth]) (by rw [hw.pc])
  | start u prio hu =>
      by_cases hcu : k.cur = u
      · refine ⟨?_, place_user ?_⟩
        · change Function.update k.depth u (fun _ => 0) k.cur pidLock = 0
          rw [hcu, Function.update_self]
        · change Function.update k.pc u .user k.cur = .user
          rw [hcu, Function.update_self]
      · refine ⟨?_, ?_⟩
        · change Function.update k.depth u (fun _ => 0) k.cur pidLock = 0
          rw [Function.update_of_ne hcu, hd]
        · rw [place_congr (Function.update_of_ne hcu _ _), hp]
  | park stat hu hw =>
      refine ⟨by rw [hw.depth]; exact hd, place_parked ?_⟩
      rw [hw.pc]
      exact Function.update_self _ _ _
  | unpark hu => exact ⟨hd, place_user (Function.update_self _ _ _)⟩
  | sleep s hm hv hw =>
      have hs : s ≠ .ofLock pidLock := by
        rintro rfl
        rw [place_of_mayDown hm] at hp
        cases hp
      refine ⟨by rw [hw.depth]; exact hd, place_semaWait_of_ne ?_ hs⟩
      rw [hw.pc]
      exact Function.update_self _ _ _
  | take s hm hv =>
      have hs : s ≠ .ofLock pidLock := by
        rintro rfl
        rw [place_of_mayDown hm] at hp
        cases hp
      have hpc : (k.taken s).pc k.cur = s.next := Function.update_self _ _ _
      refine ⟨hd, ?_⟩
      cases s with
      | plain n => exact place_user hpc
      | ofLock l => exact place_lockOp_of_ne hpc (fun e => hs (by rw [e]))
  | raise n hv =>
      obtain ⟨-, hpc, -, -, hdepth, -, -⟩ := raised_frame k (.plain n)
      exact Agrees.congr ⟨hd, hp⟩ (by rw [hdepth]) (by rw [hpc])
  | raiseLock l hu hv =>
      obtain ⟨-, -, -, -, hdepth, -, -⟩ := raised_frame k (.ofLock l)
      refine ⟨?_, place_user (Function.update_self _ _ _)⟩
      change (k.raised (.ofLock l)).depth k.cur pidLock = 0
      rw [hdepth, hd]
  | acquire l hu hk => exact hwrite (fun hl => hacq (by rw [hl])) (lockAcquire_write hk)
  | release l hu hd hk =>
      obtain ⟨-, rfl⟩ := lockRelease_eq hk
      exact hwrite (fun hl => hrel (by rw [hl])) (.refl_setPc k l (Or.inr ⟨_, rfl⟩))
  | locked l phase hu hne hnu hk =>
      have hl : l ≠ pidLock := by
        rintro rfl
        rw [place_lockOp hu] at hp
        cases hp
      exact hwrite hl (lockStep_write hne hnu hk)

/-- A thread inside `allocate_pid` that is not at a statement of its own stands in a lock
function on `pid_lock`. -/
private theorem Agrees.place_isSome {p : PidPhase} (h : Agrees k t (some p)) (hu : k.pc t ≠ .user) :
    ∃ phase, k.place pidLock t = some phase ∧
      ((p = .load ∧ k.depth t pidLock = 0 ∧
          phase ∈ [LockPhase.acqDown, .acqHolder, .acqAssert, .acqRepeat]) ∨
        (p = .ret ∧ k.depth t pidLock = 1 ∧ phase ∈ [LockPhase.relTest, .relAssert, .relHolder]) ∨
        (p = .ret ∧ k.depth t pidLock = 0 ∧ phase ∈ [LockPhase.relRepeat, .relUp])) := by
  cases p with
  | load =>
      rcases h with ⟨hd, hp⟩ | ⟨-, hp⟩
      · simp only [List.mem_cons, List.not_mem_nil, or_false] at hp
        rcases hp with hp | hp | hp | hp <;> exact ⟨_, hp, Or.inl ⟨rfl, hd, by simp⟩⟩
      · exact absurd hp hu
  | store n => exact absurd h.2 hu
  | release => exact absurd h.2 hu
  | ret =>
      rcases h with ⟨hd, hp⟩ | ⟨hd, hp⟩ | ⟨-, hp⟩
      · simp only [List.mem_cons, List.not_mem_nil, or_false] at hp
        rcases hp with hp | hp | hp <;> exact ⟨_, hp, Or.inr (Or.inl ⟨rfl, hd, by simp⟩)⟩
      · simp only [List.mem_cons, List.not_mem_nil, or_false] at hp
        rcases hp with hp | hp <;> exact ⟨_, hp, Or.inr (Or.inr ⟨rfl, hd, by simp⟩)⟩
      · exact absurd hp hu

theorem Agrees.lockStep {p : PidPhase} {phase : LockPhase} (h : Agrees k k.cur (some p))
    (hm : k.cur ∈ k.tasks) (ho : Owner k pidLock o) (hpc : k.pc k.cur = .lockOp pidLock phase)
    (hd : phase ≠ .acqDown) (hk : lockStep k pidLock phase = .ok k') (hu : phase ≠ .relUp) :
    Agrees k' k.cur (some p) := by
  obtain ⟨phase', hp, hcases⟩ := h.place_isSome (by simp [hpc])
  have hphase : phase' = phase := by
    rw [place_lockOp hpc] at hp
    exact (Option.some.inj hp).symm
  subst phase'
  have hplace : ∀ {k₁ : Kernel} {q : LockPhase},
      (k₁.setPc k.cur (.lockOp pidLock q)).place pidLock k.cur = some q :=
    place_lockOp (Function.update_self _ _ _)
  have hown : Owns k.cur (some phase) (k.lock pidLock) (k.depth k.cur pidLock) := by
    have hsome := ho.eq_some_of_place hm hp hd
    subst o
    exact ho.owns hp
  have hdepth : ∀ {k₁ : Kernel} {n : Nat} {q : Pc},
      ((k₁.setDepth k.cur pidLock n).setPc k.cur q).depth k.cur pidLock = n := by
    intro k₁ n q
    simp [Kernel.setDepth, Kernel.setPc]
  rcases hcases with ⟨rfl, hz, hin⟩ | ⟨rfl, hz, hin⟩ | ⟨rfl, hz, hin⟩
  · cases phase with
    | acqHolder =>
        cases hk
        exact Or.inl ⟨hz, by rw [hplace]; simp⟩
    | acqAssert =>
        rw [Sched.lockStep, assert_bind_eq _ _ (by rw [hown.1])] at hk
        cases hk
        exact Or.inl ⟨hz, by rw [hplace]; simp⟩
    | acqRepeat =>
        cases hk
        exact Or.inr ⟨hdepth, Function.update_self _ _ _⟩
    | _ => simp_all
  · cases phase with
    | relTest =>
        have hone : ¬ (k.lock pidLock).holderRepeatNr > 1 := by rw [hown.1, hz]; simp
        rw [Sched.lockStep, if_neg hone] at hk
        cases hk
        exact Or.inl ⟨hz, by rw [hplace]; simp⟩
    | relAssert =>
        rw [Sched.lockStep, assert_bind_eq _ _ (by rw [hown.1])] at hk
        cases hk
        exact Or.inl ⟨hz, by rw [hplace]; simp⟩
    | relHolder =>
        cases hk
        exact Or.inr (Or.inl ⟨hdepth, by rw [hplace]; simp⟩)
    | _ => simp_all
  · cases phase with
    | relRepeat =>
        cases hk
        exact Or.inr (Or.inl ⟨hz, by rw [hplace]; simp⟩)
    | _ => simp_all

theorem Agrees.resume {p : PidPhase} (h : Agrees k k.cur (some p)) (hm : k.cur ∈ k.tasks)
    (ho : Owner k pidLock o) (hu : k.pc k.cur ≠ .user) (he : Effect k .resume k') :
    Agrees k' k.cur (some p) := by
  obtain ⟨phase, hp, hcases⟩ := h.place_isSome hu
  have hload : phase = .acqDown → p = .load ∧ k.depth k.cur pidLock = 0 := by
    rintro rfl
    simpa using hcases
  have hdown : ∀ {s : SemaId}, k.mayDown s → s = .ofLock pidLock ∧ phase = .acqDown := by
    intro s hs
    by_cases hl : s = .ofLock pidLock
    · subst hl
      rw [place_of_mayDown hs] at hp
      exact ⟨rfl, (Option.some.inj hp).symm⟩
    · rw [place_of_mayDown_ne hs hl] at hp
      cases hp
  cases he with
  | world hw => exact h.congr (by rw [hw.depth]) (by rw [hw.pc])
  | unpark hk =>
      rw [place_parked hk] at hp
      cases hp
  | sleep s hs hv hw =>
      obtain ⟨rfl, hphase⟩ := hdown hs
      obtain ⟨rfl, hd⟩ := hload hphase
      have hpc : k'.pc k.cur = .semaWait (.ofLock pidLock) := by
        rw [hw.pc]
        exact Function.update_self _ _ _
      exact Or.inl ⟨by rw [hw.depth]; exact hd, by rw [place_semaWait hpc]; simp⟩
  | take s hs hv =>
      obtain ⟨rfl, hphase⟩ := hdown hs
      obtain ⟨rfl, hd⟩ := hload hphase
      have hpc : (k.taken (.ofLock pidLock)).pc k.cur = .lockOp pidLock .acqHolder :=
        Function.update_self _ _ _
      exact Or.inl ⟨hd, by rw [place_lockOp hpc]; simp⟩
  | raiseLock l hk hv =>
      have hl : l = pidLock := by
        by_contra hne
        rw [place_lockOp_of_ne hk hne] at hp
        cases hp
      subst hl
      rw [place_lockOp hk, Option.some.injEq] at hp
      subst phase
      obtain ⟨-, -, -, -, hdepth, -, -⟩ := raised_frame k (.ofLock pidLock)
      have hret : p = .ret ∧ k.depth k.cur pidLock = 0 := by simpa using hcases
      obtain ⟨rfl, hd⟩ := hret
      refine Or.inr (Or.inr ⟨?_, Function.update_self _ _ _⟩)
      change (k.raised (.ofLock pidLock)).depth k.cur pidLock = 0
      rw [hdepth, hd]
  | locked l phase' hk hd hr hs =>
      have hl : l = pidLock := by
        by_contra hne
        rw [place_lockOp_of_ne hk hne] at hp
        cases hp
      subst hl
      exact h.lockStep hm ho hk hd hs hr

end Agrees

/-- What holds in every run, with or without a race on the counter: the threads inside
`allocate_pid` keep to `pid_lock`, and the counter does not change between the read and the
write of `next_pid++`. -/
structure PidInv (s : PidState) : Prop where
  kernel : (scheduler.restrict (shallow pidLock)).Reachable s.kernel
  agrees : ∀ t, Agrees s.kernel t (s.phase t)
  member : ∀ t, s.phase t ≠ none → t ∈ s.kernel.tasks
  loaded : ∀ t n, s.phase t = some (.store n) → n = s.nextPid

section Steps

variable {s s' : PidState}

theorem PidInv.inv (h : PidInv s) : Inv s.kernel := Reachable.inv h.kernel.of_restrict

theorem PidInv.cur_mem (h : PidInv s) : s.kernel.cur ∈ s.kernel.tasks := h.inv.queues.cur_mem

private theorem PidInv.kernel_step (h : PidInv s) {e : Event} (he : s.Enabled (.kernel e))
    {k' : Kernel} (hs : step s.kernel e = .ok k') : PidInv { s with kernel := k' } := by
  obtain ⟨hen, hown⟩ := he
  have heff := (h.inv.effect hen hs).2
  obtain ⟨o, ho⟩ := Reachable.owner h.kernel
  have hnone : ∀ t, t ∉ s.kernel.tasks → s.phase t = none := fun t ht => by
    by_contra hne
    exact ht (h.member t hne)
  refine ⟨h.kernel.step ⟨?_, hen, hs⟩, ?_, fun t ht => heff.mem_tasks (h.member t ht), h.loaded⟩
  · cases e with
    | lockAcquire l => exact fun hl => absurd hl hown.2
    | _ => trivial
  · intro t
    change Agrees k' t (s.phase t)
    by_cases hi : e = .timer ∨ (∃ t, e = .wakeup t) ∨ ∃ n, e = .semaUp n
    · obtain ⟨-, hpc, hdepth⟩ := interrupt_frame h.inv hen hs hi
      exact (h.agrees t).congr (by rw [hdepth]) (by rw [hpc])
    by_cases ht : t = s.kernel.cur
    · subst ht
      have hag := h.agrees s.kernel.cur
      cases hp : s.phase s.kernel.cur with
      | none =>
          rw [hp] at hag
          refine hag.idle_step heff ?_ ?_ <;> rintro rfl <;> exact hown.2 rfl
      | some p =>
          have hres : e = .resume := by
            cases e <;> simp_all
          subst hres
          rw [hp] at hag
          exact hag.resume h.cur_mem ho hen heff
    · rcases heff.others ht with ⟨hpc, hdepth⟩ | ⟨hnew, hpc, hdepth⟩
      · exact (h.agrees t).congr (by rw [hdepth]) hpc
      · rw [hnone t hnew]
        exact ⟨by rw [hdepth], place_user hpc⟩

/-- Two threads between the read and the write of `next_pid++` would both hold the lock. -/
private theorem PidInv.store_unique (h : PidInv s) {t u : Tid} {n m : Int}
    (ht : s.phase t = some (.store n)) (hu : s.phase u = some (.store m)) : t = u := by
  obtain ⟨o, ho⟩ := Reachable.owner h.kernel
  have hdepth : ∀ {v : Tid} {i : Int}, s.phase v = some (.store i) → o = some v := by
    intro v i hv
    have hag := h.agrees v
    rw [hv] at hag
    exact ho.eq_some_of_depth (h.member v (by simp [hv])) (by rw [hag.1]; exact Nat.one_pos)
  have hsame := (hdepth ht).symm.trans (hdepth hu)
  exact Option.some.inj hsame

/-- What a statement of `allocate_pid` can do. -/
inductive Allocates (s : PidState) : PidState → Prop
  | enter {k' : Kernel} : s.phase s.kernel.cur = none → lockAcquire s.kernel pidLock = .ok k' →
      Allocates s { s.setPhase (some .load) with kernel := k', calls := s.calls + 1 }
  | load : s.phase s.kernel.cur = some .load →
      Allocates s (s.setPhase (some (.store s.nextPid)))
  | store (n : Int) : s.phase s.kernel.cur = some (.store n) →
      Allocates s { s.setPhase (some .release) with nextPid := Int.bmod (n + 1) (2 ^ 16) }
  | release {k' : Kernel} : s.phase s.kernel.cur = some .release →
      lockRelease s.kernel pidLock = .ok k' →
      Allocates s { s.setPhase (some .ret) with kernel := k' }
  | ret : s.phase s.kernel.cur = some .ret →
      Allocates s { s.setPhase none with returned := s.nextPid :: s.returned }

private theorem allocates_of_step (hs : s.allocatePid = .ok s') : Allocates s s' := by
  rw [PidState.allocatePid] at hs
  cases hp : s.phase s.kernel.cur with
  | none =>
      rw [hp] at hs
      cases hk : lockAcquire s.kernel pidLock with
      | error a => simp [hk, bind, Except.bind] at hs
      | ok k' =>
          rw [hk] at hs
          cases hs
          exact .enter hp hk
  | some p =>
      rw [hp] at hs
      cases p with
      | load => cases hs; exact .load hp
      | store n => cases hs; exact .store n hp
      | release =>
          cases hk : lockRelease s.kernel pidLock with
          | error a => simp [hk, bind, Except.bind] at hs
          | ok k' =>
              rw [hk] at hs
              cases hs
              exact .release hp hk
      | ret => cases hs; exact .ret hp

theorem setPhase_cur (s : PidState) (p : Option PidPhase) :
    (s.setPhase p).phase s.kernel.cur = p := Function.update_self _ _ _

theorem setPhase_of_ne (s : PidState) (p : Option PidPhase) {t : Tid} (ht : t ≠ s.kernel.cur) :
    (s.setPhase p).phase t = s.phase t := Function.update_of_ne ht _ _

private theorem setPhase_forall {P : Tid → Option PidPhase → Prop} {p : Option PidPhase}
    (hc : P s.kernel.cur p) (ho : ∀ t, t ≠ s.kernel.cur → P t (s.phase t)) (t : Tid) :
    P t ((s.setPhase p).phase t) := by
  by_cases ht : t = s.kernel.cur
  · rw [ht, setPhase_cur]
    exact hc
  · rw [setPhase_of_ne s p ht]
    exact ho t ht

private theorem PidInv.allocate_step (h : PidInv s) (he : s.Enabled .allocate)
    (hs : Allocates s s') : PidInv s' := by
  obtain ⟨hu, hidle⟩ := he
  have hag := h.agrees s.kernel.cur
  have hmem : ∀ {p : Option PidPhase} (t : Tid), (s.setPhase p).phase t ≠ none →
      t ∈ s.kernel.tasks := fun {p} t =>
    setPhase_forall (P := fun t q => q ≠ none → t ∈ s.kernel.tasks) (fun _ => h.cur_mem)
      (fun t _ => h.member t) t
  cases hs with
  | @enter k' hp hk =>
      rw [hp] at hag
      have hen : Enabled s.kernel (.lockAcquire pidLock) := ⟨hu, hidle⟩
      have heff := (h.inv.effect hen hk).2
      have hsh : shallow pidLock s.kernel (.lockAcquire pidLock) := by
        intro _
        rw [hag.1]
        decide
      obtain ⟨o, ho⟩ := Reachable.owner h.kernel
      -- the lock cannot be held by the caller, so the semaphore is tried next
      have hfree : (s.kernel.lock pidLock).holder ≠ some s.kernel.cur := by
        intro hh
        have hsome := ho.eq_some_of_holder hh
        subst o
        have hown := ho.owns (place_user hu)
        have hz := hag.1
        have hpos := hown.2
        omega
      rw [lockAcquire, if_pos hfree] at hk
      cases hk
      refine ⟨h.kernel.step ⟨hsh, hen, ?_⟩, ?_, fun t ht => hmem t ht, ?_⟩
      · change lockAcquire s.kernel pidLock = _
        rw [lockAcquire, if_pos hfree]
        rfl
      · refine setPhase_forall (P := fun t q => Agrees (s.kernel.setPc s.kernel.cur
          (.lockOp pidLock .acqDown)) t q) (Or.inl ⟨hag.1, ?_⟩) ?_
        · rw [place_lockOp (Function.update_self _ _ _)]
          simp
        · exact fun t ht => (h.agrees t).congr rfl (Function.update_of_ne ht _ _)
      · exact setPhase_forall (P := fun t q => ∀ n, q = some (.store n) → n = s.nextPid)
          (by simp) (fun t _ => h.loaded t)
  | load hp =>
      rw [hp] at hag
      refine ⟨h.kernel, ?_, fun t ht => hmem t ht, ?_⟩
      · refine setPhase_forall (P := fun t q => Agrees s.kernel t q) ?_ (fun t _ => h.agrees t)
        rcases hag with ⟨-, hplace⟩ | hag
        · rw [place_user hu] at hplace
          simp at hplace
        · exact hag
      · refine setPhase_forall (P := fun t q => ∀ n, q = some (.store n) → n = s.nextPid) ?_
          (fun t _ => h.loaded t)
        intro n hn
        cases hn
        rfl
  | store n hp =>
      rw [hp] at hag
      refine ⟨h.kernel, ?_, fun t ht => hmem t ht, ?_⟩
      · exact setPhase_forall (P := fun t q => Agrees s.kernel t q) hag (fun t _ => h.agrees t)
      · refine setPhase_forall (P := fun t q => ∀ m, q = some (.store m) → m = _) (by simp) ?_
        intro t ht m hm
        exact absurd (h.store_unique hm hp) ht
  | @release k' hp hk =>
      rw [hp] at hag
      have hen : Enabled s.kernel (.lockRelease pidLock) :=
        ⟨hu, hidle, by rw [hag.1]; exact Nat.one_pos⟩
      have hreach : (scheduler.restrict (shallow pidLock)).Reachable k' :=
        h.kernel.step (e := .lockRelease pidLock) ⟨trivial, hen, hk⟩
      obtain ⟨-, rfl⟩ := lockRelease_eq hk
      refine ⟨hreach, ?_, fun t ht => hmem t ht, ?_⟩
      · refine setPhase_forall (P := fun t q => Agrees (s.kernel.setPc s.kernel.cur
          (.lockOp pidLock .relTest)) t q) (Or.inl ⟨hag.1, ?_⟩) ?_
        · rw [place_lockOp (Function.update_self _ _ _)]
          simp
        · exact fun t ht => (h.agrees t).congr rfl (Function.update_of_ne ht _ _)
      · exact setPhase_forall (P := fun t q => ∀ n, q = some (.store n) → n = s.nextPid)
          (by simp) (fun t _ => h.loaded t)
  | ret hp =>
      rw [hp] at hag
      refine ⟨h.kernel, ?_, fun t ht => hmem t ht, ?_⟩
      · refine setPhase_forall (P := fun t q => Agrees s.kernel t q) ?_ (fun t _ => h.agrees t)
        rcases hag with ⟨-, hplace⟩ | ⟨-, hplace⟩ | ⟨hd, -⟩
        · rw [place_user hu] at hplace
          simp at hplace
        · rw [place_user hu] at hplace
          simp at hplace
        · exact ⟨hd, place_user hu⟩
      · exact setPhase_forall (P := fun t q => ∀ n, q = some (.store n) → n = s.nextPid)
          (by simp) (fun t _ => h.loaded t)

theorem step_cases {e : PidEvent} (h : pidSystem.step s e s') :
    (e = .allocate ∧ s.Enabled .allocate ∧ Allocates s s') ∨
      ∃ e' k', e = .kernel e' ∧ s.Enabled (.kernel e') ∧ step s.kernel e' = .ok k' ∧
        s' = { s with kernel := k' } := by
  obtain ⟨hen, hs⟩ := h
  cases e with
  | allocate => exact Or.inl ⟨rfl, hen, allocates_of_step hs⟩
  | kernel e =>
      cases hk : step s.kernel e with
      | error a => simp [PidState.step, hk, bind, Except.bind] at hs
      | ok k' =>
          rw [PidState.step, hk] at hs
          cases hs
          exact Or.inr ⟨e, k', rfl, hen, hk, rfl⟩

end Steps

private theorem pidInv_init {s : PidState} (h : pidSystem.init s) : PidInv s := by
  obtain ⟨hinit, -, hphase, -, -⟩ := h
  obtain ⟨main, init, idle, value, -, hii, hmd, hk⟩ := id hinit
  rw [threadInit_eq value hii hmd, Except.ok.injEq] at hk
  refine ⟨.init hinit, ?_, ?_, ?_⟩
  · intro t
    rw [hphase, ← hk]
    refine ⟨?_, place_user ?_⟩ <;> simp [booted, Kernel.started, Kernel.addMain, blank]
  · simp [hphase]
  · simp [hphase]

theorem Reachable.pidInv {s : PidState} (h : pidSystem.Reachable s) : PidInv s := by
  refine h.invariant (fun _ => pidInv_init) ?_
  intro s e s' hinv hs
  rcases step_cases hs with ⟨-, hen, ha⟩ | ⟨e', k', -, hen, hk, rfl⟩
  · exact hinv.allocate_step hen ha
  · exact hinv.kernel_step hen hk

end Aitos.Sched
