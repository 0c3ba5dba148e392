import Aitos.Sched.Wakeup

/-!
# The owner of a lock

`lock_acquire` and `lock_release` write the fields of a lock outside the critical sections of
its semaphore, so between two of these writes the fields are out of step with each other.  The
thread that took the semaphore's unit is the owner until it gives the unit back; `Owns` says
what the fields are at each statement it can stand at.
-/

namespace Aitos.Sched

open Framework

/-- The statement of a lock function on `l` that thread `t` stands at. -/
def Kernel.place (k : Kernel) (l : LockId) (t : Tid) : Option LockPhase :=
  match k.pc t with
  | .lockOp l' phase => if l' = l then some phase else none
  | .semaWait s => if s = .ofLock l then some .acqDown else none
  | _ => none

/-- Thread `t` has no part in the lock, or still waits for it. -/
def Free (k : Kernel) (l : LockId) (t : Tid) : Prop :=
  k.depth t l = 0 ∧ (k.place l t = none ∨ k.place l t = some .acqDown)

/-- The fields of a lock while its owner `t`, at nesting depth `d`, stands at `place`. -/
def Owns (t : Tid) (place : Option LockPhase) (lock : Lock) (d : Nat) : Prop :=
  match place with
  | none | some .relTest => lock = ⟨some t, d⟩ ∧ 0 < d
  | some .acqDown => False
  | some .acqHolder => lock = ⟨none, 0⟩ ∧ d = 0
  | some .acqAssert | some .acqRepeat => lock = ⟨some t, 0⟩ ∧ d = 0
  | some .acqAgain => lock = ⟨some t, d⟩ ∧ 0 < d ∧ d + 1 < 2 ^ 32
  | some .relDec => lock = ⟨some t, d⟩ ∧ 1 < d
  | some .relAssert | some .relHolder => lock = ⟨some t, 1⟩ ∧ d = 1
  | some .relRepeat => lock = ⟨none, 1⟩ ∧ d = 0
  | some .relUp => lock = ⟨none, 0⟩ ∧ d = 0

def Owner (k : Kernel) (l : LockId) : Option Tid → Prop
  | none => (k.sema (.ofLock l)).value = 1 ∧ k.lock l = ⟨none, 0⟩ ∧ ∀ t ∈ k.tasks, Free k l t
  | some t => (k.sema (.ofLock l)).value = 0 ∧ t ∈ k.tasks ∧
      Owns t (k.place l t) (k.lock l) (k.depth t l) ∧ ∀ u ∈ k.tasks, u ≠ t → Free k l u

section Places

variable {k k' : Kernel} {l : LockId} {t : Tid}

theorem place_congr (h : k'.pc t = k.pc t) : k'.place l t = k.place l t := by
  rw [Kernel.place, Kernel.place, h]

theorem place_user (h : k.pc t = .user) : k.place l t = none := by rw [Kernel.place, h]

theorem place_parked (h : k.pc t = .parked) : k.place l t = none := by rw [Kernel.place, h]

theorem place_lockOp {phase : LockPhase} (h : k.pc t = .lockOp l phase) :
    k.place l t = some phase := by
  rw [Kernel.place, h]
  exact if_pos rfl

theorem place_lockOp_of_ne {l' : LockId} {phase : LockPhase} (h : k.pc t = .lockOp l' phase)
    (hne : l' ≠ l) : k.place l t = none := by
  rw [Kernel.place, h]
  exact if_neg hne

theorem place_semaWait (h : k.pc t = .semaWait (.ofLock l)) : k.place l t = some .acqDown := by
  rw [Kernel.place, h]
  exact if_pos rfl

theorem place_semaWait_of_ne {s : SemaId} (h : k.pc t = .semaWait s) (hne : s ≠ .ofLock l) :
    k.place l t = none := by
  rw [Kernel.place, h]
  exact if_neg hne

theorem place_of_mayDown (h : k.mayDown (.ofLock l)) : k.place l k.cur = some .acqDown := by
  rcases h with ⟨-, n, hn⟩ | h | ⟨l', hl, h⟩
  · cases hn
  · exact place_semaWait h
  · cases hl
    exact place_lockOp h

theorem place_of_mayDown_ne {s : SemaId} (h : k.mayDown s) (hne : s ≠ .ofLock l) :
    k.place l k.cur = none := by
  rcases h with ⟨h, -⟩ | h | ⟨l', rfl, h⟩
  · exact place_user h
  · exact place_semaWait_of_ne h hne
  · exact place_lockOp_of_ne h (fun e => hne (by rw [e]))

end Places

section Frame

variable {k k' : Kernel} {l : LockId} {o : Option Tid}

theorem Free.congr {t : Tid} (h : Free k l t) (hd : k'.depth t l = k.depth t l)
    (hp : k'.place l t = k.place l t) : Free k' l t := by
  rw [Free, hd, hp]
  exact h

theorem Owner.frame (h : Owner k l o) (htasks : k'.tasks = k.tasks)
    (hv : (k'.sema (.ofLock l)).value = (k.sema (.ofLock l)).value) (hl : k'.lock l = k.lock l)
    (hd : ∀ t, k'.depth t l = k.depth t l) (hp : ∀ t, k'.place l t = k.place l t) :
    Owner k' l o := by
  cases o with
  | none =>
      refine ⟨hv.trans h.1, hl.trans h.2.1, fun t ht => ?_⟩
      exact (h.2.2 t (htasks ▸ ht)).congr (hd t) (hp t)
  | some t =>
      refine ⟨hv.trans h.1, htasks ▸ h.2.1, ?_, fun u hu hne => ?_⟩
      · rw [hl, hd, hp]
        exact h.2.2.1
      · exact (h.2.2.2 u (htasks ▸ hu) hne).congr (hd u) (hp u)

theorem Owner.sameWorld (h : Owner k l o) (hw : SameWorld k k') : Owner k' l o :=
  h.frame hw.tasks (by rw [hw.sema]) (by rw [hw.lock]) (fun t => by rw [hw.depth])
    (fun t => place_congr (by rw [hw.pc]))

private theorem place_eq_of_cur {c : Tid} (hpc : ∀ t, t ≠ c → k'.pc t = k.pc t)
    (hc : k'.place l c = k.place l c) (t : Tid) : k'.place l t = k.place l t := by
  by_cases h : t = c
  · rw [h]
    exact hc
  · exact place_congr (hpc t h)

private theorem Owner.eq_some (h : Owner k l o) {t : Tid} (ht : t ∈ k.tasks) (hf : ¬ Free k l t) :
    o = some t := by
  cases o with
  | none => exact absurd (h.2.2 t ht) hf
  | some u =>
      by_cases he : t = u
      · rw [he]
      · exact absurd (h.2.2.2 t ht he) hf

theorem Owner.eq_some_of_depth (h : Owner k l o) {t : Tid} (ht : t ∈ k.tasks)
    (hd : 0 < k.depth t l) : o = some t := by
  apply h.eq_some ht
  intro hf
  have := hf.1
  omega

theorem Owner.eq_some_of_place (h : Owner k l o) {t : Tid} (ht : t ∈ k.tasks) {phase : LockPhase}
    (hp : k.place l t = some phase) (hne : phase ≠ .acqDown) : o = some t := by
  apply h.eq_some ht
  rintro ⟨-, hf | hf⟩
  · rw [hp] at hf
    cases hf
  · rw [hp, Option.some.injEq] at hf
    exact hne hf

/-- `holder` names a thread only while that thread owns the lock. -/
theorem Owner.eq_some_of_holder (h : Owner k l o) {t : Tid}
    (hh : (k.lock l).holder = some t) : o = some t := by
  cases o with
  | none =>
      rw [h.2.1] at hh
      cases hh
  | some u =>
      have hown := h.2.2.1
      rw [Owns.eq_def] at hown
      split at hown <;> first
        | exact hown.elim
        | (rw [hown.1] at hh; cases hh; rfl)
        | (rw [hown.1] at hh; cases hh)

theorem Owner.owns {t : Tid} (h : Owner k l (some t)) {p : Option LockPhase}
    (hp : k.place l t = p) : Owns t p (k.lock l) (k.depth t l) := hp ▸ h.2.2.1

theorem Owner.move {c : Tid} (h : Owner k l (some c)) (htasks : k'.tasks = k.tasks)
    (hsema : k'.sema = k.sema) (hpc : ∀ t, t ≠ c → k'.pc t = k.pc t)
    (hd : ∀ t, t ≠ c → k'.depth t l = k.depth t l)
    (hown : Owns c (k'.place l c) (k'.lock l) (k'.depth c l)) : Owner k' l (some c) := by
  refine ⟨by rw [hsema]; exact h.1, htasks ▸ h.2.1, hown, fun u hu hne => ?_⟩
  exact (h.2.2.2 u (htasks ▸ hu) hne).congr (hd u hne) (place_congr (hpc u hne))

private theorem Owner.write_of_ne {l' : LockId} (h : Owner k l o) (hw : LockWrite k l' k')
    (hne : l' ≠ l) (hp : k.place l k.cur = none) : Owner k' l o := by
  refine h.frame hw.tasks (by rw [hw.sema]) (hw.lock l (Ne.symm hne))
    (fun t => hw.depth t l (Or.inr (Ne.symm hne))) ?_
  apply place_eq_of_cur hw.pc
  rw [hp]
  rcases hw.cur with hc | ⟨phase, hc⟩
  · exact place_user hc
  · exact place_lockOp_of_ne hc hne

end Frame

/-- A nested `lock_acquire` finds the 32-bit counter below its maximum. -/
def shallow (l : LockId) (k : Kernel) : Event → Prop
  | .lockAcquire l' => l' = l → k.depth k.cur l + 1 < 2 ^ 32
  | _ => True

section Steps

variable {k k' : Kernel} {l : LockId} {o : Option Tid}

theorem Owner.acquire (h : Owner k l o) (hp : k.pc k.cur = .user)
    (hsh : k.depth k.cur l + 1 < 2 ^ 32) (hk : lockAcquire k l = .ok k') : Owner k' l o := by
  have hnone : k.place l k.cur = none := place_user hp
  rw [lockAcquire] at hk
  split at hk
  · rename_i hh
    cases hk
    have hplace : (k.setPc k.cur (.lockOp l .acqDown)).place l k.cur = some .acqDown :=
      place_lockOp (Function.update_self _ _ _)
    have hpc : ∀ t, t ≠ k.cur → (k.setPc k.cur (.lockOp l .acqDown)).pc t = k.pc t :=
      fun t ht => Function.update_of_ne ht _ _
    have hfree : ∀ t, Free k l t → Free (k.setPc k.cur (.lockOp l .acqDown)) l t := by
      intro t ht
      by_cases hc : t = k.cur
      · subst t
        exact ⟨ht.1, Or.inr hplace⟩
      · exact ht.congr rfl (place_congr (hpc t hc))
    cases o with
    | none => exact ⟨h.1, h.2.1, fun t ht => hfree t (h.2.2 t ht)⟩
    | some t =>
        have hne : t ≠ k.cur := by
          rintro rfl
          have hown := (h.owns hnone).1
          exact hh (by rw [hown])
        refine ⟨h.1, h.2.1, ?_, fun u hu hu' => hfree u (h.2.2.2 u hu hu')⟩
        rw [place_congr (hpc t hne)]
        exact h.2.2.1
  · rename_i hh
    cases hk
    have ho := h.eq_some_of_holder (not_not.mp hh)
    subst o
    have hown := h.owns hnone
    refine h.move rfl rfl (fun t ht => Function.update_of_ne ht _ _) (fun _ _ => rfl) ?_
    rw [place_lockOp (Function.update_self _ _ _)]
    exact ⟨hown.1, hown.2, hsh⟩

theorem Owner.release (h : Owner k l o) (hm : k.cur ∈ k.tasks) (hp : k.pc k.cur = .user)
    (hd : 0 < k.depth k.cur l) (hk : lockRelease k l = .ok k') : Owner k' l o := by
  obtain ⟨-, rfl⟩ := lockRelease_eq hk
  have ho := h.eq_some_of_depth hm hd
  subst o
  refine h.move rfl rfl (fun t ht => Function.update_of_ne ht _ _) (fun _ _ => rfl) ?_
  have hown := h.owns (place_user hp)
  rw [place_lockOp (Function.update_self _ _ _)]
  exact hown

private theorem owns_write {c : Tid} {v : Lock} {d : Nat} {p : Pc} {place : Option LockPhase}
    (hp : ∀ k₁ : Kernel, (k₁.setPc c p).place l c = place) (h : Owns c place v d) :
    Owns c ((((k.setLock l v).setDepth c l d).setPc c p).place l c)
      ((((k.setLock l v).setDepth c l d).setPc c p).lock l)
      ((((k.setLock l v).setDepth c l d).setPc c p).depth c l) := by
  have hlock : (((k.setLock l v).setDepth c l d).setPc c p).lock l = v :=
    Function.update_self _ _ _
  have hdepth : (((k.setLock l v).setDepth c l d).setPc c p).depth c l = d := by
    simp [Kernel.setDepth, Kernel.setPc]
  rw [hp, hlock, hdepth]
  exact h

theorem Owner.locked (h : Owner k l o) (hm : k.cur ∈ k.tasks) {phase : LockPhase}
    (hp : k.pc k.cur = .lockOp l phase) (hd : phase ≠ .acqDown) (hu : phase ≠ .relUp)
    (hk : lockStep k l phase = .ok k') : Owner k' l o := by
  have hplace : k.place l k.cur = some phase := place_lockOp hp
  have ho := h.eq_some_of_place hm hplace hd
  subst o
  have hown := h.owns hplace
  have hw := lockStep_write hd hu hk
  refine h.move hw.tasks hw.sema hw.pc (fun t ht => hw.depth t l (Or.inl ht)) ?_
  have huser : ∀ k₁ : Kernel, (k₁.setPc k.cur .user).place l k.cur = none :=
    fun k₁ => place_user (Function.update_self _ _ _)
  have hop : ∀ (phase : LockPhase) (k₁ : Kernel),
      (k₁.setPc k.cur (.lockOp l phase)).place l k.cur = some phase :=
    fun phase k₁ => place_lockOp (Function.update_self _ _ _)
  have hset : ∀ (v : Lock) (phase : LockPhase),
      ((k.setLock l v).setPc k.cur (.lockOp l phase)).lock l = v :=
    fun v phase => Function.update_self _ _ _
  cases phase with
  | acqDown => exact absurd rfl hd
  | relUp => exact absurd rfl hu
  | acqHolder =>
      cases hk
      rw [hop, hset, hown.1]
      exact ⟨rfl, hown.2⟩
  | acqAssert =>
      rw [lockStep, assert_bind_eq _ _ (by rw [hown.1])] at hk
      cases hk
      rw [hop]
      exact hown
  | acqRepeat =>
      cases hk
      apply owns_write huser
      rw [hown.1]
      exact ⟨rfl, by omega⟩
  | acqAgain =>
      obtain ⟨hlock, hpos, hlt⟩ := hown
      cases hk
      apply owns_write huser
      rw [hlock, Nat.mod_eq_of_lt hlt]
      exact ⟨rfl, by omega⟩
  | relTest =>
      have hrep : (k.lock l).holderRepeatNr = k.depth k.cur l := by rw [hown.1]
      rw [lockStep] at hk
      split at hk
      · have hone : 1 < k.depth k.cur l := by omega
        cases hk
        rw [hop]
        exact ⟨hown.1, hone⟩
      · have hone : k.depth k.cur l = 1 := by
          have := hown.2
          omega
        cases hk
        rw [hop]
        rw [hone] at hown
        exact ⟨hown.1, hone⟩
  | relDec =>
      have hpos := hown.2
      cases hk
      apply owns_write huser
      rw [hown.1]
      exact ⟨rfl, by omega⟩
  | relAssert =>
      rw [lockStep, assert_bind_eq _ _ (by rw [hown.1])] at hk
      cases hk
      rw [hop]
      exact hown
  | relHolder =>
      cases hk
      apply owns_write (hop .relRepeat)
      rw [hown.1]
      exact ⟨rfl, rfl⟩
  | relRepeat =>
      cases hk
      rw [hop, hset, hown.1]
      exact ⟨rfl, hown.2⟩

theorem Owner.taken (h : Owner k l o) (hm : k.cur ∈ k.tasks)
    (hv : (k.sema (.ofLock l)).value = 1) : Owner (k.taken (.ofLock l)) l (some k.cur) := by
  cases o with
  | some t =>
      rw [h.1] at hv
      cases hv
  | none =>
      have hval : ((k.taken (.ofLock l)).sema (.ofLock l)).value = 0 := by
        simp [Kernel.taken, Kernel.setSema, Kernel.setPc, Kernel.intrEnable]
      refine ⟨hval, hm, ?_, fun u hu hne => ?_⟩
      · have hpc : (k.taken (.ofLock l)).pc k.cur = .lockOp l .acqHolder :=
          Function.update_self _ _ _
        rw [place_lockOp hpc]
        exact ⟨h.2.1, (h.2.2 k.cur hm).1⟩
      · exact (h.2.2 u hu).congr rfl (place_congr (Function.update_of_ne hne _ _))

theorem Owner.raised (h : Owner k l o) (hm : k.cur ∈ k.tasks)
    (hp : k.pc k.cur = .lockOp l .relUp) :
    Owner ((k.raised (.ofLock l)).setPc k.cur .user) l none := by
  have hplace : k.place l k.cur = some .relUp := place_lockOp hp
  have ho := h.eq_some_of_place hm hplace (by decide)
  subst o
  obtain ⟨-, hpc, -, hlock, hdepth, htasks, -⟩ := raised_frame k (.ofLock l)
  have hown := h.owns hplace
  have hval : ((k.raised (.ofLock l)).sema (.ofLock l)).value = 1 := by rw [raised_sema_self]
  refine ⟨hval, ?_, fun t ht => ?_⟩
  · change (k.raised (.ofLock l)).lock l = _
    rw [hlock]
    exact hown.1
  · have hd : ((k.raised (.ofLock l)).setPc k.cur .user).depth t l = k.depth t l := by
      change (k.raised (.ofLock l)).depth t l = _
      rw [hdepth]
    by_cases hc : t = k.cur
    · subst t
      refine ⟨hd.trans hown.2, Or.inl (place_user ?_)⟩
      exact Function.update_self _ _ _
    · refine (h.2.2.2 t (htasks ▸ ht) hc).congr hd (place_congr ?_)
      refine (Function.update_of_ne hc _ _).trans ?_
      rw [hpc]

theorem Owner.started (h : Owner k l o) {t : Tid} (ht : t ∉ k.tasks) (prio : Nat) :
    Owner (k.started t prio) l o := by
  have hdepth : ∀ u, u ≠ t → (k.started t prio).depth u l = k.depth u l := by
    intro u hu
    exact congrFun (Function.update_of_ne hu _ _) l
  have hplace : ∀ u, u ≠ t → (k.started t prio).place l u = k.place l u :=
    fun u hu => place_congr (Function.update_of_ne hu _ _)
  have hnew : Free (k.started t prio) l t := by
    refine ⟨?_, Or.inl (place_user (Function.update_self _ _ _))⟩
    change Function.update k.depth t (fun _ => 0) t l = 0
    rw [Function.update_self]
  have hne : ∀ u ∈ k.tasks, u ≠ t := fun u hu he => ht (he ▸ hu)
  have hfree : ∀ u ∈ (k.started t prio).tasks, (u ∈ k.tasks → Free k l u) →
      Free (k.started t prio) l u := by
    intro u hu hf
    rcases List.mem_append.mp hu with hu | hu
    · exact (hf hu).congr (hdepth u (hne u hu)) (hplace u (hne u hu))
    · rw [List.mem_singleton.mp hu]
      exact hnew
  cases o with
  | none => exact ⟨h.1, h.2.1, fun u hu => hfree u hu (h.2.2 u)⟩
  | some c =>
      refine ⟨h.1, List.mem_append_left _ h.2.1, ?_, fun u hu hc => ?_⟩
      · rw [hplace c (hne c h.2.1), hdepth c (hne c h.2.1)]
        exact h.2.2.1
      · exact hfree u hu (fun hm => h.2.2.2 u hm hc)

theorem Owner.effect {e : Event} (h : Owner k l o) (hinv : Inv k) (he : Effect k e k')
    (hsh : shallow l k e) : ∃ o', Owner k' l o' := by
  have hm := hinv.queues.cur_mem
  cases he with
  | world hw => exact ⟨o, h.sameWorld hw⟩
  | start t prio ht => exact ⟨o, h.started ht prio⟩
  | park stat hp hw =>
      have hparked : Owner ((k.setPc k.cur .parked).setStatus k.cur stat) l o := by
        refine h.frame rfl rfl rfl (fun _ => rfl) (place_eq_of_cur (c := k.cur) ?_ ?_)
        · exact fun t ht => Function.update_of_ne ht _ _
        · rw [place_user hp]
          exact place_parked (Function.update_self _ _ _)
      exact ⟨o, hparked.sameWorld hw⟩
  | unpark hp =>
      refine ⟨o, h.frame rfl rfl rfl (fun _ => rfl) (place_eq_of_cur (c := k.cur) ?_ ?_)⟩
      · exact fun t ht => Function.update_of_ne ht _ _
      · rw [place_parked hp]
        exact place_user (Function.update_self _ _ _)
  | sleep s hd hv hw =>
      have hasleep : Owner (k.asleepOn s) l o := by
        refine h.frame rfl ?_ rfl (fun _ => rfl) (place_eq_of_cur (c := k.cur) ?_ ?_)
        · by_cases hs : SemaId.ofLock l = s
          · subst s
            simp [Kernel.asleepOn, Kernel.setSema, Kernel.setPc, Kernel.intrDisable,
              Kernel.setStatus]
          · exact congrArg Semaphore.value (Function.update_of_ne hs _ _)
        · exact fun t ht => Function.update_of_ne ht _ _
        · by_cases hs : s = .ofLock l
          · subst s
            rw [place_of_mayDown hd]
            exact place_semaWait (Function.update_self _ _ _)
          · rw [place_of_mayDown_ne hd hs]
            exact place_semaWait_of_ne (Function.update_self _ _ _) hs
      exact ⟨o, hasleep.sameWorld hw⟩
  | take s hd hv =>
      by_cases hs : s = .ofLock l
      · subst s
        exact ⟨_, h.taken hm hv⟩
      · refine ⟨o, h.frame rfl ?_ rfl (fun _ => rfl) (place_eq_of_cur (c := k.cur) ?_ ?_)⟩
        · exact congrArg Semaphore.value (Function.update_of_ne (Ne.symm hs) _ _)
        · exact fun t ht => Function.update_of_ne ht _ _
        · rw [place_of_mayDown_ne hd hs]
          have hpc : (k.taken s).pc k.cur = s.next := Function.update_self _ _ _
          cases s with
          | plain n => exact place_user hpc
          | ofLock l' => exact place_lockOp_of_ne hpc (fun e => hs (by rw [e]))
  | raise n hv =>
      obtain ⟨-, hpc, -, hlock, hdepth, htasks, -⟩ := raised_frame k (.plain n)
      refine ⟨o, h.frame htasks ?_ (by rw [hlock]) (fun t => by rw [hdepth])
        (fun t => place_congr (by rw [hpc]))⟩
      rw [raised_sema_of_ne (by simp)]
  | raiseLock l' hp hv =>
      by_cases hl : l' = l
      · subst l'
        exact ⟨_, h.raised hm hp⟩
      · obtain ⟨-, hpc, -, hlock, hdepth, htasks, -⟩ := raised_frame k (.ofLock l')
        refine ⟨o, h.frame htasks ?_ ?_ ?_ (place_eq_of_cur (c := k.cur) ?_ ?_)⟩
        · change ((k.raised (.ofLock l')).sema (.ofLock l)).value = _
          rw [raised_sema_of_ne (by simpa using Ne.symm hl)]
        · change (k.raised (.ofLock l')).lock l = _
          rw [hlock]
        · intro t
          change (k.raised (.ofLock l')).depth t l = _
          rw [hdepth]
        · intro t ht
          refine (Function.update_of_ne ht _ _).trans ?_
          rw [hpc]
        · rw [place_lockOp_of_ne hp hl]
          exact place_user (Function.update_self _ _ _)
  | acquire l' hp hk =>
      by_cases hl : l' = l
      · subst l'
        exact ⟨o, h.acquire hp (hsh rfl) hk⟩
      · exact ⟨o, h.write_of_ne (lockAcquire_write hk) hl (place_user hp)⟩
  | release l' hp hd hk =>
      by_cases hl : l' = l
      · subst l'
        exact ⟨o, h.release hm hp hd hk⟩
      · obtain ⟨-, rfl⟩ := lockRelease_eq hk
        exact ⟨o, h.write_of_ne (.refl_setPc k l' (Or.inr ⟨_, rfl⟩)) hl (place_user hp)⟩
  | locked l' phase hp hd hu hk =>
      by_cases hl : l' = l
      · subst l'
        exact ⟨o, h.locked hm hp hd hu hk⟩
      · exact ⟨o, h.write_of_ne (lockStep_write hd hu hk) hl (place_lockOp_of_ne hp hl)⟩

theorem Owner.step_ok {e : Event} (h : Owner k l o) (hinv : Inv k) (he : Enabled k e)
    (huse : e = .lockAcquire l ∨ e = .lockRelease l ∨
      e = .resume ∧ (k.place l k.cur).isSome = true) : ∃ k', step k e = .ok k' := by
  have hm := hinv.queues.cur_mem
  have hval : (k.sema (.ofLock l)).value ≤ 1 := by
    cases o with
    | none => exact h.1.le
    | some t => exact h.1.le.trans (by decide)
  have hdown : k.cur ≠ k.idle → ∃ k', semaDown k (.ofLock l) = .ok k' := by
    intro hidle
    rcases semaDown_spec hinv.queues hidle (.ofLock l) with ⟨-, k', hk, -⟩ | ⟨-, hk⟩ | ⟨hv, -⟩
    · exact ⟨k', hk⟩
    · exact ⟨_, hk⟩
    · omega
  rcases huse with rfl | rfl | ⟨rfl, hplace⟩
  · change ∃ k', lockAcquire k l = .ok k'
    rw [lockAcquire]
    split <;> exact ⟨_, rfl⟩
  · have ho := h.eq_some_of_depth hm he.2.2
    subst o
    have hown := h.owns (place_user he.1)
    exact ⟨_, assert_bind_eq _ _ (by rw [hown.1])⟩
  · change ∃ k', resume k = .ok k'
    rw [resume]
    cases hpc : k.pc k.cur with
    | user => exact ⟨k, rfl⟩
    | parked => exact ⟨_, rfl⟩
    | semaWait s =>
        have hs : s = .ofLock l := by
          by_contra hne
          rw [place_semaWait_of_ne hpc hne] at hplace
          cases hplace
        subst s
        exact hdown (hinv.cur_ne_idle (by simp [hpc]) (by simp [hpc]))
    | lockOp l' phase =>
        have hl : l' = l := by
          by_contra hne
          rw [place_lockOp_of_ne hpc hne] at hplace
          cases hplace
        subst l'
        have hpl : k.place l k.cur = some phase := place_lockOp hpc
        have howns : phase ≠ .acqDown → Owns k.cur (some phase) (k.lock l) (k.depth k.cur l) ∧
            (k.sema (.ofLock l)).value = 0 := by
          intro hne
          have ho := h.eq_some_of_place hm hpl hne
          subst o
          exact ⟨h.owns hpl, h.1⟩
        cases phase with
        | acqDown => exact hdown (hinv.cur_ne_idle (by simp [hpc]) (by simp [hpc]))
        | acqHolder => exact ⟨_, rfl⟩
        | acqAssert =>
            refine ⟨_, assert_bind_eq _ _ ?_⟩
            rw [(howns (by decide)).1.1]
        | acqRepeat => exact ⟨_, rfl⟩
        | acqAgain => exact ⟨_, rfl⟩
        | relTest =>
            change ∃ k', lockStep k l .relTest = .ok k'
            rw [lockStep]
            split <;> exact ⟨_, rfl⟩
        | relDec => exact ⟨_, rfl⟩
        | relAssert =>
            refine ⟨_, assert_bind_eq _ _ ?_⟩
            rw [(howns (by decide)).1.1]
        | relHolder => exact ⟨_, rfl⟩
        | relRepeat => exact ⟨_, rfl⟩
        | relUp =>
            rcases semaUp_spec hinv.queues (.ofLock l) with ⟨-, hk, -⟩ | ⟨hv, -⟩
            · refine ⟨(k.raised (.ofLock l)).setPc (k.raised (.ofLock l)).cur .user, ?_⟩
              change lockStep k l .relUp = _
              rw [lockStep, hk]
              rfl
            · exact absurd (howns (by decide)).2 hv

end Steps

theorem booted_init : scheduler.init (booted 0 1 2 (fun _ => 1)) :=
  ⟨0, 1, 2, fun _ => 1, by decide, by decide, by decide,
    threadInit_eq _ (by decide) (by decide)⟩

private theorem booted_owner (main init idle : Tid) (value : Nat → Nat) (l : LockId) :
    Owner (booted main init idle value) l none := by
  refine ⟨rfl, rfl, fun t _ => ⟨?_, Or.inl (place_user ?_)⟩⟩
  · simp [booted, Kernel.started, Kernel.addMain, blank]
  · simp [booted, Kernel.started, Kernel.addMain, blank]

theorem Reachable.owner {l : LockId} {k : Kernel}
    (h : (scheduler.restrict (shallow l)).Reachable k) : ∃ o, Owner k l o := by
  refine h.invariant_of (P := fun k => ∃ o, Owner k l o) (Q := Inv)
    (fun _ hr => Reachable.inv hr.of_restrict) ?_ ?_
  · rintro k₀ ⟨main, init, idle, value, -, hii, hmd, hk⟩
    rw [threadInit_eq value hii hmd, Except.ok.injEq] at hk
    exact hk ▸ ⟨none, booted_owner main init idle value l⟩
  · rintro k₀ e k₁ hinv ⟨o, ho⟩ ⟨hsh, he, hk⟩
    exact ho.effect hinv (hinv.effect he hk).2 hsh

/-- From the `sema_down` that succeeds to the matching `sema_up`. -/
def Kernel.inside (k : Kernel) (l : LockId) (t : Tid) : Prop :=
  0 < k.depth t l ∨ k.place l t = some .acqHolder ∨ k.place l t = some .acqAssert ∨
    k.place l t = some .acqRepeat ∨ k.place l t = some .relRepeat ∨ k.place l t = some .relUp

theorem Owns.inside {k : Kernel} {l : LockId} {t : Tid}
    (h : Owns t (k.place l t) (k.lock l) (k.depth t l)) : k.inside l t := by
  rw [Owns.eq_def] at h
  rw [Kernel.inside]
  split at h
  · exact Or.inl h.2
  · exact Or.inl h.2
  · exact h.elim
  all_goals first
    | (left; omega)
    | simp_all

private theorem Owns.lock_eq {t : Tid} {place : Option LockPhase} {lock : Lock} {d : Nat}
    (h : Owns t place lock d) (hd : 0 < d) : lock = ⟨some t, d⟩ := by
  rw [Owns.eq_def] at h
  split at h
  · exact h.1
  · exact h.1
  · exact h.elim
  all_goals first
    | exact h.1
    | omega
    | (rw [h.2]; exact h.1)

private theorem Owner.inside_iff {k : Kernel} {l : LockId} {o : Option Tid} (h : Owner k l o)
    {t : Tid} (ht : t ∈ k.tasks) : k.inside l t ↔ o = some t := by
  constructor
  · rintro (hd | hp | hp | hp | hp | hp)
    · exact h.eq_some_of_depth ht hd
    all_goals exact h.eq_some_of_place ht hp (by decide)
  · rintro rfl
    exact h.2.2.1.inside

private theorem Owner.value_iff {k : Kernel} {l : LockId} {o : Option Tid} (h : Owner k l o) :
    (k.sema (.ofLock l)).value = if o.isSome then 0 else 1 := by
  cases o with
  | none => exact h.1
  | some t => exact h.1

/-- Mutual exclusion and the fields of a lock in every run in which no thread nests it `2 ^ 32`
deep. -/
theorem lock_fields_and_exclusion (l : LockId) {k : Kernel}
    (h : (scheduler.restrict (shallow l)).Reachable k) :
    (∀ t ∈ k.tasks, ∀ u ∈ k.tasks, k.inside l t → k.inside l u → t = u) ∧
    (∀ t ∈ k.tasks, 0 < k.depth t l → k.lock l = ⟨some t, k.depth t l⟩) ∧
    ((∃ t ∈ k.tasks, k.inside l t) → (k.sema (.ofLock l)).value = 0) ∧
    ((¬ ∃ t ∈ k.tasks, k.inside l t) → (k.sema (.ofLock l)).value = 1) ∧
    ∀ e, Enabled k e → (e = .lockAcquire l ∨ e = .lockRelease l ∨
      e = .resume ∧ (k.place l k.cur).isSome = true) → ∃ k', step k e = .ok k' := by
  obtain ⟨o, ho⟩ := Reachable.owner h
  have hinv := Reachable.inv h.of_restrict
  refine ⟨?_, ?_, ?_, ?_, fun e he huse => ho.step_ok hinv he huse⟩
  · intro t ht u hu hit hiu
    have h₁ := (ho.inside_iff ht).mp hit
    have h₂ := (ho.inside_iff hu).mp hiu
    rw [h₁, Option.some.injEq] at h₂
    exact h₂
  · intro t ht hd
    have h₁ := ho.eq_some_of_depth ht hd
    subst o
    exact ho.2.2.1.lock_eq hd
  · rintro ⟨t, ht, hi⟩
    rw [ho.value_iff, (ho.inside_iff ht).mp hi]
    rfl
  · intro hno
    cases o with
    | none => exact ho.1
    | some t => exact absurd ⟨t, ho.2.1, (ho.inside_iff ho.2.1).mpr rfl⟩ hno

/-- The first thread has taken the unit and not yet written `holder`. -/
theorem lock_fields_and_exclusion_taken :
    ∃ k, run (booted 0 1 2 (fun _ => 1)) [.lockAcquire 0, .resume] = some k ∧
      k.lock 0 = ⟨none, 0⟩ ∧ (k.sema (.ofLock 0)).value = 0 ∧
      (∀ u ∈ k.tasks, k.inside 0 u → u = 0) ∧ ∃ k', step k .resume = .ok k' := by
  let k₁ := (booted 0 1 2 (fun _ => 1)).setPc 0 (.lockOp 0 .acqDown)
  have hr₁ : (scheduler.restrict (shallow 0)).Reachable k₁ :=
    .step (e := .lockAcquire 0) (.init booted_init) ⟨fun _ => by decide, by decide, rfl⟩
  have hval : (run k₁ [.resume]).map
      (fun k => (k.cur, k.pc 0, k.tasks, k.lock 0)) =
        some (0, Pc.lockOp 0 .acqHolder, [1, 0, 2], ⟨none, 0⟩) := by decide
  obtain ⟨k, hk, hv⟩ := Option.map_eq_some_iff.mp hval
  simp only [Prod.mk.injEq] at hv
  obtain ⟨hcur, hpc, htasks, hlock⟩ := hv
  have hr : (scheduler.restrict (shallow 0)).Reachable k := by
    refine Reachable.run hr₁ (fun hm he hs => ⟨?_, he, hs⟩) hk
    rw [List.mem_singleton.mp hm]
    trivial
  have hmem : 0 ∈ k.tasks := by rw [htasks]; decide
  have hplace : k.place 0 0 = some .acqHolder := place_lockOp hpc
  have hin : k.inside 0 0 := Or.inr (Or.inl hplace)
  have h := lock_fields_and_exclusion 0 hr
  refine ⟨k, hk, hlock, h.2.2.1 ⟨0, hmem, hin⟩, fun u hu hi => h.1 u hu 0 hmem hi hin, ?_⟩
  apply h.2.2.2.2 .resume
  · change k.pc k.cur ≠ .user
    rw [hcur, hpc]
    simp
  · exact Or.inr (Or.inr ⟨rfl, by rw [hcur, hplace]; rfl⟩)

private theorem nest_once {k : Kernel} {n : Nat} (h : scheduler.Reachable k) (hcur : k.cur = 0)
    (hidle : k.idle = 2) (hpc : k.pc 0 = .user) (hlock : k.lock 0 = ⟨some 0, n % 2 ^ 32⟩)
    (hdepth : k.depth 0 0 = n) :
    ∃ k', scheduler.Reachable k' ∧ k'.cur = 0 ∧ k'.idle = 2 ∧ k'.pc 0 = .user ∧
      k'.lock 0 = ⟨some 0, (n + 1) % 2 ^ 32⟩ ∧ k'.depth 0 0 = n + 1 := by
  let k₁ := k.setPc 0 (.lockOp 0 .acqAgain)
  let k₂ := ((k₁.setLock 0 { k₁.lock 0 with
    holderRepeatNr := ((k₁.lock 0).holderRepeatNr + 1) % 2 ^ 32 }).setDepth 0 0
      (k₁.depth 0 0 + 1)).setPc 0 .user
  have hpc₁ : k₁.pc 0 = .lockOp 0 .acqAgain := by simp [k₁, Kernel.setPc]
  have hs₁ : step k (.lockAcquire 0) = .ok k₁ := by
    change lockAcquire k 0 = _
    rw [lockAcquire, if_neg (by rw [hlock, hcur]; simp), hcur]
    rfl
  have hs₂ : step k₁ .resume = .ok k₂ := by
    change resume k₁ = _
    have hc : k₁.cur = 0 := hcur
    rw [resume, hc, hpc₁]
    simp only [lockStep, hc]
    rfl
  have hr₁ : scheduler.Reachable k₁ :=
    h.step (e := .lockAcquire 0) ⟨⟨by rw [hcur]; exact hpc, by rw [hcur, hidle]; decide⟩, hs₁⟩
  have hr₂ : scheduler.Reachable k₂ := by
    refine hr₁.step (e := .resume) ⟨?_, hs₂⟩
    change k₁.pc k₁.cur ≠ .user
    have hc : k₁.cur = 0 := hcur
    rw [hc, hpc₁]
    simp
  refine ⟨k₂, hr₂, hcur, hidle, by simp [k₂, Kernel.setPc], ?_, ?_⟩
  · have hl : k₂.lock 0 = ⟨(k.lock 0).holder, ((k.lock 0).holderRepeatNr + 1) % 2 ^ 32⟩ := by
      simp [k₂, k₁, Kernel.setDepth, Kernel.setPc, Kernel.setLock]
    rw [hl, hlock]
    simp
  · have hd : k₂.depth 0 0 = k.depth 0 0 + 1 := by
      simp [k₂, k₁, Kernel.setDepth, Kernel.setPc, Kernel.setLock]
    rw [hd, hdepth]

private theorem nest_many (n : Nat) :
    ∃ k, scheduler.Reachable k ∧ k.cur = 0 ∧ k.idle = 2 ∧ k.pc 0 = .user ∧
      k.lock 0 = ⟨some 0, (n + 1) % 2 ^ 32⟩ ∧ k.depth 0 0 = n + 1 := by
  induction n with
  | zero =>
      have hval : (run (booted 0 1 2 (fun _ => 1))
          [.lockAcquire 0, .resume, .resume, .resume, .resume]).map
          (fun k => (k.cur, k.idle, k.pc 0, k.lock 0, k.depth 0 0)) =
          some (0, 2, .user, ⟨some 0, 1⟩, 1) := by decide
      obtain ⟨k, hk, hv⟩ := Option.map_eq_some_iff.mp hval
      simp only [Prod.mk.injEq] at hv
      refine ⟨k, ?_, hv.1, hv.2.1, hv.2.2.1, hv.2.2.2.1, hv.2.2.2.2⟩
      exact Reachable.run (.init booted_init) (fun _ he hs => ⟨he, hs⟩) hk
  | succ n ih =>
      obtain ⟨k, hr, hcur, hidle, hpc, hlock, hdepth⟩ := ih
      exact nest_once hr hcur hidle hpc hlock hdepth

/-- After `2 ^ 32` nested calls the counter has wrapped to zero. -/
theorem lock_depth_wraps :
    ¬ ∀ k, scheduler.Reachable k → ∀ t ∈ k.tasks, ∀ l, 0 < k.depth t l →
      (k.lock l).holder = some t ∧ (k.lock l).holderRepeatNr = k.depth t l := by
  intro hall
  obtain ⟨k, hr, hcur, -, -, hlock, hdepth⟩ := nest_many (2 ^ 32 - 1)
  have hmem : 0 ∈ k.tasks := hcur ▸ (Reachable.inv hr).queues.cur_mem
  have h := (hall k hr 0 hmem 0 (by rw [hdepth]; decide)).2
  rw [hlock, hdepth] at h
  exact absurd h (by decide)

end Aitos.Sched
