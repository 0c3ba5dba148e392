import Aitos.Drivers.Ioqueue

/-!
# Every run of a character queue

Between two places where a thread blocks, a call of `ioq_getchar` or `ioq_putchar` does one of a
few things; `loop_eq` and `lockRelease_eq` say which.  The thread that holds the queue's lock is
always inside `ioq_wait`, so the fields `producer` and `consumer` are free when a thread gets it.
-/

namespace Aitos.Drivers

open Framework Sched

namespace Ioq

variable {s : Ioq} {t u : Tid} {op : Op} {side : Side}

/-- What `thread_unblock` leaves. -/
def unblocked (s : Ioq) (t : Tid) : Ioq := { s with ready := t :: s.ready }.setStatus t .ready

/-- `t` sleeps in `lock_acquire`. -/
def asleep (s : Ioq) (t : Tid) (op : Op) : Ioq :=
  ({ s with sema := { s.sema with waiters := s.sema.waiters ++ [t] } }.setPlace t
    (.lockWait op)).threadBlock t

/-- `t` has got the lock and sleeps in `ioq_wait`. -/
def waiting (s : Ioq) (t : Tid) (op : Op) : Ioq :=
  (({ s with sema := { s.sema with value := 0 }, lock := ⟨some t, 1⟩ }.setWaiter op.side
    (some t)).setPlace t (.ioqWait op)).threadBlock t

/-- The waiter on a side, if there is one, is awake. -/
def woken (s : Ioq) (side : Side) : Ioq :=
  match s.waiter side with
  | none => s
  | some u => (s.unblocked u).setWaiter side none

/-- The lock is free and the first thread that waits for it is awake. -/
def released (s : Ioq) : Ioq :=
  match s.sema.waiters with
  | [] => { s with lock := ⟨none, 0⟩, sema := ⟨1, []⟩ }
  | u :: rest => { s with lock := ⟨none, 0⟩, sema := ⟨1, rest⟩ }.unblocked u

/-- Who holds the lock.  A thread that waits in `ioq_wait` has its own field set until it is
woken. -/
def Held (s : Ioq) : Option Tid → Prop
  | none => s.sema.value = 1 ∧ s.lock = ⟨none, 0⟩ ∧ (∀ t op, s.place t ≠ .ioqWait op) ∧
      ∀ side, s.waiter side = none
  | some t => s.sema.value = 0 ∧ s.lock = ⟨some t, 1⟩ ∧ ∃ op, s.place t = .ioqWait op ∧
      (∀ u op', u ≠ t → s.place u ≠ .ioqWait op') ∧ s.waiter op.side.other = none ∧
      s.waiter op.side = if s.status t = .blocked then some t else none

structure Inv (s : Ioq) : Prop where
  inside : s.ring.Inside bufsize
  order : s.stored = s.got ++ s.ring.contents bufsize
  readyNodup : s.ready.Nodup
  ready : ∀ t ∈ s.ready, s.status t = .ready
  running : ∀ t, s.cur = some t → s.status t = .running
  waitersNodup : s.sema.waiters.Nodup
  waiters : ∀ t ∈ s.sema.waiters, s.status t = .blocked ∧ ∃ op, s.place t = .lockWait op
  held : ∃ o, s.Held o

theorem check_bind {α : Type} (f : Failure) {c : Prop} [Decidable c] (k : Except Failure α)
    (h : c) : (check f c >>= fun _ => k) = k := by
  rw [check, if_pos h]
  rfl

private theorem Inv.notMem_ready (h : Inv s) (ht : s.status t = .blocked) : t ∉ s.ready := by
  intro hm
  rw [h.ready t hm] at ht
  cases ht

private theorem Inv.cur_notMem_waiters (h : Inv s) (hc : s.cur = some t) : t ∉ s.sema.waiters := by
  intro hm
  have hb := (h.waiters t hm).1
  rw [h.running t hc] at hb
  cases hb

theorem threadUnblock_eq (hb : s.status t = .blocked) (hr : t ∉ s.ready) :
    s.threadUnblock t = .ok (s.unblocked t) := by
  rw [threadUnblock, check_bind _ _ (by rw [hb]; rfl), if_pos (by rw [hb]; decide),
    check_bind _ _ hr]
  rfl

theorem Inv.semaDown_eq (h : Inv s) (hc : s.cur = some t) :
    s.semaDown t op = .ok (if s.sema.value = 0 then s.asleep t op else s.waiting t op) := by
  rw [semaDown]
  split
  · rw [check_bind _ _ (h.cur_notMem_waiters hc)]
    rfl
  · obtain ⟨o, ho⟩ := h.held
    cases o with
    | some u => exact absurd ho.1 ‹_›
    | none =>
        obtain ⟨hv, hl, -, hw⟩ := ho
        rw [check_bind _ _ (by rw [hv]), check_bind _ _ (by rw [hl]), ioqWait,
          check_bind _ _ (hw _)]
        simp [waiting, setWaiter, setPlace, hv]
        rfl

theorem Side.eq_or_other (side side' : Side) : side' = side ∨ side' = side.other := by
  cases side <;> cases side' <;> decide

theorem Side.other_ne (side : Side) : side.other ≠ side := by
  cases side <;> decide

/-- A thread recorded in one of the fields sleeps in `ioq_wait` on that side and holds the
lock. -/
private theorem Inv.waiter_spec (h : Inv s) (hw : s.waiter side = some u) :
    s.status u = .blocked ∧ s.Held (some u) ∧ ∃ op, s.place u = .ioqWait op ∧ op.side = side := by
  obtain ⟨o, ho⟩ := h.held
  cases o with
  | none =>
      rw [ho.2.2.2 side] at hw
      cases hw
  | some v =>
      obtain ⟨-, -, op, hp, -, hother, hown⟩ := id ho
      rcases Side.eq_or_other op.side side with rfl | rfl
      · rw [hown] at hw
        split at hw
        · cases hw
          exact ⟨‹_›, ho, op, hp, rfl⟩
        · cases hw
      · rw [hother] at hw
        cases hw

/-- What a call does from a test of its loop on. -/
def looped (s : Ioq) (t : Tid) (op : Op) : Ioq :=
  if s.Stuck op.side then
    if s.sema.value = 0 then s.asleep t op else s.waiting t op
  else ((s.moved op).woken op.side.other).setPlace t .outside

theorem moved_frame (s : Ioq) (op : Op) : (s.moved op).waiter = s.waiter ∧
    (s.moved op).status = s.status ∧ (s.moved op).ready = s.ready ∧
    (s.moved op).sema = s.sema ∧ (s.moved op).lock = s.lock ∧ (s.moved op).place = s.place ∧
    (s.moved op).cur = s.cur := by
  cases op <;> exact ⟨rfl, rfl, rfl, rfl, rfl, rfl, rfl⟩

private theorem Inv.loop_eq (h : Inv s) (hc : s.cur = some t) (hp : s.place t = .outside) :
    s.loop t op = .ok (s.looped t op) := by
  rw [loop, looped]
  split
  · -- the caller does not hold the lock, or it would be inside `ioq_wait`
    have hholder : s.lock.holder ≠ some t := by
      obtain ⟨o, ho⟩ := h.held
      cases o with
      | none => simp [ho.2.1]
      | some v =>
          obtain ⟨-, hl, op', hv, -⟩ := ho
          rw [hl]
          intro he
          cases he
          rw [hp] at hv
          cases hv
    rw [acquireAndWait, if_pos hholder]
    exact h.semaDown_eq hc
  · obtain ⟨hwait, hstat, hready, -⟩ := moved_frame s op
    have hwake : (s.moved op).wakeWaiter op.side.other =
        .ok ((s.moved op).woken op.side.other) := by
      rw [woken, wakeWaiter, wakeup]
      cases hw : (s.moved op).waiter op.side.other with
      | none => rfl
      | some u =>
          rw [hwait] at hw
          have hb := (h.waiter_spec hw).1
          rw [if_pos (by simp)]
          simp only
          rw [threadUnblock_eq (by rw [hstat]; exact hb)
            (by rw [hready]; exact h.notMem_ready hb)]
          rfl
    rw [transfer, hwake]
    rfl

theorem Inv.lockRelease_eq (h : Inv s) (hp : s.place t = .ioqWait op) :
    (s.setPlace t .outside).lockRelease t = .ok ((s.setPlace t .outside).released) := by
  obtain ⟨o, ho⟩ := h.held
  have hheld : s.Held (some t) := by
    cases o with
    | none => exact absurd hp (ho.2.2.1 t op)
    | some v =>
        by_cases hv : t = v
        · rw [hv]
          exact ho
        · obtain ⟨-, -, op', -, hone, -⟩ := ho
          exact absurd hp (hone t op hv)
  obtain ⟨hv, hl, -⟩ := hheld
  rw [lockRelease, check_bind _ _ (by simp [setPlace, hl]),
    if_neg (by simp [setPlace, hl]), check_bind _ _ (by simp [setPlace, hl]), semaUp,
    check_bind _ _ (by simpa [setPlace] using hv), released]
  cases hw : s.sema.waiters with
  | nil =>
      simp only [setPlace, hw, pure_bind, hv, check]
      rfl
  | cons u rest =>
      have hu := (h.waiters u (by rw [hw]; exact List.mem_cons_self)).1
      simp only [setPlace, hw]
      rw [threadUnblock_eq (by exact hu) (by exact h.notMem_ready hu)]
      simp only [unblocked, setStatus, hv, check, bind, Except.bind]
      rfl

section Preserved

private theorem Inv.ne_of_ready (h : Inv s) (hc : s.cur = some t) (hu : u ∈ s.ready) : u ≠ t := by
  intro he
  have hr := h.ready u hu
  rw [he, h.running t hc] at hr
  cases hr

/-- The lock's owner stays the same as long as it does not move and neither falls asleep nor
wakes up. -/
theorem Held.congr {s' : Ioq} {o : Option Tid} (h : s.Held o) (hv : s'.sema.value = s.sema.value)
    (hl : s'.lock = s.lock) (hw : s'.waiter = s.waiter)
    (hp : ∀ u op, s'.place u = .ioqWait op ↔ s.place u = .ioqWait op)
    (hs : ∀ u op, s.place u = .ioqWait op → (s'.status u = .blocked ↔ s.status u = .blocked)) :
    s'.Held o := by
  cases o with
  | none =>
      obtain ⟨h₁, h₂, h₃, h₄⟩ := h
      refine ⟨hv.trans h₁, hl.trans h₂, ?_, fun side => by rw [hw]; exact h₄ side⟩
      exact fun u op hu => h₃ u op ((hp u op).mp hu)
  | some v =>
      obtain ⟨h₁, h₂, op, hop, hone, hother, hown⟩ := h
      refine ⟨hv.trans h₁, hl.trans h₂, op, (hp v op).mpr hop, ?_, by rw [hw]; exact hother, ?_⟩
      · exact fun u op' hu hpu => hone u op' hu ((hp u op').mp hpu)
      · rw [hw, hown]
        simp only [hs v op hop]

theorem Inv.asleep (h : Inv s) (hc : s.cur = some t) (hp : s.place t = .outside) :
    Inv (s.asleep t op) := by
  obtain ⟨o, ho⟩ := h.held
  have hplace : ∀ u, u ≠ t → (s.asleep t op).place u = s.place u :=
    fun u hu => Function.update_of_ne hu _ _
  have hstat : ∀ u, u ≠ t → (s.asleep t op).status u = s.status u :=
    fun u hu => Function.update_of_ne hu _ _
  have hself : (s.asleep t op).place t = .lockWait op := Function.update_self _ _ _
  refine ⟨h.inside, h.order, h.readyNodup, ?_, by simp [Ioq.asleep, threadBlock], ?_, ?_, o, ?_⟩
  · intro u hu
    rw [hstat u (h.ne_of_ready hc hu)]
    exact h.ready u hu
  · apply List.Nodup.append h.waitersNodup (List.nodup_singleton t)
    exact List.disjoint_singleton.mpr (h.cur_notMem_waiters hc)
  · intro u hu
    rcases List.mem_append.mp hu with hu | hu
    · have hne : u ≠ t := fun he => h.cur_notMem_waiters hc (he ▸ hu)
      rw [hstat u hne, hplace u hne]
      exact h.waiters u hu
    · rw [List.mem_singleton.mp hu]
      exact ⟨Function.update_self _ _ _, op, hself⟩
  · refine ho.congr rfl rfl rfl ?_ ?_
    · intro u op'
      by_cases hu : u = t
      · simp [hu, hself, hp]
      · rw [hplace u hu]
    · intro u op' hu
      rw [hstat u]
      rintro rfl
      rw [hp] at hu
      cases hu

theorem Inv.waiting (h : Inv s) (hc : s.cur = some t) (hv : s.sema.value ≠ 0) :
    Inv (s.waiting t op) := by
  obtain ⟨o, ho⟩ := h.held
  have hplace : ∀ u, u ≠ t → (s.waiting t op).place u = s.place u :=
    fun u hu => Function.update_of_ne hu _ _
  have hstat : ∀ u, u ≠ t → (s.waiting t op).status u = s.status u :=
    fun u hu => Function.update_of_ne hu _ _
  have hblocked : (s.waiting t op).status t = .blocked := Function.update_self _ _ _
  cases o with
  | some v => exact absurd ho.1 hv
  | none =>
      obtain ⟨-, -, hnone, hw⟩ := ho
      refine ⟨h.inside, h.order, h.readyNodup, ?_, by simp [Ioq.waiting, threadBlock],
        h.waitersNodup, ?_, some t, rfl, rfl, op, Function.update_self _ _ _, ?_, ?_, ?_⟩
      · intro u hu
        rw [hstat u (h.ne_of_ready hc hu)]
        exact h.ready u hu
      · intro u hu
        have hne : u ≠ t := fun he => h.cur_notMem_waiters hc (he ▸ hu)
        rw [hstat u hne, hplace u hne]
        exact h.waiters u hu
      · intro u op' hu
        rw [hplace u hu]
        exact hnone u op'
      · exact (Function.update_of_ne (Side.other_ne _) _ _).trans (hw _)
      · rw [hblocked, if_pos rfl]
        exact Function.update_self _ _ _

theorem Inv.moved (h : Inv s) (hs : ¬ s.Stuck op.side) : Inv (s.moved op) := by
  cases op with
  | getchar =>
      refine ⟨h.inside.pop, ?_, h.readyNodup, h.ready, h.running, h.waitersNodup, h.waiters, h.held⟩
      change s.stored = (s.got ++ [s.ring.buf s.ring.tail]) ++ (s.ring.pop bufsize).contents bufsize
      rw [List.append_assoc, List.singleton_append, ← h.inside.contents_pop hs]
      exact h.order
  | putchar target =>
      refine ⟨h.inside.push target, ?_, h.readyNodup, h.ready, h.running, h.waitersNodup, h.waiters,
        h.held⟩
      change s.stored ++ [target] = s.got ++ (s.ring.push bufsize target).contents bufsize
      rw [h.inside.contents_push hs, ← List.append_assoc, ← h.order]

theorem Inv.woken (h : Inv s) (side : Side) : Inv (s.woken side) := by
  rw [Ioq.woken]
  cases hw : s.waiter side with
  | none => exact h
  | some u =>
      obtain ⟨hb, ⟨hv, hl, op', hp', hone, hother, hown⟩, op, hp, hside⟩ := h.waiter_spec hw
      have hop : op' = op := by
        rw [hp'] at hp
        exact Place.ioqWait.inj hp
      subst op'
      have hstat : ∀ v, v ≠ u → ((s.unblocked u).setWaiter side none).status v = s.status v :=
        fun v hv => Function.update_of_ne hv _ _
      have hready : ((s.unblocked u).setWaiter side none).status u = .ready :=
        Function.update_self _ _ _
      refine ⟨h.inside, h.order, ?_, ?_, ?_, h.waitersNodup, ?_, some u, hv, hl, op, hp, hone, ?_, ?_⟩
      · exact List.nodup_cons.mpr ⟨h.notMem_ready hb, h.readyNodup⟩
      · intro v hv
        rcases List.mem_cons.mp hv with rfl | hv
        · exact hready
        · rw [hstat v (fun he => h.notMem_ready hb (he ▸ hv))]
          exact h.ready v hv
      · intro v hv
        rw [hstat v, h.running v hv]
        rintro rfl
        rw [h.running v hv] at hb
        cases hb
      · intro v hv
        have hvw := h.waiters v hv
        rw [hstat v]
        · exact hvw
        · rintro rfl
          obtain ⟨-, op'', hp''⟩ := hvw
          rw [hp] at hp''
          cases hp''
      · rw [← hside]
        exact (Function.update_of_ne (Side.other_ne _) _ _).trans hother
      · rw [hready, if_neg (by decide), ← hside]
        exact Function.update_self _ _ _

theorem Inv.released (h : Inv s) (hc : s.cur = some t) (hp : s.place t = .ioqWait op) :
    Inv (s.setPlace t .outside).released := by
  have hrun := h.running t hc
  obtain ⟨o, ho⟩ := h.held
  cases o with
  | none => exact absurd hp (ho.2.2.1 t op)
  | some v =>
      obtain ⟨-, -, op', hp', hone, hother, hown⟩ := ho
      have hvt : t = v := by
        by_contra hne
        exact hone t op hne hp
      subst hvt
      rw [hrun, if_neg (by decide)] at hown
      have hwaiter : ∀ side, s.waiter side = none := by
        intro side
        rcases Side.eq_or_other op'.side side with rfl | rfl
        · exact hown
        · exact hother
      have hplace : ∀ u op, (s.setPlace t .outside).place u ≠ .ioqWait op := by
        intro u op''
        change Function.update s.place t .outside u ≠ .ioqWait op''
        by_cases hu : u = t
        · simp [hu]
        · rw [Function.update_of_ne hu]
          exact hone u op'' hu
      have hkeep : ∀ u ∈ s.sema.waiters, ∃ op, (s.setPlace t .outside).place u = .lockWait op := by
        intro u hu
        obtain ⟨op'', hop⟩ := (h.waiters u hu).2
        refine ⟨op'', (Function.update_of_ne ?_ _ _).trans hop⟩
        intro he
        exact h.cur_notMem_waiters hc (he ▸ hu)
      rw [Ioq.released]
      have hsema : (s.setPlace t .outside).sema = s.sema := rfl
      rw [hsema]
      cases hw : s.sema.waiters with
      | nil =>
          exact ⟨h.inside, h.order, h.readyNodup, h.ready, h.running, List.nodup_nil, by simp, none,
            rfl, rfl, hplace, hwaiter⟩
      | cons u rest =>
          have hmem : u ∈ s.sema.waiters := by rw [hw]; exact List.mem_cons_self
          have hnodup := h.waitersNodup
          rw [hw, List.nodup_cons] at hnodup
          have hb := (h.waiters u hmem).1
          refine ⟨h.inside, h.order, List.nodup_cons.mpr ⟨h.notMem_ready hb, h.readyNodup⟩, ?_, ?_,
            hnodup.2, ?_, none, rfl, rfl, hplace, hwaiter⟩
          · intro w hw'
            rcases List.mem_cons.mp hw' with rfl | hw'
            · exact Function.update_self _ _ _
            · refine (Function.update_of_ne ?_ _ _).trans (h.ready w hw')
              exact fun he => h.notMem_ready hb (he ▸ hw')
          · intro w hw'
            refine (Function.update_of_ne ?_ _ _).trans (h.running w hw')
            rintro rfl
            rw [h.running w hw'] at hb
            cases hb
          · intro w hw'
            have hmem' : w ∈ s.sema.waiters := by rw [hw]; exact List.mem_cons_of_mem _ hw'
            refine ⟨(Function.update_of_ne ?_ _ _).trans (h.waiters w hmem').1, hkeep w hmem'⟩
            rintro rfl
            exact hnodup.1 hw'

private theorem Inv.leaveLockWait (h : Inv s) (hc : s.cur = some t)
    (hp : s.place t = .lockWait op) : Inv (s.setPlace t .outside) := by
  have hplace : ∀ u, u ≠ t → (s.setPlace t .outside).place u = s.place u :=
    fun u hu => Function.update_of_ne hu _ _
  obtain ⟨o, ho⟩ := h.held
  refine ⟨h.inside, h.order, h.readyNodup, h.ready, h.running, h.waitersNodup, ?_, o, ?_⟩
  · intro u hu
    have hne : u ≠ t := fun he => h.cur_notMem_waiters hc (he ▸ hu)
    rw [hplace u hne]
    exact h.waiters u hu
  · refine ho.congr rfl rfl rfl ?_ (fun _ _ _ => Iff.rfl)
    intro u op'
    by_cases hu : u = t
    · have hself : (s.setPlace t .outside).place t = .outside := Function.update_self _ _ _
      simp [hu, hself, hp]
    · rw [hplace u hu]

private theorem woken_place (s : Ioq) (side : Side) : (s.woken side).place = s.place := by
  rw [Ioq.woken]
  split <;> rfl

theorem released_frame (s : Ioq) : s.released.place = s.place ∧ s.released.cur = s.cur ∧
    s.released.ring = s.ring ∧ s.released.waiter = s.waiter := by
  rw [Ioq.released]
  split <;> exact ⟨rfl, rfl, rfl, rfl⟩

private theorem setPlace_self (h : s.place t = .outside) : s.setPlace t .outside = s := by
  rw [setPlace, ← h, Function.update_eq_self]

theorem Inv.looped (h : Inv s) (hc : s.cur = some t) (hp : s.place t = .outside) :
    Inv (s.looped t op) := by
  rw [Ioq.looped]
  split
  · split
    · exact h.asleep hc hp
    · exact h.waiting hc ‹_›
  · have hout : ((s.moved op).woken op.side.other).place t = .outside := by
      obtain ⟨-, -, -, -, -, hplace, -⟩ := moved_frame s op
      rw [woken_place, hplace, hp]
    rw [setPlace_self hout]
    exact (h.moved ‹_›).woken _

theorem Inv.dispatch (h : Inv s) (hr : t ∈ s.ready) :
    Inv ({ s with ready := s.ready.erase t, cur := some t }.setStatus t .running) := by
  have hstat : ∀ u, u ≠ t → Function.update s.status t .running u = s.status u :=
    fun u hu => Function.update_of_ne hu _ _
  have hready := h.ready t hr
  obtain ⟨o, ho⟩ := h.held
  refine ⟨h.inside, h.order, h.readyNodup.erase t, ?_, ?_, h.waitersNodup, ?_, o, ?_⟩
  · intro u hu
    obtain ⟨hne, hmem⟩ := h.readyNodup.mem_erase_iff.mp hu
    exact (hstat u hne).trans (h.ready u hmem)
  · intro u hu
    cases hu
    exact Function.update_self _ _ _
  · intro u hu
    refine ⟨(hstat u ?_).trans (h.waiters u hu).1, (h.waiters u hu).2⟩
    rintro rfl
    rw [(h.waiters u hu).1] at hready
    cases hready
  · refine ho.congr rfl rfl rfl (fun _ _ => Iff.rfl) ?_
    intro u op _
    change Function.update s.status t .running u = .blocked ↔ s.status u = .blocked
    by_cases hu : u = t
    · simp [hu, hready]
    · rw [hstat u hu]

theorem Inv.preempt (h : Inv s) (hc : s.cur = some t) :
    Inv ({ s with ready := s.ready ++ [t], cur := none }.setStatus t .ready) := by
  have hstat : ∀ u, u ≠ t → Function.update s.status t .ready u = s.status u :=
    fun u hu => Function.update_of_ne hu _ _
  have hrun := h.running t hc
  obtain ⟨o, ho⟩ := h.held
  refine ⟨h.inside, h.order, ?_, ?_, by simp [setStatus], h.waitersNodup, ?_, o, ?_⟩
  · apply List.Nodup.append h.readyNodup (List.nodup_singleton t)
    exact List.disjoint_singleton.mpr (fun hm => h.ne_of_ready hc hm rfl)
  · intro u hu
    rcases List.mem_append.mp hu with hu | hu
    · exact (hstat u (h.ne_of_ready hc hu)).trans (h.ready u hu)
    · rw [List.mem_singleton.mp hu]
      exact Function.update_self _ _ _
  · intro u hu
    refine ⟨(hstat u ?_).trans (h.waiters u hu).1, (h.waiters u hu).2⟩
    rintro rfl
    exact h.cur_notMem_waiters hc hu
  · refine ho.congr rfl rfl rfl (fun _ _ => Iff.rfl) ?_
    intro u op _
    change Function.update s.status t .ready u = .blocked ↔ s.status u = .blocked
    by_cases hu : u = t
    · simp [hu, hrun]
    · rw [hstat u hu]

end Preserved

/-- Everything a step can do. -/
inductive Effect (s : Ioq) : IoqEvent → Ioq → Prop
  | dispatch (t : Tid) : t ∈ s.ready →
      Effect s (.dispatch t)
        ({ s with ready := s.ready.erase t, cur := some t }.setStatus t .running)
  | preempt (t : Tid) : s.cur = some t →
      Effect s .preempt ({ s with ready := s.ready ++ [t], cur := none }.setStatus t .ready)
  | call (t : Tid) (op : Op) : s.cur = some t → s.place t = .outside →
      Effect s (.call op) (s.looped t op)
  | lockAwake (t : Tid) (op : Op) : s.cur = some t → s.place t = .lockWait op →
      Effect s .resume (if s.sema.value = 0 then (s.setPlace t .outside).asleep t op
        else (s.setPlace t .outside).waiting t op)
  | ioqAwake (t : Tid) (op : Op) : s.cur = some t → s.place t = .ioqWait op →
      Effect s .resume ((s.setPlace t .outside).released.looped t op)

theorem Inv.step_ok (h : Inv s) {e : IoqEvent} (he : s.Enabled e) :
    ∃ s', s.step e = .ok s' ∧ Effect s e s' := by
  cases e with
  | dispatch t => exact ⟨_, rfl, .dispatch t he.2⟩
  | preempt =>
      obtain ⟨t, hc, -⟩ := he
      refine ⟨_, ?_, .preempt t hc⟩
      rw [step, Option.mem_def.mp hc]
      rfl
  | call op =>
      obtain ⟨t, hc, hp⟩ := he
      refine ⟨_, ?_, .call t op hc hp⟩
      rw [step, Option.mem_def.mp hc]
      exact h.loop_eq hc hp
  | resume =>
      obtain ⟨t, hc, hp⟩ := he
      have hstep : s.step .resume = s.resume t := by
        rw [step, Option.mem_def.mp hc]
      rw [hstep, resume]
      cases hplace : s.place t with
      | outside => exact absurd hplace hp
      | lockWait op =>
          refine ⟨_, ?_, .lockAwake t op hc hplace⟩
          exact (h.leaveLockWait hc hplace).semaDown_eq hc
      | ioqWait op =>
          refine ⟨_, ?_, .ioqAwake t op hc hplace⟩
          obtain ⟨hpl, hcur, -⟩ := released_frame (s.setPlace t .outside)
          have hinv := h.released hc hplace
          have hout : (s.setPlace t .outside).released.place t = .outside := by
            rw [hpl]
            exact Function.update_self _ _ _
          simp only
          rw [h.lockRelease_eq hplace]
          exact hinv.loop_eq (hcur.trans hc) hout

theorem Inv.effect (h : Inv s) {e : IoqEvent} {s' : Ioq} (he : Effect s e s') : Inv s' := by
  cases he with
  | dispatch t hr => exact h.dispatch hr
  | preempt t hc => exact h.preempt hc
  | call t op hc hp => exact h.looped hc hp
  | lockAwake t op hc hp =>
      have hinv := h.leaveLockWait hc hp
      split
      · exact hinv.asleep hc (Function.update_self _ _ _)
      · exact hinv.waiting hc ‹_›
  | ioqAwake t op hc hp =>
      obtain ⟨hpl, hcur, -⟩ := released_frame (s.setPlace t .outside)
      refine (h.released hc hp).looped (hcur.trans hc) ?_
      rw [hpl]
      exact Function.update_self _ _ _

theorem Inv.step_effect (h : Inv s) {e : IoqEvent} {s' : Ioq} (hs : ioqueue.step s e s') :
    Effect s e s' := by
  obtain ⟨he, hk⟩ := hs
  obtain ⟨s₁, hs₁, heff⟩ := h.step_ok he
  rw [hk, Except.ok.injEq] at hs₁
  rw [hs₁]
  exact heff

theorem inv_init (h : ioqueue.init s) : Inv s := by
  obtain ⟨hh, ht, hw, hl, hse, hc, hnd, hr, hp, hst, hg⟩ := h
  have hinside : s.ring.Inside bufsize := by
    refine ⟨?_, ?_⟩
    · rw [hh]
      decide
    · rw [ht]
      decide
  refine ⟨hinside, ?_, hnd, hr, by simp [hc], by simp [hse], by simp [hse], none, by rw [hse], hl,
    by simp [hp], hw⟩
  rw [hst, hg, List.nil_append]
  exact (hinside.contents_eq_nil.mpr (hh.trans ht.symm)).symm

theorem reachable_inv (h : ioqueue.Reachable s) : Inv s :=
  h.invariant (fun _ => inv_init) (fun _ _ _ hinv hs => hinv.effect (hinv.step_effect hs))

end Ioq

/-- Three threads and an empty queue. -/
def threeThreads : Ioq where
  ring := ⟨fun _ => 0, 0, 0⟩
  waiter := fun _ => none
  lock := ⟨none, 0⟩
  sema := ⟨1, []⟩
  cur := none
  ready := [0, 1, 2]
  status := fun _ => .ready
  place := fun _ => .outside
  stored := []
  got := []

theorem threeThreads_init : ioqueue.init threeThreads :=
  ⟨rfl, rfl, fun _ => rfl, rfl, rfl, rfl, by decide, fun _ _ => rfl, fun _ => rfl, rfl, rfl⟩

/-- The state after an event, if it can happen and trips no assertion. -/
def Ioq.next (s : Ioq) (e : IoqEvent) : Option Ioq :=
  if s.Enabled e then (s.step e).toOption else none

theorem Ioq.next_step {s s' : Ioq} {e : IoqEvent} (h : s.next e = some s') :
    ioqueue.step s e s' := by
  rw [Ioq.next] at h
  split at h
  · rename_i hen
    cases hs : s.step e with
    | error f => rw [hs] at h; cases h
    | ok s₁ =>
        rw [hs] at h
        cases h
        exact ⟨hen, hs⟩
  · cases h

/-- What has been read is a prefix of what has been stored, the rest is what the ring holds, and
no assertion of the calls, of the lock or of the wake-ups fails. -/
theorem ioqueue_fifo {s : Ioq} (h : ioqueue.Reachable s) :
    s.got <+: s.stored ∧ s.stored.length = s.got.length + s.ring.count bufsize ∧
      s.ring.count bufsize ≤ bufsize - 1 ∧ ∀ e, s.Enabled e → ∃ s', s.step e = .ok s' := by
  have hinv := Ioq.reachable_inv h
  refine ⟨⟨_, hinv.order.symm⟩, ?_, Nat.le_sub_one_of_lt hinv.inside.count_lt, ?_⟩
  · rw [hinv.order, List.length_append, RingBuffer.length_contents]
  · intro e he
    obtain ⟨s', hs, -⟩ := hinv.step_ok he
    exact ⟨s', hs⟩

/-- A consumer waits, is woken by a producer and gets the first of two characters. -/
theorem ioqueue_fifo_two_chars : ∃ s, ioqueue.Reachable s ∧ s.stored = [7, 9] ∧ s.got = [7] ∧
    s.got <+: s.stored ∧ s.stored.length = s.got.length + s.ring.count bufsize ∧
    ∃ s', s.step (.call .getchar) = .ok s' := by
  let es : List IoqEvent := [.dispatch 0, .call .getchar, .dispatch 1, .call (.putchar 7),
    .call (.putchar 9), .preempt, .dispatch 0, .resume]
  have hrun : (es.foldlM Ioq.next threeThreads).map
      (fun s => (s.stored, s.got, s.cur, s.place 0)) =
        some ([7, 9], [7], some 0, Place.outside) := by decide +kernel
  obtain ⟨s, hs, hv⟩ := Option.map_eq_some_iff.mp hrun
  simp only [Prod.mk.injEq] at hv
  obtain ⟨hstored, hgot, hcur, hplace⟩ := hv
  have hr : ioqueue.Reachable s :=
    .replay (fun _ _ _ _ => Ioq.next_step) (.init threeThreads_init) hs
  have h := ioqueue_fifo hr
  exact ⟨s, hr, hstored, hgot, h.1, h.2.1, h.2.2.2 (.call .getchar) ⟨0, hcur, hplace⟩⟩

end Aitos.Drivers
