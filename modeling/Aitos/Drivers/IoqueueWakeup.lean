import Aitos.Drivers.IoqueueOrder

/-!
# Sleeping on a queue that has something to offer

`ioq_getchar` tests for an empty queue before it takes the queue's lock and goes to sleep after
it has got it.  A thread that had to wait for the lock does not test again, so it can go to sleep
although there is a character to read; the same holds for `ioq_putchar` and a free slot.
-/

namespace Aitos.Drivers

open Framework Sched

namespace Ioq

variable {s : Ioq} {t : Tid} {op : Op}

/-- A thread that gets the lock after a sleep finds the queue as it was when it tested it: still
empty for a consumer, still full for a producer. -/
def stillStuck (s : Ioq) : IoqEvent → Prop
  | .resume => ∀ t op, s.cur = some t → s.place t = .lockWait op → s.sema.value ≠ 0 →
      s.Stuck op.side
  | _ => True

/-- A thread recorded as waiting has a reason to. -/
def Justified (s : Ioq) : Prop := ∀ side, s.waiter side ≠ none → s.Stuck side

private theorem stuck_congr {s' : Ioq} (h : s'.ring = s.ring) (side : Side) :
    s'.Stuck side ↔ s.Stuck side := by
  cases side <;> simp [Stuck, h]

theorem Justified.congr {s' : Ioq} (h : s.Justified) (hr : s'.ring = s.ring)
    (hw : s'.waiter = s.waiter) : s'.Justified := by
  intro side hs
  rw [stuck_congr hr]
  apply h side
  rwa [← hw]

theorem Justified.waiting (h : s.Justified) (hs : s.Stuck op.side) :
    (s.waiting t op).Justified := by
  intro side hw
  have hring : (s.waiting t op).ring = s.ring := rfl
  rw [stuck_congr hring]
  by_cases hside : side = op.side
  · rw [hside]
    exact hs
  · apply h side
    have hsame : (s.waiting t op).waiter side = s.waiter side := Function.update_of_ne hside _ _
    rwa [← hsame]

theorem Justified.looped (h : s.Justified) : (s.looped t op).Justified := by
  rw [Ioq.looped]
  split
  · split
    · exact h.congr rfl rfl
    · exact h.waiting ‹_›
  · rename_i hs
    obtain ⟨hwait, -⟩ := moved_frame s op
    -- neither side is waited on any more: one had no reason to, the other has been woken
    have hnone : ∀ side, ((s.moved op).woken op.side.other).waiter side = none := by
      intro side
      rcases Side.eq_or_other op.side side with rfl | rfl
      · have hown : s.waiter op.side = none := by
          by_contra hne
          exact hs (h op.side hne)
        rw [Ioq.woken]
        cases (s.moved op).waiter op.side.other with
        | none => exact (congrFun hwait _).trans hown
        | some u =>
            change Function.update (s.moved op).waiter op.side.other none op.side = none
            rw [Function.update_of_ne (Side.other_ne _).symm, hwait, hown]
      · rw [Ioq.woken]
        cases hw : (s.moved op).waiter op.side.other with
        | none => exact hw
        | some u => exact Function.update_self _ _ _
    intro side hw
    exact absurd (hnone side) hw

theorem Justified.effect (h : s.Justified) {e : IoqEvent} {s' : Ioq} (he : Effect s e s')
    (hstill : s.stillStuck e) : s'.Justified := by
  cases he with
  | dispatch t hr => exact h.congr rfl rfl
  | preempt t hc => exact h.congr rfl rfl
  | call t op hc hp => exact h.looped
  | lockAwake t op hc hp =>
      have hout : (s.setPlace t .outside).Justified := h.congr rfl rfl
      split
      · exact hout.congr rfl rfl
      · apply hout.waiting
        have hring : (s.setPlace t .outside).ring = s.ring := rfl
        rw [stuck_congr hring]
        exact hstill t op hc hp ‹_›
  | ioqAwake t op hc hp =>
      obtain ⟨-, -, hring, hwait⟩ := released_frame (s.setPlace t .outside)
      have hrel : (s.setPlace t .outside).released.Justified := h.congr hring hwait
      exact hrel.looped

private theorem Inv.waiter_of_blocked (h : Inv s) (hp : s.place t = .ioqWait op)
    (hb : s.status t = .blocked) : s.waiter op.side = some t := by
  obtain ⟨o, ho⟩ := h.held
  cases o with
  | none => exact absurd hp (ho.2.2.1 t op)
  | some v =>
      obtain ⟨-, -, op', hp', hone, -, hown⟩ := ho
      have hvt : t = v := by
        by_contra hne
        exact hone t op hne hp
      subst hvt
      rw [hp', Place.ioqWait.injEq] at hp
      subst hp
      rw [hown, if_pos hb]

end Ioq

/-- Nobody sleeps in `ioq_wait`, not yet woken, on a queue that has what it waits for, in every
run in which a thread that gets the lock after a sleep finds the queue still empty, or still
full. -/
theorem no_sleep_on_data {s : Ioq} (h : (ioqueue.restrict Ioq.stillStuck).Reachable s) :
    (¬ s.ring.Empty → ¬ ∃ t, s.place t = .ioqWait .getchar ∧ s.status t = .blocked) ∧
    (¬ s.ring.Full bufsize →
      ¬ ∃ t target, s.place t = .ioqWait (.putchar target) ∧ s.status t = .blocked) := by
  have hinv := Ioq.reachable_inv h.of_restrict
  have hjust : s.Justified := by
    refine h.invariant_of (P := Ioq.Justified) (Q := Ioq.Inv)
      (fun _ hr => Ioq.reachable_inv hr.of_restrict) ?_ ?_
    · intro s₀ hinit side hw
      exact absurd (hinit.2.2.1 side) hw
    · intro s₀ e s₁ hi hj hs
      exact hj.effect (hi.step_effect hs.2) hs.1
  refine ⟨fun hne hsleep => ?_, fun hnf hsleep => ?_⟩
  · obtain ⟨t, hp, hb⟩ := hsleep
    have hw := hinv.waiter_of_blocked hp hb
    exact hne (hjust .consumer (by rw [show Side.consumer = Op.getchar.side from rfl, hw]; simp))
  · obtain ⟨t, target, hp, hb⟩ := hsleep
    have hw := hinv.waiter_of_blocked hp hb
    exact hnf (hjust .producer
      (by rw [show Side.producer = (Op.putchar target).side from rfl, hw]; simp))

/-- A consumer waits and the producer that comes next wakes it. -/
theorem no_sleep_on_data_one_consumer : ∃ s, (ioqueue.restrict Ioq.stillStuck).Reachable s ∧
    ¬ s.ring.Empty ∧ ¬ ∃ t, s.place t = .ioqWait .getchar ∧ s.status t = .blocked := by
  let es : List IoqEvent := [.dispatch 0, .call .getchar, .dispatch 1, .call (.putchar 7)]
  have hrun : (es.foldlM (fun s e => if e = .resume then none else s.next e) threeThreads).map
      (fun s => (s.ring.head, s.ring.tail)) = some (1, 0) := by decide +kernel
  obtain ⟨s, hs, hv⟩ := Option.map_eq_some_iff.mp hrun
  have hr : (ioqueue.restrict Ioq.stillStuck).Reachable s := by
    refine .replay (fun s e s' _ hn => ?_) (.init threeThreads_init) hs
    split at hn
    · cases hn
    · refine ⟨?_, Ioq.next_step hn⟩
      cases e with
      | resume => contradiction
      | _ => trivial
  simp only [Prod.mk.injEq] at hv
  have hne : ¬ s.ring.Empty := by
    rw [RingBuffer.Empty, hv.1, hv.2]
    decide
  exact ⟨s, hr, hne, (no_sleep_on_data hr).1 hne⟩

/-- Two consumers and two characters: the second consumer gets the lock when the first has read
its character, and sleeps on the other one. -/
theorem consumer_sleeps_on_data : ∃ s, ioqueue.Reachable s ∧ ¬ s.ring.Empty ∧
    ∃ t, s.place t = .ioqWait .getchar ∧ s.status t = .blocked := by
  let es : List IoqEvent := [.dispatch 0, .call .getchar, .dispatch 1, .call .getchar,
    .dispatch 2, .call (.putchar 7), .call (.putchar 9), .preempt, .dispatch 0, .resume, .preempt,
    .dispatch 1, .resume]
  have hrun : (es.foldlM Ioq.next threeThreads).map
      (fun s => (s.ring.head, s.ring.tail, s.place 1, s.status 1)) =
        some (2, 1, Place.ioqWait .getchar, TaskStatus.blocked) := by decide +kernel
  obtain ⟨s, hs, hv⟩ := Option.map_eq_some_iff.mp hrun
  simp only [Prod.mk.injEq] at hv
  obtain ⟨hhead, htail, hplace, hstat⟩ := hv
  refine ⟨s, .replay (fun _ _ _ _ => Ioq.next_step) (.init threeThreads_init) hs, ?_, 1, hplace,
    hstat⟩
  rw [RingBuffer.Empty, hhead, htail]
  decide

end Aitos.Drivers
