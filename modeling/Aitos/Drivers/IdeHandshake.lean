import Aitos.Drivers.IdeChannel

/-!
# The handshake keeps its order

At most one thread is inside the lock of the channel, and how far its command has come decides
the flag, the semaphore and what is in flight.  The invariant says this place by place; one lemma
for each kind of statement shows that it is kept and that no assertion of the synchronisation
fails.
-/

namespace Aitos.Drivers.Ide

open Framework Sched

/-- At these places a thread has no part in the lock. -/
def Place.free : Place → Bool
  | .outside | .acqDown _ | .acqWait _ => true
  | _ => false

/-- The fields of the lock while its owner `t` stands there. -/
def Place.lockFields (t : Tid) : Place → Lock
  | .acqHolder _ | .relUp => ⟨none, 0⟩
  | .acqAssert _ | .acqRepeat _ => ⟨some t, 0⟩
  | .relRepeat => ⟨none, 1⟩
  | _ => ⟨some t, 1⟩

/-- From the start of `cmd_out` to the return of `sema_down` the thread's command is outstanding. -/
def Place.outstanding : Place → Bool
  | .cmdOut _ | .writeData _ | .doneDown _ | .doneWait _ => true
  | _ => false

namespace Chan

/-- No command is on its way; the flag may already be raised for the next one. -/
structure Idle (flag : Bool) (s : Chan) : Prop where
  expecting : s.expectingIntr = flag
  done : s.sema .diskDone = ⟨0, []⟩
  inFlight : s.inFlight = []
  issued : s.issued = s.consumed
  completed : s.completed = s.consumed

/-- The command of `t` waits for its interrupt. -/
structure Waiting (t : Tid) (waiters : List Tid) (s : Chan) : Prop where
  expecting : s.expectingIntr = true
  done : s.sema .diskDone = ⟨0, waiters⟩
  inFlight : s.inFlight = [t]
  issued : s.issued = s.consumed ++ [t]
  completed : s.completed = s.consumed

/-- The interrupt of `t`'s command has come and is not consumed. -/
structure Answered (t : Tid) (s : Chan) : Prop where
  expecting : s.expectingIntr = false
  done : s.sema .diskDone = ⟨1, []⟩
  inFlight : s.inFlight = []
  issued : s.issued = s.consumed ++ [t]
  completed : s.completed = s.consumed ++ [t]

/-- The channel while the owner `t` of the lock stands at a place. -/
def Stage (s : Chan) (t : Tid) : Place → Prop
  | .cmdOut _ => Idle true s
  | .writeData _ | .doneDown _ => Waiting t [] s ∨ Answered t s
  | .doneWait _ => Waiting t [t] s ∨ Answered t s
  | _ => Idle false s

structure Owned (s : Chan) (t : Tid) : Prop where
  value : (s.sema .lock).value = 0
  owner : (s.place t).free = false
  lock : s.lock = (s.place t).lockFields t
  others : ∀ u, u ≠ t → (s.place u).free = true
  stage : s.Stage t (s.place t)

structure Unowned (s : Chan) : Prop where
  value : (s.sema .lock).value = 1
  lock : s.lock = ⟨none, 0⟩
  free : ∀ u, (s.place u).free = true
  idle : Idle false s

/-- The wait list of a semaphore: blocked threads inside its `sema_down`. -/
structure WaitList (s : Chan) (i : Sema) (wait : Job → Place) : Prop where
  nodup : (s.sema i).waiters.Nodup
  blocked : ∀ t ∈ (s.sema i).waiters, s.status t = .blocked
  waiting : ∀ t ∈ (s.sema i).waiters, ∃ j, s.place t = wait j

structure Scheduled (s : Chan) : Prop where
  cur : ∀ t ∈ s.cur, s.status t = .running
  nodup : s.ready.Nodup
  ready : ∀ t ∈ s.ready, s.status t = .ready
  lockWaiters : s.WaitList .lock .acqWait
  doneWaiters : s.WaitList .diskDone .doneWait

structure Inv (s : Chan) : Prop where
  scheduled : s.Scheduled
  owned : s.Unowned ∨ ∃ t, s.Owned t

/-- The step returns in the invariant, or fails for a reason outside the handshake. -/
def Good : Except Failure Chan → Prop
  | .ok s => s.Inv
  | .error f => f.external = true

private theorem good_check {f : Failure} {c : Prop} [Decidable c] {k : Except Failure Chan} (hc : c)
    (hk : Good k) : Good (do check f c; k) := by
  rw [check, if_pos hc]
  exact hk

private theorem good_check_external {f : Failure} {c : Prop} [Decidable c] {k : Except Failure Chan}
    (hf : f.external = true) (hk : c → Good k) : Good (do check f c; k) := by
  rw [check]
  split
  · exact hk ‹_›
  · exact hf

section Frames

variable {s s' : Chan} {t : Tid}

/-- The channel's own data is the same. -/
structure SameChannel (s s' : Chan) : Prop where
  expecting : s'.expectingIntr = s.expectingIntr
  done : s'.sema .diskDone = s.sema .diskDone
  inFlight : s'.inFlight = s.inFlight
  issued : s'.issued = s.issued
  completed : s'.completed = s.completed
  consumed : s'.consumed = s.consumed

theorem Idle.congr {flag : Bool} (h : Idle flag s) (hs : SameChannel s s') : Idle flag s' :=
  ⟨hs.expecting.trans h.expecting, hs.done.trans h.done, hs.inFlight.trans h.inFlight,
    by rw [hs.issued, hs.consumed, h.issued], by rw [hs.completed, hs.consumed, h.completed]⟩

theorem Waiting.congr {ws : List Tid} (h : Waiting t ws s) (hs : SameChannel s s') :
    Waiting t ws s' :=
  ⟨hs.expecting.trans h.expecting, hs.done.trans h.done, hs.inFlight.trans h.inFlight,
    by rw [hs.issued, hs.consumed, h.issued], by rw [hs.completed, hs.consumed, h.completed]⟩

theorem Answered.congr (h : Answered t s) (hs : SameChannel s s') : Answered t s' :=
  ⟨hs.expecting.trans h.expecting, hs.done.trans h.done, hs.inFlight.trans h.inFlight,
    by rw [hs.issued, hs.consumed, h.issued], by rw [hs.completed, hs.consumed, h.completed]⟩

theorem Stage.congr {p : Place} (h : s.Stage t p) (hs : SameChannel s s') : s'.Stage t p := by
  cases p with
  | writeData j => exact h.imp (Waiting.congr · hs) (Answered.congr · hs)
  | doneDown j => exact h.imp (Waiting.congr · hs) (Answered.congr · hs)
  | doneWait j => exact h.imp (Waiting.congr · hs) (Answered.congr · hs)
  | _ => exact Idle.congr h hs

private theorem Scheduled.cur_not_waiting (h : Scheduled s) (hc : t ∈ s.cur) (i : Sema) :
    t ∉ (s.sema i).waiters := by
  intro hw
  have hrun := h.cur t hc
  cases i with
  | diskDone =>
      rw [h.doneWaiters.blocked t hw] at hrun
      cases hrun
  | lock =>
      rw [h.lockWaiters.blocked t hw] at hrun
      cases hrun

theorem WaitList.move {i : Sema} {wait : Job → Place} (h : WaitList s i wait)
    (hw : (s'.sema i).waiters = (s.sema i).waiters) (hst : s'.status = s.status)
    (ht : t ∉ (s.sema i).waiters) (hp : ∀ u, u ≠ t → s'.place u = s.place u) :
    WaitList s' i wait := by
  constructor
  · rw [hw]
    exact h.nodup
  · intro u hu
    rw [hst]
    exact h.blocked u (hw ▸ hu)
  · intro u hu
    rw [hw] at hu
    rw [hp u fun e => ht (e ▸ hu)]
    exact h.waiting u hu

/-- The running thread moves on without a word to the scheduler. -/
theorem Scheduled.move (h : Scheduled s) (hc : t ∈ s.cur) (hcur : s'.cur = s.cur)
    (hready : s'.ready = s.ready) (hst : s'.status = s.status)
    (hw : ∀ i, (s'.sema i).waiters = (s.sema i).waiters)
    (hp : ∀ u, u ≠ t → s'.place u = s.place u) : Scheduled s' where
  cur u hu := by
    rw [hst]
    exact h.cur u (hcur ▸ hu)
  nodup := hready ▸ h.nodup
  ready u hu := by
    rw [hst]
    exact h.ready u (hready ▸ hu)
  lockWaiters := h.lockWaiters.move (hw .lock) hst (h.cur_not_waiting hc .lock) hp
  doneWaiters := h.doneWaiters.move (hw .diskDone) hst (h.cur_not_waiting hc .diskDone) hp

end Frames

section Steps

variable {s : Chan} {t : Tid}

private theorem Inv.owned_of_place (h : Inv s) (hp : (s.place t).free = false) : s.Owned t := by
  rcases h.owned with hun | ⟨u, hu⟩
  · rw [hun.free t] at hp
    cases hp
  · by_cases htu : t = u
    · rw [htu]
      exact hu
    · rw [hu.others t htu] at hp
      cases hp

/-- Thread `t` goes on to `p` without a word to the scheduler or the lock's semaphore. -/
structure Moves (s s' : Chan) (t : Tid) (p : Place) : Prop where
  cur : s'.cur = s.cur
  ready : s'.ready = s.ready
  status : s'.status = s.status
  place : s'.place = Function.update s.place t p
  lock : s'.sema .lock = s.sema .lock
  done : (s'.sema .diskDone).waiters = (s.sema .diskDone).waiters

private theorem Moves.place_self {s' : Chan} {p : Place} (h : Moves s s' t p) : s'.place t = p := by
  rw [h.place, Function.update_self]

private theorem Moves.place_other {s' : Chan} {p : Place} (h : Moves s s' t p) (u : Tid)
    (hu : u ≠ t) : s'.place u = s.place u := by
  rw [h.place, Function.update_of_ne hu]

private theorem Moves.scheduled {s' : Chan} {p : Place} (hm : Moves s s' t p) (h : Scheduled s)
    (hc : t ∈ s.cur) : Scheduled s' := by
  refine h.move hc hm.cur hm.ready hm.status (fun i => ?_) hm.place_other
  cases i with
  | diskDone => exact hm.done
  | lock => exact congrArg Semaphore.waiters hm.lock

theorem Inv.move (h : Inv s) (hc : t ∈ s.cur) (how : s.Owned t) {s' : Chan} {p : Place}
    (hm : Moves s s' t p) (hfree : p.free = false) (hlock : s'.lock = p.lockFields t)
    (hstage : s'.Stage t p) : Inv s' := by
  refine ⟨hm.scheduled h.scheduled hc, Or.inr ⟨t, ?_, ?_, ?_, ?_, ?_⟩⟩
  · rw [hm.lock]
    exact how.value
  · rw [hm.place_self]
    exact hfree
  · rw [hm.place_self]
    exact hlock
  · intro u hu
    rw [hm.place_other u hu]
    exact how.others u hu
  · rw [hm.place_self]
    exact hstage

/-! ### Blocking and waking up -/

/-- The state after a `sema_down` by `t` that blocks. -/
def blockOn (s : Chan) (i : Sema) (t : Tid) (wait : Place) : Chan :=
  ((s.setSema i ⟨(s.sema i).value, (s.sema i).waiters ++ [t]⟩).setPlace t wait).threadBlock t

private theorem semaDown_block {i : Sema} {wait next : Place} (hv : (s.sema i).value = 0)
    (hw : t ∉ (s.sema i).waiters) : s.semaDown i t wait next = .ok (s.blockOn i t wait) := by
  rw [semaDown, if_pos hv, check, if_pos hw]
  rfl

private theorem semaDown_take {i : Sema} {wait next : Place} {ws : List Tid}
    (hv : s.sema i = ⟨1, ws⟩) :
    s.semaDown i t wait next = .ok ((s.setSema i ⟨0, ws⟩).setPlace t next) := by
  have hpos : ¬ (s.sema i).value = 0 := by
    rw [hv]
    exact one_ne_zero
  have hone : (s.sema i).value - 1 = 0 := by simp [hv]
  rw [semaDown, if_neg hpos, check, if_pos hone, hone, hv]
  rfl

theorem Scheduled.block (h : Scheduled s) (hc : t ∈ s.cur) {i : Sema} {wait : Job → Place} {j : Job}
    (hi : i = .lock ∧ wait = .acqWait ∨ i = .diskDone ∧ wait = .doneWait) :
    Scheduled (s.blockOn i t (wait j)) := by
  have hnot := h.cur_not_waiting hc
  have hst : ∀ u, u ≠ t → (s.blockOn i t (wait j)).status u = s.status u :=
    fun u hu => Function.update_of_ne hu _ _
  have hpl : ∀ u, u ≠ t → (s.blockOn i t (wait j)).place u = s.place u :=
    fun u hu => Function.update_of_ne hu _ _
  have hother : ∀ k w, k ≠ i → WaitList s k w → WaitList (s.blockOn i t (wait j)) k w := by
    intro k w hk hl
    have hsema : (s.blockOn i t (wait j)).sema k = s.sema k := Function.update_of_ne hk _ _
    have hne : ∀ u ∈ (s.sema k).waiters, u ≠ t := fun u hu e => hnot k (e ▸ hu)
    refine ⟨hsema ▸ hl.nodup, fun u hu => ?_, fun u hu => ?_⟩
    · rw [hsema] at hu
      rw [hst u (hne u hu)]
      exact hl.blocked u hu
    · rw [hsema] at hu
      rw [hpl u (hne u hu)]
      exact hl.waiting u hu
  have hsame : WaitList s i wait → WaitList (s.blockOn i t (wait j)) i wait := by
    intro hl
    have hsema : ((s.blockOn i t (wait j)).sema i).waiters = (s.sema i).waiters ++ [t] := by
      change (Function.update s.sema i _ i).waiters = _
      rw [Function.update_self]
    have hne : ∀ u ∈ (s.sema i).waiters, u ≠ t := fun u hu e => hnot i (e ▸ hu)
    constructor
    · rw [hsema, List.nodup_append]
      refine ⟨hl.nodup, List.nodup_singleton t, ?_⟩
      intro u hu v hv
      rw [List.mem_singleton] at hv
      rw [hv]
      exact hne u hu
    · intro u hu
      rw [hsema, List.mem_append, List.mem_singleton] at hu
      rcases hu with hu | rfl
      · rw [hst u (hne u hu)]
        exact hl.blocked u hu
      · exact Function.update_self ..
    · intro u hu
      rw [hsema, List.mem_append, List.mem_singleton] at hu
      rcases hu with hu | rfl
      · rw [hpl u (hne u hu)]
        exact hl.waiting u hu
      · exact ⟨j, Function.update_self ..⟩
  constructor
  · intro u hu
    cases hu
  · exact h.nodup
  · intro u hu
    have hne : u ≠ t := by
      rintro rfl
      have hrun := h.cur u hc
      rw [h.ready u hu] at hrun
      cases hrun
    rw [hst u hne]
    exact h.ready u hu
  · rcases hi with ⟨rfl, rfl⟩ | ⟨rfl, rfl⟩
    · exact hsame h.lockWaiters
    · exact hother .lock _ (by decide) h.lockWaiters
  · rcases hi with ⟨rfl, rfl⟩ | ⟨rfl, rfl⟩
    · exact hother .diskDone _ (by decide) h.doneWaiters
    · exact hsame h.doneWaiters

/-- The state after a `sema_up`. -/
def raised (s : Chan) (i : Sema) : Chan :=
  match (s.sema i).waiters with
  | [] => s.setSema i ⟨1, []⟩
  | t :: rest => ({ s with ready := t :: s.ready }.setStatus t .ready).setSema i ⟨1, rest⟩

theorem threadUnblock_eq (hblocked : s.status t = .blocked) (hready : t ∉ s.ready) :
    s.threadUnblock t = .ok ({ s with ready := t :: s.ready }.setStatus t .ready) := by
  rw [threadUnblock, check, hblocked, if_pos (by decide), if_pos (by decide), check, if_pos hready]
  rfl

private theorem semaUp_eq (h : Scheduled s) {i : Sema} {wait : Job → Place} (hl : WaitList s i wait)
    (hv : (s.sema i).value = 0) : s.semaUp i = .ok (s.raised i) := by
  rw [semaUp, raised, check, if_pos hv]
  cases hw : (s.sema i).waiters with
  | nil =>
      change (do check .semaUpRaised ((s.sema i).value + 1 = 1)
                 pure (s.setSema i ⟨(s.sema i).value + 1, (s.sema i).waiters⟩)) = _
      rw [check, if_pos (by omega), hv, hw]
      rfl
  | cons t rest =>
      have hblocked : s.status t = .blocked := hl.blocked t (by rw [hw]; exact List.mem_cons_self)
      have hready : t ∉ s.ready := by
        intro hr
        have hst := h.ready t hr
        rw [hblocked] at hst
        cases hst
      have hunblock := threadUnblock_eq (s := s.setSema i ⟨(s.sema i).value, rest⟩) hblocked hready
      set s₁ : Chan := { s.setSema i ⟨(s.sema i).value, rest⟩ with ready := t :: s.ready }.setStatus
        t .ready with hs₁
      have hsema : s₁.sema i = ⟨0, rest⟩ := by
        change Function.update s.sema i _ i = _
        rw [Function.update_self, hv]
      change (do let s ← (s.setSema i ⟨(s.sema i).value, rest⟩).threadUnblock t
                 check .semaUpRaised ((s.sema i).value + 1 = 1)
                 pure (s.setSema i ⟨(s.sema i).value + 1, (s.sema i).waiters⟩)) = _
      rw [hunblock]
      change (do check .semaUpRaised ((s₁.sema i).value + 1 = 1)
                 pure (s₁.setSema i ⟨(s₁.sema i).value + 1, (s₁.sema i).waiters⟩)) = _
      rw [hsema, check, if_pos rfl]
      change Except.ok (s₁.setSema i ⟨1, rest⟩) = _
      rw [setSema, hs₁]
      simp [setSema, setStatus]

/-- The place at which a thread waits for a semaphore. -/
def waitPlace : Sema → Job → Place
  | .diskDone => .doneWait
  | .lock => .acqWait

private theorem Scheduled.waitList (h : Scheduled s) (i : Sema) : WaitList s i (waitPlace i) := by
  cases i with
  | diskDone => exact h.doneWaiters
  | lock => exact h.lockWaiters

private theorem Scheduled.of_waitLists (hcur : ∀ t ∈ s.cur, s.status t = .running)
    (hn : s.ready.Nodup)
    (hr : ∀ t ∈ s.ready, s.status t = .ready) (hl : ∀ i, WaitList s i (waitPlace i)) :
    Scheduled s := ⟨hcur, hn, hr, hl .lock, hl .diskDone⟩

private theorem Scheduled.waiter_unique (h : Scheduled s) {i k : Sema} (hi : t ∈ (s.sema i).waiters)
    (hk : t ∈ (s.sema k).waiters) : i = k := by
  obtain ⟨j, hj⟩ := (h.waitList i).waiting t hi
  obtain ⟨j', hj'⟩ := (h.waitList k).waiting t hk
  rw [hj] at hj'
  cases i <;> cases k <;> first | rfl | cases hj'

theorem WaitList.shrink {s' : Chan} {i : Sema} {wait : Job → Place} (h : WaitList s i wait)
    (hsub : (s'.sema i).waiters.Sublist (s.sema i).waiters)
    (hst : ∀ u ∈ (s'.sema i).waiters, s'.status u = s.status u) (hp : s'.place = s.place) :
    WaitList s' i wait := by
  refine ⟨hsub.nodup h.nodup, fun u hu => ?_, fun u hu => ?_⟩
  · rw [hst u hu]
    exact h.blocked u (hsub.subset hu)
  · rw [hp]
    exact h.waiting u (hsub.subset hu)

theorem Scheduled.raise (h : Scheduled s) (i : Sema) : Scheduled (s.raised i) := by
  rw [raised]
  cases hw : (s.sema i).waiters with
  | nil =>
      refine .of_waitLists h.cur h.nodup h.ready fun k => ?_
      refine (h.waitList k).shrink ?_ (fun _ _ => rfl) rfl
      by_cases hk : k = i
      · subst hk
        change (Function.update s.sema k _ k).waiters.Sublist _
        rw [Function.update_self]
        exact List.nil_sublist _
      · change (Function.update s.sema i _ k).waiters.Sublist _
        rw [Function.update_of_ne hk]
  | cons t rest =>
      have hmem : t ∈ (s.sema i).waiters := by
        rw [hw]
        exact List.mem_cons_self
      have hblocked := (h.waitList i).blocked t hmem
      have hnodup := (h.waitList i).nodup
      rw [hw] at hnodup
      have hst : ∀ u, u ≠ t → Function.update s.status t TaskStatus.ready u = s.status u :=
        fun u hu => Function.update_of_ne hu _ _
      refine .of_waitLists ?_ ?_ ?_ fun k => ?_
      · intro u hu
        have hrun := h.cur u hu
        have hne : u ≠ t := by
          rintro rfl
          rw [hblocked] at hrun
          cases hrun
        exact (hst u hne).trans hrun
      · refine List.nodup_cons.mpr ⟨fun hr => ?_, h.nodup⟩
        have hready := h.ready t hr
        rw [hblocked] at hready
        cases hready
      · intro u hu
        by_cases hut : u = t
        · subst hut
          exact Function.update_self ..
        · exact (hst u hut).trans (h.ready u ((List.mem_cons.mp hu).resolve_left hut))
      · by_cases hk : k = i
        · subst hk
          have hsema : (Function.update s.sema k ⟨1, rest⟩ k).waiters = rest := by
            rw [Function.update_self]
          refine (h.waitList k).shrink ?_ ?_ rfl
          · change (Function.update s.sema k ⟨1, rest⟩ k).waiters.Sublist _
            rw [hsema, hw]
            exact List.sublist_cons_self t rest
          · intro u hu
            change u ∈ (Function.update s.sema k ⟨1, rest⟩ k).waiters at hu
            rw [hsema] at hu
            exact hst u fun e => (List.nodup_cons.mp hnodup).1 (e ▸ hu)
        · have hsema : Function.update s.sema i ⟨1, rest⟩ k = s.sema k :=
            Function.update_of_ne hk _ _
          refine (h.waitList k).shrink ?_ ?_ rfl
          · change (Function.update s.sema i ⟨1, rest⟩ k).waiters.Sublist _
            rw [hsema]
          · intro u hu
            change u ∈ (Function.update s.sema i ⟨1, rest⟩ k).waiters at hu
            rw [hsema] at hu
            exact hst u fun e => hk (h.waiter_unique (e ▸ hu) hmem)

/-- What `sema_up` leaves alone, and the semaphore it leaves. -/
structure Raises (s s' : Chan) (i : Sema) : Prop where
  cur : s'.cur = s.cur
  place : s'.place = s.place
  lock : s'.lock = s.lock
  other : ∀ k ≠ i, s'.sema k = s.sema k
  self : s'.sema i = ⟨1, (s.sema i).waiters.tail⟩
  expecting : s'.expectingIntr = s.expectingIntr
  inFlight : s'.inFlight = s.inFlight
  issued : s'.issued = s.issued
  completed : s'.completed = s.completed
  consumed : s'.consumed = s.consumed

private theorem raises (s : Chan) (i : Sema) : Raises s (s.raised i) i := by
  rw [raised]
  cases hw : (s.sema i).waiters with
  | nil =>
      refine ⟨rfl, rfl, rfl, fun k hk => Function.update_of_ne hk _ _, ?_, rfl, rfl, rfl, rfl, rfl⟩
      rw [hw]
      exact Function.update_self ..
  | cons t rest =>
      refine ⟨rfl, rfl, rfl, fun k hk => Function.update_of_ne hk _ _, ?_, rfl, rfl, rfl, rfl, rfl⟩
      rw [hw]
      exact Function.update_self ..

theorem Scheduled.setPlace (h : Scheduled s) (hp : (s.place t).waiting = false) (p : Place) :
    Scheduled (s.setPlace t p) := by
  refine .of_waitLists h.cur h.nodup h.ready fun i => ?_
  refine (h.waitList i).move rfl rfl (fun hw => ?_) fun u hu => Function.update_of_ne hu _ _
  obtain ⟨j, hj⟩ := (h.waitList i).waiting t hw
  rw [hj] at hp
  cases i <;> cases hp

/-! ### The places one by one -/

private theorem good_acquire (h : Inv s) (hc : t ∈ s.cur) (hp : (s.place t).free = true) (j : Job) :
    Good (s.semaDown .lock t (.acqWait j) (.acqHolder j)) := by
  rcases h.owned with hun | ⟨u, hu⟩
  · have hv : s.sema .lock = ⟨1, (s.sema .lock).waiters⟩ := by
      rw [← hun.value]
    have hself : ∀ s₁ : Chan, (s₁.setPlace t (.acqHolder j)).place t = .acqHolder j :=
      fun _ => Function.update_self ..
    rw [semaDown_take hv]
    constructor
    · refine h.scheduled.move hc rfl rfl rfl ?_ fun u hu => Function.update_of_ne hu _ _
      intro i
      cases i <;> rfl
    · right
      refine ⟨t, rfl, ?_, ?_, ?_, ?_⟩
      · rw [hself]
        rfl
      · rw [hself]
        exact hun.lock
      · intro u hu
        rw [show (((s.setSema .lock _).setPlace t _).place u) = s.place u from
          Function.update_of_ne hu _ _]
        exact hun.free u
      · rw [hself]
        exact hun.idle.congr ⟨rfl, rfl, rfl, rfl, rfl, rfl⟩
  · have hne : u ≠ t := by
      rintro rfl
      rw [hu.owner] at hp
      cases hp
    have hsame : (s.blockOn .lock t (.acqWait j)).place u = s.place u :=
      Function.update_of_ne hne _ _
    rw [semaDown_block hu.value (h.scheduled.cur_not_waiting hc .lock)]
    refine ⟨h.scheduled.block hc (Or.inl ⟨rfl, rfl⟩), Or.inr ⟨u, ?_, ?_, ?_, ?_, ?_⟩⟩
    · exact hu.value
    · rw [hsame]
      exact hu.owner
    · rw [hsame]
      exact hu.lock
    · intro v hv
      by_cases hvt : v = t
      · subst hvt
        change (Function.update s.place v _ v).free = true
        rw [Function.update_self]
        rfl
      · change (Function.update s.place t _ v).free = true
        rw [Function.update_of_ne hvt]
        exact hu.others v hv
    · rw [hsame]
      exact Stage.congr hu.stage ⟨rfl, rfl, rfl, rfl, rfl, rfl⟩

private theorem good_downDone (h : Inv s) (hc : t ∈ s.cur) {j : Job}
    (hp : s.place t = .doneDown j ∨ s.place t = .doneWait j) : Good (s.downDone t j) := by
  have hnot : (s.place t).free = false := by
    rcases hp with hp | hp <;> rw [hp] <;> rfl
  have how := h.owned_of_place hnot
  have hstage : Waiting t [] s ∨ Answered t s := by
    rcases hp with hp | hp
    · have hst := how.stage
      rw [hp] at hst
      exact hst
    · have hst := how.stage
      rw [hp] at hst
      rcases hst with hst | hst
      · -- a waiter is blocked, so it does not run
        have hw := h.scheduled.cur_not_waiting hc .diskDone
        rw [hst.done] at hw
        exact absurd (List.mem_singleton_self t) hw
      · exact Or.inr hst
  have hlock : s.lock = ⟨some t, 1⟩ := by
    rw [how.lock]
    rcases hp with hp | hp <;> rw [hp] <;> rfl
  rcases hstage with hst | hst
  · have hv : (s.sema .diskDone).value = 0 := by rw [hst.done]
    rw [downDone, semaDown_block hv (h.scheduled.cur_not_waiting hc .diskDone)]
    change Good (if (s.sema .diskDone).value = 0 then _ else _)
    rw [if_pos hv]
    have hself : (s.blockOn .diskDone t (.doneWait j)).place t = .doneWait j :=
      Function.update_self ..
    refine ⟨h.scheduled.block hc (Or.inr ⟨rfl, rfl⟩), Or.inr ⟨t, how.value, ?_, ?_, ?_, ?_⟩⟩
    · rw [hself]
      rfl
    · rw [hself]
      exact hlock
    · intro u hu
      change (Function.update s.place t _ u).free = true
      rw [Function.update_of_ne hu]
      exact how.others u hu
    · rw [hself]
      refine Or.inl ⟨hst.expecting, ?_, hst.inFlight, hst.issued, hst.completed⟩
      change (⟨(s.sema .diskDone).value, (s.sema .diskDone).waiters ++ [t]⟩ : Semaphore) = _
      rw [hst.done]
      rfl
  · have hv : ¬ (s.sema .diskDone).value = 0 := by
      rw [hst.done]
      exact one_ne_zero
    rw [downDone, semaDown_take hst.done]
    change Good (if (s.sema .diskDone).value = 0 then _ else _)
    rw [if_neg hv]
    have hidle : ∀ {s' : Chan}, s'.expectingIntr = s.expectingIntr →
        s'.sema .diskDone = ⟨0, []⟩ → s'.inFlight = s.inFlight → s'.issued = s.issued →
        s'.completed = s.completed → s'.consumed = s.consumed ++ [t] → Idle false s' := by
      intro s' he hd hf hi hcm hcs
      exact ⟨he.trans hst.expecting, hd, hf.trans hst.inFlight, by rw [hi, hcs, hst.issued],
        by rw [hcm, hcs, hst.completed]⟩
    cases hwrite : j.write with
    | true =>
        refine h.move hc how (p := .loop j.next) ⟨rfl, rfl, rfl, rfl, rfl, ?_⟩ rfl hlock ?_
        · rw [hst.done]
          rfl
        · exact hidle rfl rfl rfl rfl rfl rfl
    | false =>
        refine h.move hc how (p := .readData j) ⟨rfl, rfl, rfl, rfl, rfl, ?_⟩ rfl hlock ?_
        · rw [hst.done]
          rfl
        · exact hidle rfl rfl rfl rfl rfl rfl

private theorem good_release (h : Inv s) (hp : s.place t = .relUp) :
    Good (do
      let s ← s.semaUp .lock
      return s.setPlace t .outside) := by
  have how := h.owned_of_place (t := t) (by rw [hp]; rfl)
  have hst : Idle false s := by
    have hstage := how.stage
    rw [hp] at hstage
    exact hstage
  have hr := raises s .lock
  rw [semaUp_eq h.scheduled h.scheduled.lockWaiters how.value]
  constructor
  · apply (h.scheduled.raise .lock).setPlace
    rw [hr.place, hp]
    rfl
  · left
    refine ⟨?_, ?_, ?_, ?_⟩
    · exact congrArg Semaphore.value hr.self
    · rw [show ((s.raised .lock).setPlace t .outside).lock = s.lock from hr.lock, how.lock, hp]
      rfl
    · intro u
      by_cases hu : u = t
      · subst hu
        change (Function.update (s.raised .lock).place u Place.outside u).free = true
        rw [Function.update_self]
        rfl
      · change (Function.update (s.raised .lock).place t Place.outside u).free = true
        rw [Function.update_of_ne hu, hr.place]
        exact how.others u hu
    · exact hst.congr ⟨hr.expecting, hr.other .diskDone (by decide), hr.inFlight, hr.issued,
        hr.completed, hr.consumed⟩

private theorem good_call (h : Inv s) (hc : t ∈ s.cur) (hp : s.place t = .outside) (j : Job) :
    Good (s.call t j) := by
  have hholder : s.lock.holder ≠ some t := by
    rcases h.owned with hun | ⟨u, hu⟩
    · rw [hun.lock]
      simp
    · have hne : u ≠ t := by
        rintro rfl
        have howner := hu.owner
        rw [hp] at howner
        cases howner
      rw [hu.lock]
      cases s.place u <;> simp [Place.lockFields, hne]
  have hm : Moves s (s.setPlace t (.acqDown j)) t (.acqDown j) := ⟨rfl, rfl, rfl, rfl, rfl, rfl⟩
  refine good_check_external rfl fun _ => good_check_external rfl fun _ => ?_
  rw [if_pos hholder]
  refine ⟨hm.scheduled h.scheduled hc, ?_⟩
  have hfree : ∀ u, (s.place u).free = true → ((s.setPlace t (.acqDown j)).place u).free = true := by
    intro u hu
    by_cases hut : u = t
    · rw [hut, hm.place_self]
      rfl
    · rw [hm.place_other u hut]
      exact hu
  rcases h.owned with hun | ⟨u, hu⟩
  · exact Or.inl ⟨hun.value, hun.lock, fun u => hfree u (hun.free u),
      hun.idle.congr ⟨rfl, rfl, rfl, rfl, rfl, rfl⟩⟩
  · have hne : u ≠ t := by
      rintro rfl
      have howner := hu.owner
      rw [hp] at howner
      cases howner
    refine Or.inr ⟨u, hu.value, ?_, ?_, fun v hv => hfree v (hu.others v hv), ?_⟩
    · rw [hm.place_other u hne]
      exact hu.owner
    · rw [hm.place_other u hne]
      exact hu.lock
    · rw [hm.place_other u hne]
      exact Stage.congr hu.stage ⟨rfl, rfl, rfl, rfl, rfl, rfl⟩

/-- An interrupt finds the command it answers: the owner's, still waiting for it. -/
private theorem stage_inFlight {u : Tid} {p : Place} (h : s.Stage u p) (ht : t ∈ s.inFlight) :
    t = u ∧ (∃ ws, ws.tail = [] ∧ Waiting u ws s) ∧ ∀ s', Answered u s' → Stage s' u p := by
  have hidle : ∀ flag, Idle flag s → False := by
    intro flag hi
    rw [hi.inFlight] at ht
    cases ht
  have hanswered : Answered u s → False := by
    intro ha
    rw [ha.inFlight] at ht
    cases ht
  have heq : ∀ ws, Waiting u ws s → t = u := by
    intro ws hw
    rw [hw.inFlight] at ht
    exact List.mem_singleton.mp ht
  cases p with
  | writeData j =>
      have hw := h.resolve_right hanswered
      exact ⟨heq _ hw, ⟨[], rfl, hw⟩, fun _ ha => Or.inr ha⟩
  | doneDown j =>
      have hw := h.resolve_right hanswered
      exact ⟨heq _ hw, ⟨[], rfl, hw⟩, fun _ ha => Or.inr ha⟩
  | doneWait j =>
      have hw := h.resolve_right hanswered
      exact ⟨heq _ hw, ⟨[u], rfl, hw⟩, fun _ ha => Or.inr ha⟩
  | _ => exact (hidle _ h).elim

private theorem good_interrupt (h : Inv s) (ht : t ∈ s.inFlight) :
    Good (s.step (.interrupt t)) := by
  rcases h.owned with hun | ⟨u, hu⟩
  · rw [hun.idle.inFlight] at ht
    cases ht
  obtain ⟨rfl, ⟨ws, htail, hw⟩, hstage⟩ := stage_inFlight hu.stage ht
  set s₁ : Chan := { s with
    inFlight := s.inFlight.erase t, completed := s.completed ++ [t], expectingIntr := false }
    with hs₁
  have hsched : Scheduled s₁ := by
    refine .of_waitLists h.scheduled.cur h.scheduled.nodup h.scheduled.ready fun i => ?_
    exact (h.scheduled.waitList i).shrink (List.Sublist.refl _) (fun _ _ => rfl) rfl
  have hstep : s.step (.interrupt t) = s₁.semaUp .diskDone := by
    change intrHdHandler _ = _
    rw [intrHdHandler]
    exact if_pos hw.expecting
  have hr := raises s₁ .diskDone
  rw [hstep, semaUp_eq hsched hsched.doneWaiters (by rw [show s₁.sema = s.sema from rfl, hw.done])]
  have hanswered : Answered t (s₁.raised .diskDone) := by
    constructor
    · exact hr.expecting
    · rw [hr.self, show s₁.sema = s.sema from rfl, hw.done]
      exact congrArg _ htail
    · rw [hr.inFlight]
      change s.inFlight.erase t = []
      rw [hw.inFlight]
      simp
    · rw [hr.issued, hr.consumed]
      exact hw.issued
    · rw [hr.completed, hr.consumed]
      exact congrArg (· ++ [t]) hw.completed
  refine ⟨hsched.raise .diskDone, Or.inr ⟨t, ?_, ?_, ?_, ?_, ?_⟩⟩
  · rw [hr.other .lock (by decide)]
    exact hu.value
  · rw [hr.place]
    exact hu.owner
  · rw [hr.place, hr.lock]
    exact hu.lock
  · intro v hv
    rw [hr.place]
    exact hu.others v hv
  · rw [hr.place]
    exact hstage _ hanswered

/-- The owner stands at `p`. -/
private theorem Inv.owned_at (h : Inv s) {p : Place} (hpl : s.place t = p) (hp : p.free = false) :
    s.Owned t ∧ s.lock = p.lockFields t ∧ s.Stage t p := by
  obtain rfl := hpl
  have how := h.owned_of_place hp
  exact ⟨how, how.lock, how.stage⟩

/-- The owner goes on from `p` to `q`. -/
private theorem Inv.goOn (h : Inv s) (hc : t ∈ s.cur) {p q : Place} {s' : Chan}
    (hpl : s.place t = p) (hp : p.free = false) (hq : q.free = false) (hm : Moves s s' t q)
    (hlock : s.lock = p.lockFields t → s'.lock = q.lockFields t)
    (hstage : s.Stage t p → s'.Stage t q) : Inv s' := by
  obtain ⟨how, hl, hst⟩ := h.owned_at hpl hp
  exact h.move hc how hm hq (hlock hl) (hstage hst)

/-- Nothing but the place of the owner changes. -/
private theorem Inv.goOn_same (h : Inv s) (hc : t ∈ s.cur) {p q : Place} (hpl : s.place t = p)
    (hp : p.free = false) (hq : q.free = false) (hlock : p.lockFields t = q.lockFields t)
    (hstage : s.Stage t p → s.Stage t q) : Inv (s.setPlace t q) :=
  h.goOn hc hpl hp hq ⟨rfl, rfl, rfl, rfl, rfl, rfl⟩ (fun hl => hl.trans hlock)
    fun hst => (hstage hst).congr ⟨rfl, rfl, rfl, rfl, rfl, rfl⟩

private theorem good_loop (h : Inv s) (hc : t ∈ s.cur) {j : Job} (hpl : s.place t = .loop j) :
    Good (if j.secsDone < j.secCnt then do
        check .lba (j.lba + j.secsDone ≤ maxLba)
        return { s with expectingIntr := true }.setPlace t (.cmdOut j)
      else return s.setPlace t .relAssert) := by
  split
  · refine good_check_external rfl fun _ => ?_
    refine h.goOn hc (q := .cmdOut j) hpl rfl rfl ⟨rfl, rfl, rfl, rfl, rfl, rfl⟩ id fun hst => ?_
    have hidle : Idle false s := hst
    exact ⟨rfl, hidle.done, hidle.inFlight, hidle.issued, hidle.completed⟩
  · exact h.goOn_same hc hpl rfl rfl rfl id

private theorem good_cmdOut (h : Inv s) (hc : t ∈ s.cur) {j : Job} (hpl : s.place t = .cmdOut j) :
    Inv ({ s with inFlight := s.inFlight ++ [t], issued := s.issued ++ [t] }.setPlace t
      (if j.write then .writeData j else .doneDown j)) := by
  have hwait : ∀ {s' : Chan}, Idle true s → s'.expectingIntr = s.expectingIntr →
      s'.sema = s.sema → s'.inFlight = s.inFlight ++ [t] → s'.issued = s.issued ++ [t] →
      s'.completed = s.completed → s'.consumed = s.consumed → Waiting t [] s' := by
    intro s' hidle he hs hf hi hcm hcs
    refine ⟨he.trans hidle.expecting, by rw [hs, hidle.done], ?_, ?_, ?_⟩
    · rw [hf, hidle.inFlight]
      rfl
    · rw [hi, hcs, hidle.issued]
    · rw [hcm, hcs, hidle.completed]
  cases hw : j.write with
  | true =>
      refine h.goOn hc (q := .writeData j) hpl rfl rfl ⟨rfl, rfl, rfl, ?_, rfl, rfl⟩ id
        fun hst => Or.inl (hwait hst rfl rfl rfl rfl rfl rfl)
      rw [if_pos rfl]
      rfl
  | false =>
      refine h.goOn hc (q := .doneDown j) hpl rfl rfl ⟨rfl, rfl, rfl, ?_, rfl, rfl⟩ id
        fun hst => Or.inl (hwait hst rfl rfl rfl rfl rfl rfl)
      rw [if_neg (by decide)]
      rfl

private theorem good_run (h : Inv s) (hc : t ∈ s.cur) (hp : s.place t ≠ .outside) (ok : Bool) :
    Good (s.run t ok) := by
  rw [run]
  cases hpl : s.place t with
  | outside => exact absurd hpl hp
  | acqDown j => exact good_acquire h hc (by rw [hpl]; rfl) j
  | acqWait j => exact good_acquire h hc (by rw [hpl]; rfl) j
  | acqHolder j =>
      refine h.goOn hc (q := .acqAssert j) hpl rfl rfl ⟨rfl, rfl, rfl, rfl, rfl, rfl⟩ ?_ fun hst =>
        Stage.congr (p := .acqAssert j) hst ⟨rfl, rfl, rfl, rfl, rfl, rfl⟩
      intro hl
      change Lock.mk (some t) s.lock.holderRepeatNr = _
      rw [hl]
      rfl
  | acqAssert j =>
      obtain ⟨-, hl, -⟩ := h.owned_at hpl rfl
      refine good_check (by rw [hl]; rfl) ?_
      exact h.goOn_same hc hpl rfl rfl rfl id
  | acqRepeat j =>
      refine h.goOn hc (q := .loop j) hpl rfl rfl ⟨rfl, rfl, rfl, rfl, rfl, rfl⟩ ?_ fun hst =>
        Stage.congr (p := .loop j) hst ⟨rfl, rfl, rfl, rfl, rfl, rfl⟩
      intro hl
      change Lock.mk s.lock.holder 1 = _
      rw [hl]
      rfl
  | loop j => exact good_loop h hc hpl
  | cmdOut j => exact good_cmdOut h hc hpl
  | writeData j =>
      refine good_check_external rfl fun _ => ?_
      exact h.goOn_same hc hpl rfl rfl rfl id
  | doneDown j => exact good_downDone h hc (Or.inl hpl)
  | doneWait j => exact good_downDone h hc (Or.inr hpl)
  | readData j =>
      refine good_check_external rfl fun _ => ?_
      exact h.goOn_same hc hpl rfl rfl rfl id
  | relAssert =>
      obtain ⟨-, hl, -⟩ := h.owned_at hpl rfl
      refine good_check (by rw [hl]; rfl) ?_
      exact h.goOn_same hc hpl rfl rfl rfl id
  | relTest =>
      obtain ⟨-, hl, -⟩ := h.owned_at hpl rfl
      have hone : s.lock.holderRepeatNr = 1 := by rw [hl]; rfl
      change Good (if s.lock.holderRepeatNr > 1 then _ else _)
      rw [if_neg (by omega)]
      refine good_check hone ?_
      exact h.goOn_same hc hpl rfl rfl rfl id
  | relHolder =>
      refine h.goOn hc (q := .relRepeat) hpl rfl rfl ⟨rfl, rfl, rfl, rfl, rfl, rfl⟩ ?_ fun hst =>
        Stage.congr (p := .relRepeat) hst ⟨rfl, rfl, rfl, rfl, rfl, rfl⟩
      intro hl
      change Lock.mk none s.lock.holderRepeatNr = _
      rw [hl]
      rfl
  | relRepeat =>
      refine h.goOn hc (q := .relUp) hpl rfl rfl ⟨rfl, rfl, rfl, rfl, rfl, rfl⟩ ?_ fun hst =>
        Stage.congr (p := .relUp) hst ⟨rfl, rfl, rfl, rfl, rfl, rfl⟩
      intro hl
      change Lock.mk s.lock.holder 0 = _
      rw [hl]
      rfl
  | relUp => exact good_release h hpl

/-- Nothing of the lock or the channel depends on who runs. -/
private theorem Inv.reschedule (h : Inv s) {s' : Chan} (hs : Scheduled s')
    (hplace : s'.place = s.place)
    (hlock : s'.lock = s.lock) (hsema : s'.sema = s.sema) (hch : SameChannel s s') : Inv s' := by
  refine ⟨hs, ?_⟩
  rcases h.owned with hun | ⟨u, hu⟩
  · exact Or.inl ⟨hsema ▸ hun.value, hlock.trans hun.lock, hplace ▸ hun.free, hun.idle.congr hch⟩
  · refine Or.inr ⟨u, hsema ▸ hu.value, hplace ▸ hu.owner, ?_, hplace ▸ hu.others, ?_⟩
    · rw [hplace, hlock]
      exact hu.lock
    · rw [hplace]
      exact Stage.congr hu.stage hch

private theorem good_dispatch (h : Inv s) (ht : t ∈ s.ready) :
    Good (s.step (.dispatch t)) := by
  have hst : ∀ u, u ≠ t → Function.update s.status t TaskStatus.running u = s.status u :=
    fun u hu => Function.update_of_ne hu _ _
  have hready := h.scheduled.ready t ht
  refine h.reschedule (.of_waitLists ?_ ?_ ?_ fun i => ?_) rfl rfl rfl ⟨rfl, rfl, rfl, rfl, rfl, rfl⟩
  · intro u hu
    cases hu
    exact Function.update_self ..
  · exact h.scheduled.nodup.erase t
  · intro u hu
    obtain ⟨hne, hmem⟩ := (h.scheduled.nodup.mem_erase_iff).mp hu
    exact (hst u hne).trans (h.scheduled.ready u hmem)
  · refine (h.scheduled.waitList i).shrink (List.Sublist.refl _) (fun u hu => hst u ?_) rfl
    rintro rfl
    have hblocked := (h.scheduled.waitList i).blocked u hu
    rw [hready] at hblocked
    cases hblocked

private theorem good_preempt (h : Inv s) (hc : t ∈ s.cur) : Good (s.step .preempt) := by
  have hst : ∀ u, u ≠ t → Function.update s.status t TaskStatus.ready u = s.status u :=
    fun u hu => Function.update_of_ne hu _ _
  have hrun := h.scheduled.cur t hc
  have hnot : t ∉ s.ready := by
    intro hr
    have hready := h.scheduled.ready t hr
    rw [hrun] at hready
    cases hready
  rw [step, show s.cur = some t from hc]
  refine h.reschedule (.of_waitLists ?_ ?_ ?_ fun i => ?_) rfl rfl rfl ⟨rfl, rfl, rfl, rfl, rfl, rfl⟩
  · intro u hu
    cases hu
  · change (s.ready ++ [t]).Nodup
    rw [List.nodup_append]
    refine ⟨h.scheduled.nodup, List.nodup_singleton t, ?_⟩
    intro u hu v hv
    rw [List.mem_singleton] at hv
    rintro rfl
    exact hnot (hv ▸ hu)
  · intro u hu
    by_cases hut : u = t
    · subst hut
      exact Function.update_self ..
    · change u ∈ s.ready ++ [t] at hu
      rw [List.mem_append, List.mem_singleton] at hu
      exact (hst u hut).trans (h.scheduled.ready u (hu.resolve_right hut))
  · refine (h.scheduled.waitList i).shrink (List.Sublist.refl _) (fun u hu => hst u ?_) rfl
    rintro rfl
    exact h.scheduled.cur_not_waiting hc i hu

private theorem good_step (h : Inv s) {e : Event} (he : s.Enabled e) : Good (s.step e) := by
  cases e with
  | dispatch t => exact good_dispatch h he.2
  | preempt =>
      obtain ⟨t, hc, -⟩ := he
      exact good_preempt h hc
  | call j =>
      obtain ⟨-, t, hc, hp⟩ := he
      rw [step, show s.cur = some t from hc]
      exact good_call h hc hp j
  | run ok =>
      obtain ⟨t, hc, hp⟩ := he
      rw [step, show s.cur = some t from hc]
      exact good_run h hc hp ok
  | interrupt t => exact good_interrupt h he.1

end Steps

theorem reachable_inv {s : Chan} (h : channel.Reachable s) : Inv s := by
  refine h.invariant ?_ ?_
  · rintro s ⟨he, hd, hl, hlock, hcur, hn, hr, hp, hf, hi, hcm, hcs⟩
    have hwait : ∀ i, WaitList s i (waitPlace i) := by
      intro i
      have hnil : (s.sema i).waiters = [] := by
        cases i with
        | diskDone => rw [hd]
        | lock => rw [hl]
      refine ⟨by rw [hnil]; exact List.nodup_nil, ?_, ?_⟩
      all_goals
        intro t ht
        rw [hnil] at ht
        cases ht
    refine ⟨.of_waitLists ?_ hn hr hwait, Or.inl ⟨by rw [hl], hlock, ?_, ?_⟩⟩
    · intro t ht
      rw [hcur] at ht
      cases ht
    · intro u
      rw [hp u]
      rfl
    · exact ⟨he, hd, hf, hi.trans hcs.symm, hcm.trans hcs.symm⟩
  · rintro s e s' hinv ⟨hen, hstep⟩
    have hgood := good_step hinv hen
    rw [hstep] at hgood
    exact hgood

/-- Some thread's command is between the start of `cmd_out` and the return of `sema_down`. -/
def Outstanding (s : Chan) : Prop := ∃ t, (s.place t).outstanding = true

/-- What the stages say about the records of commands, interrupts and returns. -/
private theorem Inv.accounts {s : Chan} (h : Inv s) :
    s.completed.take s.consumed.length = s.consumed ∧
      s.completed.length = s.consumed.length + (s.sema .diskDone).value ∧
      s.issued = s.completed ++ s.inFlight ∧ (s.sema .diskDone).value ≤ 1 := by
  have hidle : ∀ flag, Idle flag s → s.completed.take s.consumed.length = s.consumed ∧
      s.completed.length = s.consumed.length + (s.sema .diskDone).value ∧
      s.issued = s.completed ++ s.inFlight ∧ (s.sema .diskDone).value ≤ 1 := by
    intro flag hi
    rw [hi.completed, hi.issued, hi.inFlight, hi.done]
    simp
  have hwaiting : ∀ t ws, Waiting t ws s → s.completed.take s.consumed.length = s.consumed ∧
      s.completed.length = s.consumed.length + (s.sema .diskDone).value ∧
      s.issued = s.completed ++ s.inFlight ∧ (s.sema .diskDone).value ≤ 1 := by
    intro t ws hw
    rw [hw.completed, hw.issued, hw.inFlight, hw.done]
    simp
  have hanswered : ∀ t, Answered t s → s.completed.take s.consumed.length = s.consumed ∧
      s.completed.length = s.consumed.length + (s.sema .diskDone).value ∧
      s.issued = s.completed ++ s.inFlight ∧ (s.sema .diskDone).value ≤ 1 := by
    intro t ha
    rw [ha.completed, ha.issued, ha.inFlight, ha.done]
    simp
  rcases h.owned with hun | ⟨u, hu⟩
  · exact hidle _ hun.idle
  · have hst := hu.stage
    cases hp : s.place u with
    | writeData j =>
        rw [hp] at hst
        exact hst.elim (hwaiting u _) (hanswered u)
    | doneDown j =>
        rw [hp] at hst
        exact hst.elim (hwaiting u _) (hanswered u)
    | doneWait j =>
        rw [hp] at hst
        exact hst.elim (hwaiting u _) (hanswered u)
    | _ =>
        rw [hp] at hst
        exact hidle _ hst

theorem Inv.quiet {s : Chan} (h : Inv s) (hq : ¬ s.Outstanding) :
    s.expectingIntr = false ∧ (s.sema .diskDone).value = 0 := by
  have hidle : Idle false s := by
    rcases h.owned with hun | ⟨u, hu⟩
    · exact hun.idle
    · have hst := hu.stage
      have hnot : (s.place u).outstanding ≠ true := fun ho => hq ⟨u, ho⟩
      cases hp : s.place u with
      | cmdOut j => exact absurd (by rw [hp]; rfl) hnot
      | writeData j => exact absurd (by rw [hp]; rfl) hnot
      | doneDown j => exact absurd (by rw [hp]; rfl) hnot
      | doneWait j => exact absurd (by rw [hp]; rfl) hnot
      | _ =>
          rw [hp] at hst
          exact hst
  exact ⟨hidle.expecting, by rw [hidle.done]⟩

/-- The state after an event, if it can happen and fails no check. -/
def next (s : Chan) (e : Event) : Option Chan :=
  if s.Enabled e then (s.step e).toOption else none

theorem next_step {s s' : Chan} {e : Event} (h : s.next e = some s') : channel.step s e s' := by
  rw [next] at h
  split at h
  · rename_i hen
    cases hs : s.step e with
    | error f => rw [hs] at h; cases h
    | ok s₁ =>
        rw [hs] at h
        cases h
        exact ⟨hen, hs⟩
  · cases h

end Chan

/-- The handshake, in every run of any number of threads.  The returns of `sema_down` on
`disk_done` follow the interrupts one by one, each return by the thread whose command the
interrupt answers; what has been answered and not consumed is the value of the semaphore, and
what has been issued and not answered is in flight.  No assertion of the synchronisation fails,
and between commands the flag is down and the semaphore is zero. -/
theorem disk_handshake {s : Chan} (h : channel.Reachable s) :
    s.completed.take s.consumed.length = s.consumed ∧
    s.completed.length = s.consumed.length + (s.sema .diskDone).value ∧
    s.issued = s.completed ++ s.inFlight ∧
    (s.sema .diskDone).value ≤ 1 ∧
    (∀ e f, s.Enabled e → s.step e = .error f → f.external = true) ∧
    (¬ s.Outstanding → s.expectingIntr = false ∧ (s.sema .diskDone).value = 0) := by
  have hinv := Chan.reachable_inv h
  obtain ⟨horder, hcount, hissued, hvalue⟩ := hinv.accounts
  refine ⟨horder, hcount, hissued, hvalue, ?_, hinv.quiet⟩
  intro e f he hf
  have hgood := Chan.good_step hinv he
  rw [hf] at hgood
  exact hgood

/-- A thread reads one sector and comes to `sema_down` after the interrupt. -/
theorem disk_handshake_read : ∃ s, channel.Reachable s ∧ s.issued = [0] ∧ s.completed = [0] ∧
    s.consumed = [0] ∧ s.completed.length = s.consumed.length + (s.sema .diskDone).value ∧
    (s.sema .diskDone).value ≤ 1 := by
  let start : Chan := ⟨false, fun i => if i = .lock then ⟨1, []⟩ else ⟨0, []⟩, ⟨none, 0⟩, none,
    [0, 1], fun _ => .ready, fun _ => .outside, [], [], [], []⟩
  let es : List Event := [.dispatch 0, .call ⟨false, false, 5, 1, 0⟩] ++
    List.replicate 6 (.run true) ++ [.interrupt 0, .run true]
  have hrun : (es.foldlM Chan.next start).map (fun s => (s.issued, s.completed, s.consumed)) =
      some ([0], [0], [0]) := by decide +kernel
  obtain ⟨s, hs, hv⟩ := Option.map_eq_some_iff.mp hrun
  simp only [Prod.mk.injEq] at hv
  obtain ⟨hissued, hcompleted, hconsumed⟩ := hv
  have hinit : channel.init start :=
    ⟨rfl, rfl, rfl, rfl, rfl, by decide, fun _ _ => rfl, fun _ => rfl, rfl, rfl, rfl, rfl⟩
  have hr : channel.Reachable s := .replay (fun _ _ _ _ => Chan.next_step) (.init hinit) hs
  have h := disk_handshake hr
  exact ⟨s, hr, hissued, hcompleted, hconsumed, h.2.1, h.2.2.2.1⟩

end Aitos.Drivers.Ide
