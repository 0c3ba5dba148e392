import Aitos.Sched.Pid

/-!
# The numbers `allocate_pid` returns

Between its `lock_release` and the read of its `return` a call can be preempted by another one
that counts.  As long as that does not happen every call returns a number of its own.
-/

namespace Aitos.Sched

open Framework

/-- Thread `t` has counted and not yet read what it returns. -/
def PidState.Pending (s : PidState) (t : Tid) : Prop :=
  s.phase t = some .release ∨ s.phase t = some .ret

/-- A thread counts only while no other stands between its own count and its return. -/
def countsAlone (s : PidState) : PidEvent → Prop
  | .allocate => ∀ n, s.phase s.kernel.cur = some (.store n) → ∀ t, ¬ s.Pending t
  | .kernel _ => True

/-- Thread `t` has called `allocate_pid` and not yet counted. -/
def PidState.Waiting (s : PidState) (t : Tid) : Prop :=
  s.phase t = some .load ∨ ∃ n, s.phase t = some (.store n)

/-- The numbers given out so far, while the counter has not wrapped.  `waiting` holds the calls
that have not counted yet. -/
structure Numbered (s : PidState) : Prop where
  count : ∃ (n : Nat) (waiting : Finset Tid), s.nextPid = n ∧ (∀ t, s.Waiting t → t ∈ waiting) ∧
    n + waiting.card ≤ s.calls
  bound : ∀ r ∈ s.returned, r ≤ s.nextPid
  nodup : s.returned.Nodup
  pending : ∀ t u, s.Pending t → s.Pending u → t = u
  fresh : ∀ t, s.Pending t → s.nextPid ∉ s.returned

section Numbers

variable {s s' : PidState}

theorem Numbered.congr (h : Numbered s) (hn : s'.nextPid = s.nextPid)
    (hp : ∀ t, s'.Pending t → s.Pending t) (hw : ∀ t, s'.Waiting t → s.Waiting t)
    (hr : s'.returned = s.returned) (hc : s'.calls = s.calls) : Numbered s' := by
  obtain ⟨n, waiting, hnext, hmem, hle⟩ := h.count
  refine ⟨⟨n, waiting, hn.trans hnext, fun t ht => hmem t (hw t ht), by rw [hc]; exact hle⟩, ?_, ?_,
    fun t u ht hu => h.pending t u (hp t ht) (hp u hu), ?_⟩
  · rw [hr, hn]
    exact h.bound
  · rw [hr]
    exact h.nodup
  · rw [hr, hn]
    exact fun t ht => h.fresh t (hp t ht)

private theorem pending_setPhase {p : Option PidPhase} {t : Tid} (hp : p ≠ some .release)
    (hr : p ≠ some .ret) (h : (s.setPhase p).Pending t) : s.Pending t ∧ t ≠ s.kernel.cur := by
  have ht : t ≠ s.kernel.cur := by
    rintro rfl
    rcases h with h | h
    · exact hp (by rw [← h, setPhase_cur])
    · exact hr (by rw [← h, setPhase_cur])
  rw [PidState.Pending, setPhase_of_ne s p ht] at h
  exact ⟨h, ht⟩

private theorem waiting_setPhase {p : Option PidPhase} {t : Tid} (hl : p ≠ some .load)
    (hs : ∀ n, p ≠ some (.store n)) (h : (s.setPhase p).Waiting t) :
    s.Waiting t ∧ t ≠ s.kernel.cur := by
  have ht : t ≠ s.kernel.cur := by
    rintro rfl
    rcases h with h | ⟨n, h⟩
    · exact hl (by rw [← h, setPhase_cur])
    · exact hs n (by rw [← h, setPhase_cur])
  rw [PidState.Waiting, setPhase_of_ne s p ht] at h
  exact ⟨h, ht⟩

theorem Numbered.enter (h : Numbered s) (k' : Kernel) :
    Numbered { s.setPhase (some .load) with kernel := k', calls := s.calls + 1 } := by
  obtain ⟨n, waiting, hnext, hmem, hle⟩ := h.count
  have hpend : ∀ t, (s.setPhase (some .load)).Pending t → s.Pending t :=
    fun t ht => (pending_setPhase (by simp) (by simp) ht).1
  refine ⟨⟨n, insert s.kernel.cur waiting, hnext, ?_, ?_⟩, h.bound, h.nodup,
    fun t u ht hu => h.pending t u (hpend t ht) (hpend u hu), fun t ht => h.fresh t (hpend t ht)⟩
  · intro t ht
    by_cases hc : t = s.kernel.cur
    · rw [hc]
      exact Finset.mem_insert_self _ _
    · refine Finset.mem_insert_of_mem (hmem t ?_)
      change (s.setPhase (some .load)).Waiting t at ht
      rwa [PidState.Waiting, setPhase_of_ne s _ hc] at ht
  · have hcard := Finset.card_insert_le s.kernel.cur waiting
    change n + (insert s.kernel.cur waiting).card ≤ s.calls + 1
    omega

/-- The count: with no other thread about to return, the new number has not been given out. -/
theorem Numbered.store (h : Numbered s) {n : Int} (hp : s.phase s.kernel.cur = some (.store n))
    (hn : n = s.nextPid) (halone : ∀ t, ¬ s.Pending t) (hc : s.calls < 32768) :
    Numbered { s.setPhase (some .release) with nextPid := Int.bmod (n + 1) (2 ^ 16) } := by
  obtain ⟨m, waiting, hnext, hmem, hle⟩ := h.count
  have hcur : s.kernel.cur ∈ waiting := hmem _ (Or.inr ⟨n, hp⟩)
  have hcard := Finset.card_erase_add_one hcur
  have hsucc : Int.bmod (n + 1) (2 ^ 16) = (m + 1 : Nat) := by
    rw [hn, hnext]
    have hlt : m + 1 < 32768 := by omega
    rw [Int.bmod_def]
    omega
  have hpend : ∀ t, (s.setPhase (some .release)).Pending t → t = s.kernel.cur := by
    intro t ht
    by_contra hne
    rw [PidState.Pending, setPhase_of_ne s _ hne] at ht
    exact halone t ht
  refine ⟨⟨m + 1, waiting.erase s.kernel.cur, hsucc, ?_, ?_⟩, ?_, h.nodup,
    fun t u ht hu => (hpend t ht).trans (hpend u hu).symm, ?_⟩
  · intro t ht
    obtain ⟨hw, hne⟩ := waiting_setPhase (by simp) (by simp) ht
    exact Finset.mem_erase.mpr ⟨hne, hmem t hw⟩
  · change m + 1 + (waiting.erase s.kernel.cur).card ≤ s.calls
    omega
  · intro r hr
    have hb := h.bound r hr
    change r ≤ Int.bmod (n + 1) (2 ^ 16)
    rw [hsucc]
    omega
  · intro t _ hr
    have hb := h.bound _ hr
    change Int.bmod (n + 1) (2 ^ 16) ≤ s.nextPid at hb
    rw [hsucc] at hb
    omega

theorem Numbered.ret (h : Numbered s) (hp : s.phase s.kernel.cur = some .ret) :
    Numbered { s.setPhase none with returned := s.nextPid :: s.returned } := by
  obtain ⟨n, waiting, hnext, hmem, hle⟩ := h.count
  have hnone : ∀ t, ¬ (s.setPhase none).Pending t := by
    intro t ht
    obtain ⟨hs, hne⟩ := pending_setPhase (by simp) (by simp) ht
    exact hne (h.pending t _ hs (Or.inr hp))
  refine ⟨⟨n, waiting, hnext, fun t ht => hmem t (waiting_setPhase (by simp) (by simp) ht).1, hle⟩,
    ?_, List.nodup_cons.mpr ⟨h.fresh _ (Or.inr hp), h.nodup⟩, fun t _ ht => absurd ht (hnone t),
    fun t ht => absurd ht (hnone t)⟩
  intro r hr
  rcases List.mem_cons.mp hr with rfl | hr
  · exact le_refl _
  · exact h.bound r hr

theorem Numbered.allocate (h : Numbered s) (hinv : PidInv s) (hs : Allocates s s')
    (halone : countsAlone s .allocate) (hc : s.calls < 32768) : Numbered s' := by
  cases hs with
  | enter hp hk => exact h.enter _
  | load hp =>
      refine h.congr rfl (fun t ht => (pending_setPhase (by simp) (by simp) ht).1) ?_ rfl rfl
      intro t ht
      by_cases hcur : t = s.kernel.cur
      · rw [hcur]
        exact Or.inl hp
      · rwa [PidState.Waiting, setPhase_of_ne s _ hcur] at ht
  | store n hp => exact h.store hp (hinv.loaded _ _ hp) (halone n hp) hc
  | release hp hk =>
      refine h.congr rfl ?_ (fun t ht => (waiting_setPhase (by simp) (by simp) ht).1) rfl rfl
      intro t ht
      by_cases hcur : t = s.kernel.cur
      · rw [hcur]
        exact Or.inl hp
      · change (s.setPhase (some .ret)).Pending t at ht
        rwa [PidState.Pending, setPhase_of_ne s _ hcur] at ht
  | ret hp => exact h.ret hp

end Numbers

/-- The state `thread_init` leaves, with the PCBs `0`, `1` and `2`. -/
def pidBooted : PidState := ⟨booted 0 1 2 (fun _ => 1), 3, fun _ => none, [3, 2, 1], 3⟩

private theorem pidBooted_init : pidSystem.init pidBooted := ⟨booted_init, rfl, rfl, rfl, rfl⟩

/-- The state after an event, if it can happen and trips no assertion. -/
def PidState.next (s : PidState) (e : PidEvent) : Option PidState :=
  if s.Enabled e then (s.step e).toOption else none

theorem PidState.next_step {s s' : PidState} {e : PidEvent} (h : s.next e = some s') :
    pidSystem.step s e s' := by
  rw [PidState.next] at h
  split at h
  · rename_i hen
    cases hs : s.step e with
    | error a => rw [hs] at h; cases h
    | ok s₁ =>
        rw [hs] at h
        cases h
        exact ⟨hen, hs⟩
  · cases h

/-- The same, when no thread in `thread_all_list` is about to return a number. -/
def PidState.nextAlone (s : PidState) (e : PidEvent) : Option PidState :=
  if (s.phase s.kernel.cur).any (fun p => p matches .store _) = true →
      ∀ t ∈ s.kernel.tasks, s.phase t ≠ some .release ∧ s.phase t ≠ some .ret then s.next e
  else none

private theorem PidState.nextAlone_step {s s' : PidState} {e : PidEvent} (hinv : PidInv s)
    (h : s.nextAlone e = some s') : (pidSystem.restrict countsAlone).step s e s' := by
  rw [PidState.nextAlone] at h
  split at h
  · rename_i hquiet
    refine ⟨?_, PidState.next_step h⟩
    cases e with
    | kernel e => trivial
    | allocate =>
        intro n hn t ht
        have hmem : t ∈ s.kernel.tasks := by
          apply hinv.member
          rcases ht with ht | ht <;> simp [ht]
        have hno := hquiet (by rw [hn]; rfl) t hmem
        rcases ht with ht | ht
        · exact hno.1 ht
        · exact hno.2 ht
  · cases h

/-- `allocate_pid` up to its `return`, undisturbed. -/
def allocateCall : List PidEvent :=
  .allocate :: List.replicate 4 (.kernel .resume) ++ List.replicate 3 .allocate ++
    List.replicate 5 (.kernel .resume)

/-- No number is given out twice in the first 32767 calls, in every run in which no thread
counts while another is between its own count and its return. -/
theorem pids_distinct {s : PidState} (h : (pidSystem.restrict countsAlone).Reachable s)
    (hc : s.calls < 32768) : s.returned.Nodup := by
  have hnum : s.calls < 32768 → Numbered s := by
    refine h.invariant_of (P := fun s => s.calls < 32768 → Numbered s) (Q := PidInv)
      (fun _ hr => Reachable.pidInv hr.of_restrict) ?_ ?_
    · rintro s₀ ⟨-, hnext, hphase, hret, hcalls⟩ -
      have hp : ∀ t, ¬ s₀.Pending t := by simp [PidState.Pending, hphase]
      have hw : ∀ t, ¬ s₀.Waiting t := by simp [PidState.Waiting, hphase]
      refine ⟨⟨3, ∅, hnext, fun t ht => absurd ht (hw t), by rw [hcalls]; rfl⟩, ?_, ?_,
        fun t _ ht => absurd ht (hp t), fun t ht => absurd ht (hp t)⟩
      · rw [hret, hnext]
        decide
      · rw [hret]
        decide
    · rintro s₀ e s₁ hinv hnum ⟨halone, hs⟩ hlt
      rcases step_cases hs with ⟨rfl, hen, ha⟩ | ⟨e', k', -, hen, hk, rfl⟩
      · have hmono : s₀.calls ≤ s₁.calls := by
          cases ha with
          | enter hp hk => exact Nat.le_succ _
          | _ => exact le_refl _
        have hlt₀ : s₀.calls < 32768 := by omega
        exact (hnum hlt₀).allocate hinv ha halone hlt₀
      · exact (hnum hlt).congr rfl (fun _ ht => ht) (fun _ ht => ht) rfl rfl
  exact (hnum hc).nodup

/-- A call that nobody disturbs returns the next number. -/
theorem pids_distinct_one_call : ∃ s, (pidSystem.restrict countsAlone).Reachable s ∧
    s.returned = [4, 3, 2, 1] ∧ s.returned.Nodup := by
  have hrun : ((allocateCall ++ [PidEvent.allocate]).foldlM PidState.nextAlone pidBooted).map
      (fun s => (s.calls, s.returned)) = some (4, [4, 3, 2, 1]) := by decide +kernel
  obtain ⟨s, hs, hv⟩ := Option.map_eq_some_iff.mp hrun
  simp only [Prod.mk.injEq] at hv
  have hr : (pidSystem.restrict countsAlone).Reachable s :=
    .replay (fun _ _ _ hr hn => PidState.nextAlone_step (Reachable.pidInv hr.of_restrict) hn)
      (.init pidBooted_init) hs
  exact ⟨s, hr, hv.2, pids_distinct hr (by rw [hv.1]; decide)⟩

/-- A thread that is preempted after `lock_release` reads the number of the one that counted
meanwhile: both return 5. -/
theorem two_calls_return_one_pid :
    ∃ s, pidSystem.Reachable s ∧ s.calls < 32768 ∧ ¬ s.returned.Nodup := by
  let es : List PidEvent := allocateCall ++ List.replicate 32 (.kernel .timer) ++ allocateCall ++
    [.allocate, .kernel .yield, .kernel (.block .blocked), .allocate]
  have hrun : (es.foldlM PidState.next pidBooted).map (fun s => (s.calls, s.returned)) =
      some (5, [5, 5, 3, 2, 1]) := by decide +kernel
  obtain ⟨s, hs, hv⟩ := Option.map_eq_some_iff.mp hrun
  simp only [Prod.mk.injEq] at hv
  refine ⟨s, .replay (fun _ _ _ _ => PidState.next_step) (.init pidBooted_init) hs, ?_, ?_⟩
  · rw [hv.1]
    decide
  · rw [hv.2]
    decide

end Aitos.Sched
