import Mathlib

/-!
# Searching a bitmap

A bitmap is a function from positions to bits.  `firstClear` is the first clear bit of a range,
`scanRun` the first run of clear bits that a counting scan meets.
-/

namespace Aitos.Framework

/-- The first clear bit from `i` on among `n` bits. -/
def firstClear (b : Nat → Bool) (i : Nat) : Nat → Option Nat
  | 0 => none
  | n + 1 => if b i then firstClear b (i + 1) n else some i

theorem firstClear_some {b : Nat → Bool} {n : Nat} : ∀ {i j : Nat}, firstClear b i n = some j →
    i ≤ j ∧ j < i + n ∧ b j = false := by
  induction n with
  | zero =>
      intro i j h
      cases h
  | succ n ih =>
      intro i j h
      rw [firstClear] at h
      split at h
      · obtain ⟨h₁, h₂, h₃⟩ := ih h
        exact ⟨by omega, by omega, h₃⟩
      · rename_i hb
        cases h
        exact ⟨le_rfl, by omega, by simpa using hb⟩

theorem firstClear_of_clear {b : Nat → Bool} {j : Nat} (n : Nat) : ∀ {i : Nat}, i ≤ j → j < i + n →
    b j = false → ∃ k, firstClear b i n = some k := by
  induction n with
  | zero =>
      intro i hi hj
      omega
  | succ n ih =>
      intro i hi hj hb
      rw [firstClear]
      split
      · rename_i hset
        have hne : i ≠ j := fun h => by
          rw [h, hb] at hset
          cases hset
        exact ih (by omega) (by omega) hb
      · exact ⟨i, rfl⟩

/-- Look for `cnt` clear bits in a row, `count` of which end right before `next`, in the next
`left` bits. -/
def scanRun (b : Nat → Bool) (cnt : Nat) : Nat → Nat → Nat → Option Nat
  | 0, _, _ => none
  | left + 1, next, count =>
      let count := if b next then 0 else count + 1
      if count = cnt then some (next + 1 - cnt) else scanRun b cnt left (next + 1) count

theorem scanRun_some {b : Nat → Bool} {cnt : Nat} (left : Nat) : ∀ {next count i : Nat},
    count ≤ next → (∀ j, next - count ≤ j → j < next → b j = false) →
    scanRun b cnt left next count = some i → ∀ j, i ≤ j → j < i + cnt → b j = false := by
  induction left with
  | zero =>
      intro next count i _ _ h
      cases h
  | succ left ih =>
      intro next count i hcount hclear h
      -- the run of clear bits that ends with `next`
      obtain ⟨c, hc⟩ : ∃ c, c = if b next then 0 else count + 1 := ⟨_, rfl⟩
      have hle : c ≤ next + 1 := by
        rw [hc]
        split <;> omega
      have hrun : ∀ j, next + 1 - c ≤ j → j < next + 1 → b j = false := by
        intro j hj hj'
        cases hb : b next with
        | true =>
            simp [hb] at hc
            omega
        | false =>
            simp [hb] at hc
            by_cases hjn : j = next
            · exact hjn ▸ hb
            · exact hclear j (by omega) (by omega)
      simp only [scanRun, ← hc] at h
      split at h
      · rename_i hcnt
        cases h
        intro j hj hj'
        exact hrun j (by omega) (by omega)
      · exact ih hle hrun h

theorem firstClear_first {b : Nat → Bool} {n : Nat} : ∀ {i j k : Nat}, firstClear b i n = some j →
    i ≤ k → k < j → b k = true := by
  induction n with
  | zero =>
      intro i j k h
      cases h
  | succ n ih =>
      intro i j k h hi hk
      rw [firstClear] at h
      split at h
      · rename_i hset
        rcases hi.eq_or_lt with rfl | hlt
        · exact hset
        · exact ih h hlt hk
      · cases h
        omega

theorem firstClear_none {b : Nat → Bool} {n i : Nat} (h : ∀ k, i ≤ k → k < i + n → b k = true) :
    firstClear b i n = none := by
  cases hf : firstClear b i n with
  | none => rfl
  | some j =>
      obtain ⟨hi, hj, hclear⟩ := firstClear_some hf
      rw [h j hi hj] at hclear
      cases hclear

theorem firstClear_eq {b : Nat → Bool} {n i j : Nat} (hi : i ≤ j) (hj : j < i + n)
    (hclear : b j = false) (hbefore : ∀ k, i ≤ k → k < j → b k = true) :
    firstClear b i n = some j := by
  obtain ⟨k, hk⟩ := firstClear_of_clear n hi hj hclear
  obtain ⟨hik, -, hkclear⟩ := firstClear_some hk
  rcases Nat.lt_trichotomy k j with hlt | rfl | hgt
  · rw [hbefore k hik hlt] at hkclear
    cases hkclear
  · exact hk
  · rw [firstClear_first hk hi hgt] at hclear
    cases hclear

theorem scanRun_inside {b : Nat → Bool} {cnt : Nat} (left : Nat) : ∀ {next count i : Nat},
    count ≤ next → scanRun b cnt left next count = some i → i + cnt ≤ next + left := by
  induction left with
  | zero =>
      intro next count i _ h
      cases h
  | succ left ih =>
      intro next count i hcount h
      obtain ⟨c, hc⟩ : ∃ c, c = if b next then 0 else count + 1 := ⟨_, rfl⟩
      have hle : c ≤ next + 1 := by
        rw [hc]
        split <;> omega
      simp only [scanRun, ← hc] at h
      split at h
      · cases h
        omega
      · have hend := ih hle h
        omega

/-- `cnt` clear bits in a row start at `i`. -/
def IsRun (b : Nat → Bool) (cnt i : Nat) : Prop := ∀ j, i ≤ j → j < i + cnt → b j = false

/-- When no run starts before the clear bits counted so far, the run found is the first one, and
without one all runs end behind the bits looked at. -/
theorem scanRun_first {b : Nat → Bool} {cnt : Nat} (left : Nat) : ∀ {next count : Nat},
    count < cnt → count ≤ next → (∀ i, IsRun b cnt i → next - count ≤ i) →
    (∀ i, scanRun b cnt left next count = some i → ∀ i', IsRun b cnt i' → i ≤ i') ∧
      (scanRun b cnt left next count = none → ∀ i, IsRun b cnt i → next + left < i + cnt) := by
  induction left with
  | zero =>
      intro next count hcount hle hmin
      constructor
      · intro i h
        cases h
      · intro _ i hi
        have hge := hmin i hi
        omega
  | succ left ih =>
      intro next count hcount hle hmin
      obtain ⟨c, hc⟩ : ∃ c, c = if b next then 0 else count + 1 := ⟨_, rfl⟩
      have hmin' : ∀ i, IsRun b cnt i → next + 1 - c ≤ i := by
        intro i hi
        have hge := hmin i hi
        cases hb : b next with
        | false =>
            simp [hb] at hc
            omega
        | true =>
            -- a run that starts at `next` or before would contain it
            simp [hb] at hc
            by_contra hlt
            have hclear := hi next (by omega) (by omega)
            rw [hb] at hclear
            cases hclear
      have hc' : c ≤ next + 1 ∧ c ≤ cnt := by
        rw [hc]
        split <;> omega
      simp only [scanRun, ← hc]
      by_cases hfound : c = cnt
      · rw [if_pos hfound]
        refine ⟨fun i h => ?_, fun h => by cases h⟩
        cases h
        rw [← hfound]
        exact fun i' hi' => hmin' i' (hfound ▸ hi')
      · rw [if_neg hfound]
        obtain ⟨hsome, hnone⟩ := ih (by omega) hc'.1 hmin'
        refine ⟨hsome, fun h i hi => ?_⟩
        have hend := hnone h i hi
        omega

/-- Set `n` bits from `i` on. -/
def setBits (b : Nat → Bool) (i n : Nat) (v : Bool) : Nat → Bool :=
  fun j => if i ≤ j ∧ j < i + n then v else b j

end Aitos.Framework
