import Aitos.Mm.Memory

/-!
# The page allocator

`malloc_page` gives out runs of pages of the virtual bitmap and maps each page to a frame of the
pool of its context; `mfree_page` takes a run back.  `Pages` is what they keep: the bitmaps are
those of the start together with the runs that are out and their frames.
-/

namespace Aitos.Mm

open Framework

/-- The page number and the address of bit `v` of the virtual bitmap. -/
def Context.page (c : Context) (v : Nat) : Nat := c.vaddrStart / 4096 + v
def Context.addr (c : Context) (v : Nat) : Nat := c.vaddrStart + v * 4096

/-- The page table entry of frame `i` of the pool of the context. -/
def Context.entry (c : Context) (i : Nat) : Nat := i * 4096 + c.poolStart c.user + 7

/-- The pages `v` with `mapped v` have frames of their own, which `h₀` has free. -/
structure Frames (c : Context) (h₀ h : Heap) (mapped : Nat → Prop) : Prop where
  frame : ∀ v, mapped v →
    ∃ i < c.poolLen c.user, h₀.pool c.user i = false ∧ h.pte (c.page v) = c.entry i
  inj : ∀ v w, mapped v → mapped w → h.pte (c.page v) = h.pte (c.page w) → v = w
  pool : ∀ i, h.pool c.user i = true ↔
    h₀.pool c.user i = true ∨ ∃ v, mapped v ∧ h.pte (c.page v) = c.entry i
  present : ∀ v, mapped v → h.pde (c.page v / 1024) = true
  free : ∀ v < c.vaddrLen, ¬ mapped v → h₀.vaddrBitmap v = false → h.pte (c.page v) % 2 = 0
  kernel : c.user = false → ∀ v < c.vaddrLen, h.pde (c.page v / 1024) = true

/-- Page `v` is in one of the runs, given as first page and length. -/
def Covered (runs : List (Nat × Nat)) (v : Nat) : Prop := ∃ r ∈ runs, r.1 ≤ v ∧ v < r.1 + r.2

/-- Two runs have no page in common. -/
def ApartRuns (r r' : Nat × Nat) : Prop := r.1 + r.2 ≤ r'.1 ∨ r'.1 + r'.2 ≤ r.1

structure Pages (c : Context) (h₀ h : Heap) (runs : List (Nat × Nat)) : Prop where
  inside : ∀ r ∈ runs, 0 < r.2 ∧ r.1 + r.2 ≤ c.vaddrLen
  apart : runs.Pairwise ApartRuns
  bitmap : ∀ v, h.vaddrBitmap v = true ↔ h₀.vaddrBitmap v = true ∨ Covered runs v
  fresh : ∀ v, Covered runs v → h₀.vaddrBitmap v = false
  frames : Frames c h₀ h (Covered runs)

/-- The stops of a call that wants more pages than there are. -/
def OutOfPages (e : Stop) : Prop := e = .noPages ∨ e = .pastEnd

private theorem outOfPages : OutOfPages .noPages := .inl rfl

theorem Pages.setMem {c : Context} {h₀ h : Heap} {runs : List (Nat × Nat)}
    (hp : Pages c h₀ h runs) (m : Words) : Pages c h₀ (h.setMem m) runs :=
  ⟨hp.inside, hp.apart, hp.bitmap, hp.fresh, ⟨hp.frames.frame, hp.frames.inj, hp.frames.pool,
    hp.frames.present, hp.frames.free, hp.frames.kernel⟩⟩

section Context

variable (c : Context) {h₀ h h' : Heap}

private theorem Context.addr_page (v : Nat) : c.addr v / 4096 = c.page v := by
  have := c.vaddrAligned
  rw [Context.addr, Context.page]
  omega

private theorem Context.addr_table (v : Nat) : c.addr v / 2 ^ 22 = c.page v / 1024 := by
  rw [← c.addr_page, Nat.div_div_eq_div_mul]
  norm_num

private theorem Context.page_inj {v w : Nat} (h : c.page v = c.page w) :
    v = w :=
  Nat.add_left_cancel h

private theorem Context.entry_inj {i j : Nat} (h : c.entry i = c.entry j) : i = j := by
  rw [Context.entry, Context.entry] at h
  omega

@[simp]
theorem wp_assert {p : Prop} [Decidable p] {e : Stop} {E : Stop → Prop}
    {Q : Unit → Heap → Prop} : wp (c.assert p e) E Q h ↔
      if c.ndebug = true ∨ p then Q () h else E e := by
  rw [Context.assert]
  split <;> rfl

theorem wp_assert_of {p : Prop} [Decidable p] {e : Stop} {E : Stop → Prop}
    {Q : Unit → Heap → Prop} (hp : p) (hQ : Q () h) : wp (c.assert p e) E Q h := by
  rw [wp_assert, if_pos (.inr hp)]
  exact hQ

theorem wp_assert_stop {p : Prop} [Decidable p] {e : Stop} {E : Stop → Prop}
    {Q : Unit → Heap → Prop} (he : E e) (hQ : Q () h) : wp (c.assert p e) E Q h := by
  rw [wp_assert]
  split
  · exact hQ
  · exact he

private theorem bitmapScan_spec {bits : Nat → Bool} {len cnt : Nat} :
    wp (c.bitmapScan bits len cnt) OutOfPages
      (fun r h' => h' = h ∧ ∀ i, r = some i → (cnt = 1 → i < len) ∧
        ∀ j, i ≤ j → j < i + cnt → bits j = false) h := by
  rw [Context.bitmapScan]
  cases hfirst : firstClear bits 0 len with
  | none =>
      rw [wp_bind]
      apply wp_assert_stop c outOfPages
      exact ⟨rfl, fun i hi => by cases hi⟩
  | some start =>
      obtain ⟨-, hlt, hclear⟩ := firstClear_some hfirst
      refine ⟨rfl, fun i hi => ?_⟩
      split at hi
      · cases hi
        refine ⟨fun _ => by omega, fun j hj hj' => ?_⟩
        obtain rfl : j = start := by omega
        exact hclear
      · refine ⟨fun h => by contradiction, ?_⟩
        refine scanRun_some _ (by omega) (fun j hj hj' => ?_) hi
        obtain rfl : j = start := by omega
        exact hclear

/-- The heap with one more frame in use. -/
def Heap.usePool (h : Heap) (user : Bool) (i : Nat) : Heap :=
  { h with pool := Function.update h.pool user (Function.update (h.pool user) i true) }

private theorem palloc_spec (user : Bool) :
    wp (palloc c user) OutOfPages
      (fun r h' => ∀ phys, r = some phys → ∃ i < c.poolLen user, h.pool user i = false ∧
        phys = i * 4096 + c.poolStart user ∧ h' = h.usePool user i) h := by
  rw [palloc, wp_bind, wp_get, wp_bind]
  refine wp_mono (bitmapScan_spec c) ?_
  rintro r h' ⟨rfl, hr⟩
  cases r with
  | none =>
      intro phys hphys
      cases hphys
  | some i =>
      obtain ⟨hlt, hclear⟩ := hr i rfl
      intro phys hphys
      cases hphys
      exact ⟨i, hlt rfl, hclear i le_rfl (by omega), rfl, rfl⟩

/-- What `page_table_add` does: it maps page `p`, and may clear the entries of a page table that
was not present before. -/
structure Mapped (c : Context) (h h' : Heap) (p phys : Nat) : Prop where
  mem : h'.mem = h.mem
  vaddrBitmap : h'.vaddrBitmap = h.vaddrBitmap
  pool : h'.pool c.user = h.pool c.user
  pde : ∀ t, h.pde t = true → h'.pde t = true
  present : h'.pde (p / 1024) = true
  self : h'.pte p = phys + 7
  kept : ∀ q, q ≠ p → h.pde (q / 1024) = true → h'.pte q = h.pte q
  other : ∀ q, q ≠ p → h'.pte q = h.pte q ∨ h'.pte q = 0

private theorem pageTableAdd_spec {v phys : Nat} (hfree : h.pte (c.page v) % 2 = 0)
    (hkernel : c.user = false → h.pde (c.page v / 1024) = true) :
    wp (pageTableAdd c (c.addr v) phys) OutOfPages
      (fun _ h' => Mapped c h h' (c.page v) phys) h := by
  rw [pageTableAdd, wp_bind, wp_get, c.addr_page, c.addr_table]
  by_cases hpde : h.pde (c.page v / 1024) = true
  · rw [if_pos hpde, if_pos hfree, wp_modify]
    exact
      { mem := rfl
        vaddrBitmap := rfl
        pool := rfl
        pde := fun _ ht => ht
        present := hpde
        self := Function.update_self _ _ _
        kept := fun q hq _ => Function.update_of_ne hq _ _
        other := fun q hq => .inl (Function.update_of_ne hq _ _) }
  · have huser : c.user = true := by
      by_contra hu
      exact hpde (hkernel (by simpa using hu))
    rw [if_neg hpde, wp_bind]
    refine wp_mono (palloc_spec c false) ?_
    intro r h₁ hr
    cases r with
    | none => exact outOfPages
    | some x =>
        obtain ⟨i, -, -, -, rfl⟩ := hr x rfl
        simp only [wp_bind, wp_modify]
        refine
          { mem := rfl
            vaddrBitmap := rfl
            pool := ?_
            pde := fun t ht => ?_
            present := Function.update_self _ _ _
            self := Function.update_self _ _ _
            kept := fun q hq hq' => ?_
            other := fun q hq => ?_ }
        · exact Function.update_of_ne (by simp [huser]) _ _
        · by_cases htp : t = c.page v / 1024
          · exact htp ▸ Function.update_self _ _ _
          · exact (Function.update_of_ne htp _ _).trans ht
        · have htable : q / 1024 ≠ c.page v / 1024 := by
            intro hq''
            rw [hq''] at hq'
            exact hpde hq'
          exact (Function.update_of_ne hq _ _).trans (if_neg htable)
        · by_cases htable : q / 1024 = c.page v / 1024
          · exact .inr ((Function.update_of_ne hq _ _).trans (if_pos htable))
          · exact .inl ((Function.update_of_ne hq _ _).trans (if_neg htable))

theorem Frames.map {mapped : Nat → Prop} {v i : Nat} (hf : Frames c h₀ h mapped)
    (hv : v < c.vaddrLen) (hnew : ¬ mapped v) (hi : i < c.poolLen c.user)
    (hclear : h.pool c.user i = false)
    (hm : Mapped c (h.usePool c.user i) h' (c.page v) (i * 4096 + c.poolStart c.user)) :
    Frames c h₀ h' (fun w => w = v ∨ mapped w) := by
  have hself : h'.pte (c.page v) = c.entry i := hm.self
  have hkept : ∀ w, mapped w → h'.pte (c.page w) = h.pte (c.page w) := by
    intro w hw
    have hne : c.page w ≠ c.page v := fun h => hnew (c.page_inj h ▸ hw)
    exact hm.kept _ hne (hf.present w hw)
  have hstart : h₀.pool c.user i = false := by
    by_contra hi
    rw [(hf.pool i).mpr (.inl (by simpa using hi))] at hclear
    cases hclear
  -- no page was mapped to the frame before
  have hunused : ∀ w, mapped w → h.pte (c.page w) ≠ c.entry i := by
    intro w hw hentry
    rw [(hf.pool i).mpr (.inr ⟨w, hw, hentry⟩)] at hclear
    cases hclear
  refine ⟨?_, ?_, ?_, ?_, ?_, ?_⟩
  · rintro w (rfl | hw)
    · exact ⟨i, hi, hstart, hself⟩
    · rw [hkept w hw]
      exact hf.frame w hw
  · rintro w x (rfl | hw) (rfl | hx) heq
    · rfl
    · rw [hself, hkept x hx] at heq
      exact absurd heq.symm (hunused x hx)
    · rw [hself, hkept w hw] at heq
      exact absurd heq (hunused w hw)
    · rw [hkept w hw, hkept x hx] at heq
      exact hf.inj w x hw hx heq
  · intro j
    have hpool : h'.pool c.user j = true ↔ j = i ∨ h.pool c.user j = true := by
      rw [hm.pool, Heap.usePool]
      by_cases hj : j = i <;> simp [hj]
    rw [hpool, hf.pool j]
    constructor
    · rintro (rfl | hj | ⟨w, hw, hentry⟩)
      · exact .inr ⟨v, .inl rfl, hself⟩
      · exact .inl hj
      · exact .inr ⟨w, .inr hw, (hkept w hw).trans hentry⟩
    · rintro (hj | ⟨w, rfl | hw, hentry⟩)
      · exact .inr (.inl hj)
      · exact .inl (c.entry_inj (hentry.symm.trans hself))
      · exact .inr (.inr ⟨w, hw, (hkept w hw).symm.trans hentry⟩)
  · rintro w (rfl | hw)
    · exact hm.present
    · exact hm.pde _ (hf.present w hw)
  · intro w hw hnot hbit
    have hne : c.page w ≠ c.page v := fun h => hnot (.inl (c.page_inj h))
    have hold := hf.free w hw (fun h => hnot (.inr h)) hbit
    rcases hm.other _ hne with h | h
    · exact (congrArg (· % 2) h).trans hold
    · rw [h]
  · exact fun hu w hw => hm.pde _ (hf.kernel hu w hw)

private theorem mapPages_spec (n : Nat) : ∀ {h : Heap} {mapped : Nat → Prop} {v : Nat},
    Frames c h₀ h mapped → v + n ≤ c.vaddrLen →
    (∀ w, v ≤ w → w < v + n → ¬ mapped w ∧ h₀.vaddrBitmap w = false) →
    wp (mapPages c (c.addr v) n) OutOfPages
      (fun r h' => r = true → Frames c h₀ h' (fun w => v ≤ w ∧ w < v + n ∨ mapped w) ∧
        h'.mem = h.mem ∧ h'.vaddrBitmap = h.vaddrBitmap) h := by
  induction n with
  | zero =>
      intro h mapped v hf _ _ _
      refine ⟨?_, rfl, rfl⟩
      have hsame : (fun w => v ≤ w ∧ w < v + 0 ∨ mapped w) = mapped := by
        funext w
        simp
      rw [hsame]
      exact hf
  | succ n ih =>
      intro h mapped v hf hlen hnew
      rw [mapPages, wp_bind]
      refine wp_mono (palloc_spec c c.user) ?_
      intro r h₁ hr
      cases r with
      | none =>
          intro hfalse
          cases hfalse
      | some phys =>
          obtain ⟨i, hi, hclear, rfl, rfl⟩ := hr phys rfl
          obtain ⟨hv, hbit⟩ := hnew v le_rfl (by omega)
          have heven := hf.free v (by omega) hv hbit
          have hkernel := fun hu => hf.kernel hu v (by omega)
          dsimp only
          rw [wp_bind]
          refine wp_mono (pageTableAdd_spec c heven hkernel) ?_
          intro _ h₂ hm
          have hf' := hf.map c (by omega) hv hi hclear hm
          have haddr : c.addr v + 4096 = c.addr (v + 1) := by
            rw [Context.addr, Context.addr]
            omega
          rw [haddr]
          refine wp_mono (ih hf' (by omega) (fun w hw hw' => ?_)) ?_
          · obtain ⟨hnot, hbit⟩ := hnew w (by omega) (by omega)
            refine ⟨?_, hbit⟩
            rintro (rfl | h)
            · omega
            · exact hnot h
          · intro r h₃ hpost hr
            obtain ⟨hframes, hmem, hbits⟩ := hpost hr
            refine ⟨?_, hmem.trans hm.mem, hbits.trans hm.vaddrBitmap⟩
            have hsame : (fun w => v ≤ w ∧ w < v + (n + 1) ∨ mapped w) =
                fun w => v + 1 ≤ w ∧ w < v + 1 + n ∨ w = v ∨ mapped w := by
              funext w
              refine propext ⟨fun h => ?_, fun h => ?_⟩
              · rcases h with h | h
                · by_cases hw : w = v
                  · exact .inr (.inl hw)
                  · exact .inl (by omega)
                · exact .inr (.inr h)
              · rcases h with h | h | h
                · exact .inl (by omega)
                · exact .inl (by omega)
                · exact .inr h
            rw [hsame]
            exact hframes

private theorem covered_cons (r : Nat × Nat) (runs : List (Nat × Nat)) :
    Covered (r :: runs) = fun w => r.1 ≤ w ∧ w < r.1 + r.2 ∨ Covered runs w := by
  funext w
  simp [Covered]

private theorem givePages_spec {runs : List (Nat × Nat)} {n : Nat} (hn : 0 < n)
    (hp : Pages c h₀ h runs) :
    wp (givePages c n) OutOfPages
      (fun r h' => ∀ a, r = some a → ∃ v, a = c.addr v ∧ Pages c h₀ h' ((v, n) :: runs) ∧
        h'.mem = h.mem) h := by
  rw [givePages, wp_bind, vaddrGet, wp_bind, wp_get, wp_bind]
  refine wp_mono (bitmapScan_spec c) ?_
  rintro r h₁ ⟨rfl, hr⟩
  cases r with
  | none =>
      intro a ha
      cases ha
  | some v =>
      obtain ⟨-, hclear⟩ := hr v rfl
      dsimp only
      split
      · rename_i hlen
        rw [wp_bind, wp_modify, wp_bind]
        apply wp_assert_stop c outOfPages
        -- the bits of the run were clear
        have hnew : ∀ w, v ≤ w → w < v + n → ¬ Covered runs w ∧ h₀.vaddrBitmap w = false := by
          intro w hw hw'
          have hbit := hclear w hw hw'
          have hnot : ¬ (h₀.vaddrBitmap w = true ∨ Covered runs w) := by
            rw [← hp.bitmap w, hbit]
            simp
          simp only [not_or, Bool.not_eq_true] at hnot
          exact ⟨hnot.2, hnot.1⟩
        have hframes : Frames c h₀ { h₁ with vaddrBitmap := setBits h₁.vaddrBitmap v n true }
            (Covered runs) := ⟨hp.frames.frame, hp.frames.inj, hp.frames.pool, hp.frames.present,
          hp.frames.free, hp.frames.kernel⟩
        change wp (mapPages c (c.addr v) n >>= _) _ _ _
        rw [wp_bind]
        refine wp_mono (mapPages_spec c n hframes hlen hnew) ?_
        intro r h₂ hpost
        cases r with
        | false =>
            intro a ha
            cases ha
        | true =>
            obtain ⟨hf, hmem, hbits⟩ := hpost rfl
            intro a ha
            cases ha
            refine ⟨v, rfl, ⟨?_, ?_, ?_, ?_, ?_⟩, hmem⟩
            · intro r hr
              rcases List.mem_cons.mp hr with rfl | hr
              · exact ⟨hn, hlen⟩
              · exact hp.inside r hr
            · refine List.pairwise_cons.mpr ⟨fun r hr => ?_, hp.apart⟩
              have hpos := (hp.inside r hr).1
              by_contra hmeet
              rw [ApartRuns] at hmeet
              -- the later of the two first pages is in both runs
              have hpage : ¬ Covered runs (max r.1 v) := (hnew _ (by omega) (by omega)).1
              exact hpage ⟨r, hr, by omega, by omega⟩
            · intro w
              rw [hbits, covered_cons]
              by_cases hw : v ≤ w ∧ w < v + n
              · simp [setBits, hw]
              · simp [setBits, hw, hp.bitmap w]
            · intro w hw
              rw [covered_cons] at hw
              exact hw.elim (fun hw => (hnew w hw.1 hw.2).2) (hp.fresh w)
            · rw [covered_cons]
              exact hf
      · exact .inr rfl

/-- `malloc_page` stops for want of pages, or because it is asked for 3840 pages or more. -/
theorem mallocPage_spec {runs : List (Nat × Nat)} {n : Nat} (hn : 0 < n)
    (hp : Pages c h₀ h runs) :
    wp (mallocPage c n) (fun e => OutOfPages e ∨ e = .pageCount ∧ 3840 ≤ n)
      (fun r h' => ∀ a, r = some a → ∃ v, a = c.addr v ∧ Pages c h₀ h' ((v, n) :: runs) ∧
        h'.mem = h.mem) h := by
  rw [mallocPage, wp_bind, wp_assert]
  split
  · exact wp_mono_stop (givePages_spec c hn hp) fun _ => .inl
  · exact .inr ⟨rfl, by omega⟩

private theorem Frames.unmap {mapped : Nat → Prop} {v i : Nat} (hf : Frames c h₀ h mapped)
    (hv : mapped v) (hi : h.pte (c.page v) = c.entry i) (hpool : h'.pool c.user =
      Function.update (h.pool c.user) i false) (hpte : h'.pte = Function.update h.pte (c.page v) 0)
    (hpde : h'.pde = h.pde) : Frames c h₀ h' (fun w => mapped w ∧ w ≠ v) := by
  have hkept : ∀ w, w ≠ v → h'.pte (c.page w) = h.pte (c.page w) := by
    intro w hw
    rw [hpte, Function.update_of_ne (fun h => hw (c.page_inj h))]
  refine ⟨?_, ?_, ?_, ?_, ?_, ?_⟩
  · rintro w ⟨hw, hne⟩
    rw [hkept w hne]
    exact hf.frame w hw
  · rintro w x ⟨hw, hne⟩ ⟨hx, hne'⟩ heq
    rw [hkept w hne, hkept x hne'] at heq
    exact hf.inj w x hw hx heq
  · intro j
    rw [hpool]
    by_cases hj : j = i
    · subst j
      obtain ⟨k, -, hk, hentry⟩ := hf.frame v hv
      obtain rfl : k = i := c.entry_inj (hentry.symm.trans hi)
      simp only [Function.update_self, hk, Bool.false_eq_true, false_or, false_iff, not_exists]
      rintro w ⟨⟨hw, hne⟩, hw'⟩
      rw [hkept w hne] at hw'
      exact hne (hf.inj w v hw hv (hw'.trans hi.symm))
    · rw [Function.update_of_ne hj, hf.pool j]
      refine or_congr_right ⟨?_, ?_⟩
      · rintro ⟨w, hw, hentry⟩
        have hne : w ≠ v := by
          rintro rfl
          exact hj (c.entry_inj (hentry.symm.trans hi))
        exact ⟨w, ⟨hw, hne⟩, (hkept w hne).trans hentry⟩
      · rintro ⟨w, ⟨hw, hne⟩, hentry⟩
        exact ⟨w, hw, (hkept w hne).symm.trans hentry⟩
  · rintro w ⟨hw, -⟩
    rw [hpde]
    exact hf.present w hw
  · intro w hw hnot hbit
    by_cases hwv : w = v
    · subst w
      rw [hpte, Function.update_self]
    · rw [hkept w hwv]
      exact hf.free w hw (fun h => hnot ⟨h, hwv⟩) hbit
  · rw [hpde]
    exact hf.kernel

/-- A frame of the pool of the context is recognised by its address. -/
private theorem Context.poolStart_le (i : Nat) (hi : i < c.poolLen c.user) :
    (decide (c.poolStart true ≤ i * 4096 + c.poolStart c.user)) = c.user := by
  have hpools := c.userPool
  cases hu : c.user with
  | true => simp
  | false =>
      rw [hu] at hi
      simp
      omega

theorem Context.addr_aligned (v : Nat) : c.addr v % 4096 = 0 := by
  have := c.vaddrAligned
  rw [Context.addr]
  omega

private theorem addrV2p_entry {v i : Nat} (h' : h.pte (c.page v) = c.entry i) :
    h.addrV2p (c.addr v) = i * 4096 + c.poolStart c.user := by
  have halign := c.poolAligned c.user
  rw [Heap.addrV2p, c.addr_page, h', Context.entry, c.addr_aligned]
  omega

private theorem mfreeLoop_spec {E : Stop → Prop} (n : Nat) :
    ∀ {h : Heap} {mapped : Nat → Prop} {v : Nat},
    Frames c h₀ h mapped → (∀ w, v ≤ w → w < v + n → mapped w) →
    wp (mfreeLoop c c.user (c.addr v) n) E
      (fun _ h' => Frames c h₀ h' (fun w => mapped w ∧ ¬ (v ≤ w ∧ w < v + n)) ∧
        h'.mem = h.mem ∧ h'.vaddrBitmap = h.vaddrBitmap) h := by
  induction n with
  | zero =>
      intro h mapped v hf _
      refine ⟨?_, rfl, rfl⟩
      have hsame : (fun w => mapped w ∧ ¬ (v ≤ w ∧ w < v + 0)) = mapped := by
        funext w
        simp
      rw [hsame]
      exact hf
  | succ n ih =>
      intro h mapped v hf hrun
      have hv := hrun v le_rfl (by omega)
      obtain ⟨i, hi, -, hentry⟩ := hf.frame v hv
      rw [mfreeLoop, wp_bind, wp_get, addrV2p_entry c hentry, wp_bind]
      have hpools := c.userPool
      apply wp_assert_of
      · refine ⟨?_, by omega, fun hu => ?_⟩
        · have := c.poolAligned c.user
          omega
        · rw [hu] at hi ⊢
          omega
      have hindex : (i * 4096 + c.poolStart c.user - c.poolStart c.user) / 4096 = i := by omega
      rw [wp_bind, pfree, c.poolStart_le i hi, hindex, wp_modify, wp_bind, wp_modify]
      have hf' : Frames c h₀ (({ h with
          pool := Function.update h.pool c.user (Function.update (h.pool c.user) i false) } :
            Heap).pteRemove (c.addr v)) _ :=
        hf.unmap c hv hentry (Function.update_self _ _ _) (by rw [Heap.pteRemove, c.addr_page]) rfl
      have haddr : c.addr v + 4096 = c.addr (v + 1) := by
        rw [Context.addr, Context.addr]
        omega
      rw [haddr]
      refine wp_mono (ih hf' (fun w hw hw' => ⟨hrun w (by omega) (by omega), by omega⟩)) ?_
      rintro _ h₁ ⟨hframes, hmem, hbits⟩
      refine ⟨?_, hmem, hbits⟩
      have hsame : (fun w => mapped w ∧ ¬ (v ≤ w ∧ w < v + (n + 1))) =
          fun w => (mapped w ∧ w ≠ v) ∧ ¬ (v + 1 ≤ w ∧ w < v + 1 + n) := by
        funext w
        refine propext ⟨fun h => ⟨⟨h.1, by omega⟩, by omega⟩, fun h => ⟨h.1.1, ?_⟩⟩
        have := h.1.2
        have := h.2
        omega
      rw [hsame]
      exact hframes

private theorem covered_erase {runs : List (Nat × Nat)} {r : Nat × Nat} (hp : Pages c h₀ h runs)
    (hr : r ∈ runs) : Covered (runs.erase r) =
      fun w => Covered runs w ∧ ¬ (r.1 ≤ w ∧ w < r.1 + r.2) := by
  have hperm := List.perm_cons_erase hr
  have hapart : (r :: runs.erase r).Pairwise ApartRuns :=
    hperm.pairwise hp.apart (fun h => h.symm)
  have hcov : ∀ w, Covered runs w ↔ Covered (r :: runs.erase r) w := by
    intro w
    simp only [Covered, hperm.mem_iff]
  funext w
  rw [hcov, covered_cons]
  refine propext ⟨?_, fun h => h.1.resolve_left h.2⟩
  rintro ⟨r', hr', hw⟩
  refine ⟨.inr ⟨r', hr', hw⟩, ?_⟩
  have := (List.pairwise_cons.mp hapart).1 r' hr'
  rw [ApartRuns] at this
  omega

theorem mfreePage_spec {E : Stop → Prop} {runs : List (Nat × Nat)} {v n : Nat}
    (hp : Pages c h₀ h runs) (hr : (v, n) ∈ runs) :
    wp (mfreePage c (c.addr v) n) E
      (fun _ h' => Pages c h₀ h' (runs.erase (v, n)) ∧ h'.mem = h.mem) h := by
  obtain ⟨hpos, hlen⟩ := hp.inside _ hr
  have hrun : ∀ w, v ≤ w → w < v + n → Covered runs w := fun w hw hw' => ⟨_, hr, hw, hw'⟩
  obtain ⟨i, hi, -, hentry⟩ := hp.frames.frame v (hrun v le_rfl (by simpa using hpos))
  have hpool := c.poolAligned c.user
  have hstart : 0x102000 ≤ c.poolStart c.user := by
    have := c.kernelPool
    have := c.userPool
    cases c.user
    · exact c.kernelPool
    · omega
  rw [mfreePage, wp_bind]
  apply wp_assert_of c ⟨hpos, c.addr_aligned v⟩
  rw [wp_bind, wp_get, addrV2p_entry c hentry, wp_bind]
  apply wp_assert_of c (by omega)
  rw [c.poolStart_le i hi, wp_bind]
  refine wp_mono (mfreeLoop_spec c n hp.frames hrun) ?_
  rintro _ h₁ ⟨hframes, hmem, hbits⟩
  rw [vaddrRemove, wp_modify]
  have hindex : (c.addr v - c.vaddrStart) / 4096 = v := by
    rw [Context.addr]
    omega
  have hcovered := covered_erase c hp hr
  rw [← hcovered] at hframes
  refine ⟨⟨?_, ?_, ?_, ?_, ?_⟩, hmem⟩
  · exact fun r hr' => hp.inside r (List.mem_of_mem_erase hr')
  · exact hp.apart.sublist List.erase_sublist
  · intro w
    rw [hindex, hbits, hcovered]
    by_cases hw : v ≤ w ∧ w < v + n
    · have hfresh := hp.fresh w (hrun w hw.1 hw.2)
      simp [setBits, hw, hfresh]
    · simp [setBits, hw, hp.bitmap w]
  · intro w hw
    rw [hcovered] at hw
    exact hp.fresh w hw.1
  · exact ⟨hframes.frame, hframes.inj, hframes.pool, hframes.present, hframes.free,
      hframes.kernel⟩

end Context

end Aitos.Mm
