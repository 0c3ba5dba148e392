import Aitos.Mm.Arenas

/-!
# Giving out blocks

`sys_malloc` takes a block off a free list, after a new arena has filled the list if it was empty,
or gives out a run of pages as one large block.  Either way the arenas stay as `Arenas` says, with
the new block in use.
-/

namespace Aitos.Mm

open Framework

section Words

variable {m : Words} {a n x desc cnt large : Nat}

private theorem memset_inside (h₁ : a ≤ x) (h₂ : x < a + n) : memset m a n x = 0 := if_pos ⟨h₁, h₂⟩

private theorem memset_outside (h : ¬ (a ≤ x ∧ x < a + n)) : memset m a n x = m x := if_neg h

private theorem setArena_desc : setArena m a desc cnt large a = desc := by
  rw [setArena, Function.update_of_ne (by omega), Function.update_of_ne (by omega),
    Function.update_self]

private theorem setArena_cnt : setArena m a desc cnt large (a + 4) = cnt := by
  rw [setArena, Function.update_self]

private theorem setArena_large : setArena m a desc cnt large (a + 8) = large := by
  rw [setArena, Function.update_of_ne (by omega), Function.update_self]

private theorem setArena_outside (h : x < a ∨ a + 12 ≤ x) :
    setArena m a desc cnt large x = m x := by
  rw [setArena, Function.update_of_ne (by omega), Function.update_of_ne (by omega),
    Function.update_of_ne (by omega)]

end Words

section Fresh

variable {c : Context} {h₀ h h₁ : Heap} {live : List Block} {arenas : List Arena}
  {fl : Nat → List Nat} {A : Arena} {v n x : Nat} {m' : Words}

namespace Arenas

private theorem fresh_arena (hp : Pages c h₀ h₁ ((v, n) :: arenas.map Arena.run))
    (hA : A ∈ arenas) : A.stop c ≤ c.addr v ∨ c.addr v + n * 4096 ≤ c.addr A.page := by
  have hapart := (List.pairwise_cons.mp hp.apart).1 A.run (List.mem_map_of_mem hA)
  simp only [ApartRuns, Arena.run] at hapart
  simp only [Arena.stop, Context.addr]
  omega

private theorem fresh_block (ha : Arenas c h₀ h live arenas fl)
    (hp : Pages c h₀ h₁ ((v, n) :: arenas.map Arena.run)) (hA : A ∈ arenas) (hx : x ∈ A.blocks c) :
    x + A.blockLen ≤ c.addr v ∨ c.addr v + n * 4096 ≤ x := by
  have hinside := block_inside (ha.sound A hA) hx
  have hapart := fresh_arena hp hA
  omega

private theorem fresh_free (ha : Arenas c h₀ h live arenas fl)
    (hp : Pages c h₀ h₁ ((v, n) :: arenas.map Arena.run)) {k : Nat} (hk : k < descCnt)
    (hx : x ∈ fl k) : x + 16 ≤ c.addr v ∨ c.addr v + n * 4096 ≤ x := by
  obtain ⟨w, hA, hblock⟩ := ha.free_block hk hx
  have hsize := sixteen_le_blockSize k
  have hapart := ha.fresh_block hp hA hblock
  simp only [Arena.blockLen] at hapart
  omega

private theorem fresh_inHeap (hp : Pages c h₀ h₁ ((v, n) :: arenas.map Arena.run))
    (h₁ : c.addr v ≤ x) (h₂ : x < c.addr v + n * 4096) : c.InHeap x := by
  have hinside := (hp.inside _ List.mem_cons_self).2
  simp only [Context.addr] at h₁ h₂ hinside
  constructor
  · omega
  · omega

private theorem fresh_lists (ha : Arenas c h₀ h live arenas fl)
    (hp : Pages c h₀ h₁ ((v, n) :: arenas.map Arena.run))
    (hm : ∀ x, ¬ (c.addr v ≤ x ∧ x < c.addr v + n * 4096) → m' x = h.mem x) :
    FreeLists c m' fl := by
  refine ha.lists.spared hm (fun x hx => fresh_inHeap hp hx.1 hx.2) fun k hk x hx => ?_
  have hapart := ha.fresh_free hp hk hx
  constructor <;> omega

private theorem fresh_headers (ha : Arenas c h₀ h live arenas fl)
    (hp : Pages c h₀ h₁ ((v, n) :: arenas.map Arena.run))
    (hm : ∀ x, ¬ (c.addr v ≤ x ∧ x < c.addr v + n * 4096) → m' x = h.mem x) (hA : A ∈ arenas) :
    Header c m' fl A := by
  refine header_congr (ha.header A hA) fun j hj => hm _ ?_
  have hapart := fresh_arena hp hA
  have hpos := (ha.inside hA).1
  simp only [Arena.stop, arenaSize] at hapart hj
  omega

private theorem add_large {size : Nat} (ha : Arenas c h₀ h live arenas fl)
    (hp : Pages c h₀ h₁ ((v, n) :: arenas.map Arena.run)) (hmem : h₁.mem = h.mem)
    (hsize : size + arenaSize ≤ n * 4096) :
    Arenas c h₀ (h₁.setMem (setArena (memset h₁.mem (c.addr v) (n * 4096)) (c.addr v) 0 n 1))
      (⟨c.addr v + arenaSize, size⟩ :: live) (.large v n :: arenas) fl := by
  have hpos : 0 < n := (hp.inside _ List.mem_cons_self).1
  have hm : ∀ x, ¬ (c.addr v ≤ x ∧ x < c.addr v + n * 4096) →
      setArena (memset h₁.mem (c.addr v) (n * 4096)) (c.addr v) 0 n 1 x = h.mem x := by
    intro x hx
    rw [setArena_outside (by omega), memset_outside hx, hmem]
  have hnew : ∀ A ∈ arenas, c.addr v + arenaSize ∉ A.blocks c := by
    intro A hA hx
    have hapart := ha.fresh_block hp hA hx
    have hlen := (block_inside (ha.sound A hA) hx).2.2.2
    rw [arenaSize] at hapart
    omega
  have hptr : c.addr v + arenaSize ∉ ptrs live := by
    intro hx
    obtain ⟨b, hb, hbx⟩ := List.mem_map.mp hx
    obtain ⟨A, hA, hblock, -⟩ := ha.owner b hb
    rw [hbx] at hblock
    exact hnew A hA hblock
  refine ⟨hp.setMem _, ?_, ha.fresh_lists hp hm, ?_, ?_, ?_, ?_, ?_⟩
  · intro A hA
    rcases List.mem_cons.mp hA with rfl | hA
    · exact hpos
    · exact ha.sound A hA
  · intro A hA
    rcases List.mem_cons.mp hA with rfl | hA
    · exact ⟨setArena_desc, setArena_large, setArena_cnt⟩
    · exact ha.fresh_headers hp hm hA
  · intro k hk x
    rw [ha.free k hk x]
    have hsmall : ∀ w, Arena.small w k ∈ Arena.large v n :: arenas ↔ .small w k ∈ arenas :=
      fun w => List.mem_cons.trans (or_iff_right (by simp))
    simp only [hsmall, ptrs, List.map_cons, List.mem_cons, not_or]
    refine ⟨fun hx => ⟨hx.1, ?_, hx.2⟩, fun hx => ⟨hx.1, hx.2.2⟩⟩
    rintro rfl
    obtain ⟨⟨w, hA, hblock⟩, -⟩ := hx
    exact hnew _ hA hblock
  · exact List.nodup_cons.mpr ⟨hptr, ha.nodup⟩
  · intro b hb
    rcases List.mem_cons.mp hb with rfl | hb
    · refine ⟨.large v n, List.mem_cons_self, List.mem_singleton_self _, ?_⟩
      rw [Arena.blockLen]
      dsimp only
      omega
    · obtain ⟨A, hA, hblock⟩ := ha.owner b hb
      exact ⟨A, List.mem_cons_of_mem _ hA, hblock⟩
  · intro w k hA
    rcases List.mem_cons.mp hA with heq | hA
    · cases heq
      exact List.mem_cons_self
    · exact List.mem_cons_of_mem _ (ha.large w k hA)

end Arenas

end Fresh

section Split

variable {c : Context} {h₀ h h₁ : Heap} {live : List Block} {arenas : List Arena}
  {fl : Nat → List Nat} {v k : Nat} {E : Stop → Prop}

/-- The blocks of an arena from number `i` on -/
def blocksFrom (c : Context) (v k i n : Nat) : List Nat :=
  (List.range' i n).map (arena2block (c.addr v) (blockSize k))

theorem blocksFrom_zero (c : Context) (v k : Nat) :
    blocksFrom c v k 0 (blockPerArena k) = (Arena.small v k).blocks c := by
  rw [blocksFrom, Arena.blocks, List.range_eq_range']

private theorem splitArena_spec (hk : k < descCnt) (n : Nat) :
    ∀ {i : Nat} {h : Heap} {fl : Nat → List Nat},
    FreeLists c h.mem fl → (blocksFrom c v k i n).Nodup →
    (∀ x ∈ blocksFrom c v k i n, c.Place x ∧ ∀ j < descCnt, x ∉ fl j) →
    wp (splitArena c (c.addr v) k i n) E (fun _ h' => ∃ m', h' = h.setMem m' ∧
      FreeLists c m' (Function.update fl k (fl k ++ blocksFrom c v k i n)) ∧
      ∀ x, c.HeaderWord x → m' x = h.mem x) h := by
  induction n with
  | zero =>
      intro i h fl hf _ _
      refine ⟨h.mem, rfl, ?_, fun _ _ => rfl⟩
      rw [blocksFrom, List.range'_zero, List.map_nil, List.append_nil, Function.update_eq_self]
      exact hf
  | succ n ih =>
      intro i h fl hf hnodup hnew
      have hcons : blocksFrom c v k i (n + 1) =
          arena2block (c.addr v) (blockSize k) i :: blocksFrom c v k (i + 1) n := by
        rw [blocksFrom, List.range'_succ, List.map_cons, blocksFrom]
      rw [hcons] at hnodup hnew ⊢
      obtain ⟨hplace, hfresh⟩ := hnew _ List.mem_cons_self
      obtain ⟨hfirst, hnodup⟩ := List.nodup_cons.mp hnodup
      obtain ⟨hlists, hheader⟩ := hf.append hk hplace hfresh
      rw [splitArena, wp_bind]
      apply assertFound_spec hf hk (decide_eq_false (hfresh k hk)).symm
      rw [wp_bind, listAppend, wp_modify]
      refine wp_mono (ih hlists hnodup ?_) ?_
      · intro x hx
        obtain ⟨hplace', hfresh'⟩ := hnew x (List.mem_cons_of_mem _ hx)
        refine ⟨hplace', fun j hj hx' => ?_⟩
        rcases mem_appended.mp hx' with hold | ⟨-, rfl⟩
        · exact hfresh' j hj hold
        · exact hfirst hx
      · rintro _ h' ⟨m', rfl, hlists', hheader'⟩
        refine ⟨m', rfl, ?_, fun x hx => (hheader' x hx).trans (hheader x hx)⟩
        rw [Function.update_self, Function.update_idem, List.append_assoc] at hlists'
        exact hlists'

private theorem countP_blocks {A : Arena} (hA : A.Sound) :
    (A.blocks c).countP (fun x => block2arena x = c.addr A.page) = (A.blocks c).length := by
  rw [List.countP_eq_length]
  intro x hx
  exact decide_eq_true (block2arena_block hA hx)

namespace Arenas

private theorem countP_other {l : List Nat} (hl : ∀ x ∈ l, block2arena x ≠ c.addr v) :
    l.countP (fun x => block2arena x = c.addr v) = 0 := by
  rw [List.countP_eq_zero]
  intro x hx hcount
  exact hl x hx (of_decide_eq_true hcount)

private theorem add_small {m' : Words} (ha : Arenas c h₀ h live arenas fl)
    (hp : Pages c h₀ h₁ ((v, 1) :: arenas.map Arena.run)) (hk : k < descCnt)
    (hlists : FreeLists c m' (Function.update fl k (fl k ++ (Arena.small v k).blocks c)))
    (hheader : ∀ A ∈ arenas, Header c m' fl A)
    (hdesc : m' (c.addr v) = c.desc k) (hcnt : m' (c.addr v + 4) = blockPerArena k)
    (hlarge : m' (c.addr v + 8) = 0) :
    Arenas c h₀ (h₁.setMem m') live (.small v k :: arenas)
      (Function.update fl k (fl k ++ (Arena.small v k).blocks c)) := by
  have hnew : ∀ A ∈ arenas, ∀ x ∈ A.blocks c, x ∉ (Arena.small v k).blocks c := by
    intro A hA x hx hx'
    have hapart := ha.fresh_block hp hA hx
    have hlen := (block_inside (ha.sound A hA) hx).2.2.2
    have hinside := block_inside (A := .small v k) hk hx'
    simp only [Arena.page] at hinside
    omega
  have hother : ∀ x ∈ (Arena.small v k).blocks c, ∀ A ∈ arenas, block2arena x ≠ c.addr A.page := by
    intro x hx A hA heq
    have hapart := fresh_arena hp hA
    have hpos := (ha.inside hA).1
    have hblock := block2arena_block (A := .small v k) hk hx
    rw [heq] at hblock
    simp only [Arena.page, Arena.stop] at hapart hblock
    omega
  have hfree : ∀ j < descCnt, ∀ x ∈ fl j, block2arena x ≠ c.addr v := by
    intro j hj x hx heq
    obtain ⟨w, hA, hblock⟩ := ha.free_block hj hx
    have hpage := block2arena_block (ha.sound _ hA) hblock
    have hapart := fresh_arena hp hA
    rw [heq] at hpage
    simp only [Arena.stop, Arena.page, Arena.pages] at hapart hpage
    omega
  refine ⟨hp.setMem _, ?_, hlists, ?_, ?_, ha.nodup, ?_, ?_⟩
  · intro A hA
    rcases List.mem_cons.mp hA with rfl | hA
    · exact hk
    · exact ha.sound A hA
  · intro A hA
    rcases List.mem_cons.mp hA with rfl | hA
    · refine ⟨hdesc, hlarge, ?_⟩
      change m' _ = _
      rw [hcnt, Function.update_self, List.countP_append, countP_other (hfree k hk), Nat.zero_add,
        ← blocks_length c v k]
      exact (countP_blocks (A := .small v k) hk).symm
    · have hold := hheader A hA
      cases A with
      | large w n => exact hold
      | small w j =>
          have hzero : ((Arena.small v k).blocks c).countP (fun x => block2arena x = c.addr w) = 0 :=
            countP_other (v := w) fun x hx => hother x hx (.small w j) hA
          refine ⟨hold.1, hold.2.1, hold.2.2.trans ?_⟩
          by_cases hjk : j = k
          · subst j
            rw [Function.update_self, List.countP_append, hzero, Nat.add_zero]
          · rw [Function.update_of_ne hjk]
  · intro j hj x
    have hsmall : ∀ w, Arena.small w j ∈ Arena.small v k :: arenas ↔
        (w = v ∧ j = k) ∨ .small w j ∈ arenas := by
      intro w
      rw [List.mem_cons, Arena.small.injEq]
    have hmem : x ∈ Function.update fl k (fl k ++ (Arena.small v k).blocks c) j ↔
        x ∈ fl j ∨ (j = k ∧ x ∈ (Arena.small v k).blocks c) := by
      by_cases hjk : j = k
      · subst j
        simp
      · simp [hjk]
    have hunused : x ∈ (Arena.small v k).blocks c → x ∉ ptrs live := by
      intro hx hlive
      obtain ⟨b, hb, rfl⟩ := List.mem_map.mp hlive
      obtain ⟨A, hA, hblock, -⟩ := ha.owner b hb
      exact hnew A hA _ hblock hx
    rw [hmem, ha.free j hj x]
    simp only [hsmall]
    constructor
    · rintro (⟨⟨w, hA, hx⟩, hlive⟩ | ⟨rfl, hx⟩)
      · exact ⟨⟨w, .inr hA, hx⟩, hlive⟩
      · exact ⟨⟨v, .inl ⟨rfl, rfl⟩, hx⟩, hunused hx⟩
    · rintro ⟨⟨w, ⟨rfl, rfl⟩ | hA, hx⟩, hlive⟩
      · exact .inr ⟨rfl, hx⟩
      · exact .inl ⟨⟨w, hA, hx⟩, hlive⟩
  · intro b hb
    obtain ⟨A, hA, hblock⟩ := ha.owner b hb
    exact ⟨A, List.mem_cons_of_mem _ hA, hblock⟩
  · intro w n hA
    rcases List.mem_cons.mp hA with heq | hA
    · cases heq
    · exact ha.large w n hA

end Arenas

private theorem newArena_spec (ha : Arenas c h₀ h live arenas fl) (hk : k < descCnt) :
    wp (newArena c k) OutOfPages (fun r h' => r = true → ∃ v,
      Arenas c h₀ h' live (.small v k :: arenas)
        (Function.update fl k (fl k ++ (Arena.small v k).blocks c))) h := by
  rw [newArena, wp_bind]
  have hone : ∀ e, OutOfPages e ∨ e = .pageCount ∧ 3840 ≤ 1 → OutOfPages e := by
    rintro e (he | ⟨-, h⟩)
    · exact he
    · exact absurd h (by decide)
  refine wp_mono (wp_mono_stop (mallocPage_spec c Nat.one_pos ha.pages) hone) ?_
  intro r h₁ hr
  cases r with
  | none =>
      intro hfalse
      cases hfalse
  | some a =>
      obtain ⟨v, rfl, hp, hmem⟩ := hr a rfl
      set m' := setArena (memset h₁.mem (c.addr v) pgSize) (c.addr v) (c.desc k)
        (blockPerArena k) 0 with hm'
      have hm : ∀ x, ¬ (c.addr v ≤ x ∧ x < c.addr v + 1 * 4096) → m' x = h.mem x := by
        intro x hx
        rw [hm', setArena_outside (by omega), memset_outside (by rw [pgSize]; omega), hmem]
      have hlists := ha.fresh_lists hp hm
      have hv : v < c.vaddrLen := (hp.inside _ List.mem_cons_self).2
      have hword : ∀ j < arenaSize, c.HeaderWord (c.addr v + j) := by
        intro j hj
        have halign := c.addr_aligned v
        rw [arenaSize] at hj
        refine ⟨Arenas.fresh_inHeap hp (by omega) (by omega), ?_⟩
        rw [arenaSize]
        omega
      dsimp only
      rw [wp_bind, wp_modify, wp_bind]
      refine wp_mono (splitArena_spec hk (blockPerArena k) hlists ?_ ?_) ?_
      · rw [blocksFrom_zero]
        exact blocks_nodup c _
      · intro x hx
        rw [blocksFrom_zero] at hx
        refine ⟨block_place hv hx, fun j hj hfree => ?_⟩
        have hapart := ha.fresh_free hp hj hfree
        have hinside := block_inside (A := .small v k) hk hx
        simp only [Arena.page] at hinside
        omega
      · rintro _ h₂ ⟨m₂, rfl, hlists₂, hheader⟩ -
        rw [blocksFrom_zero] at hlists₂
        have hp' : Pages c h₀ (h₁.setMem m') ((v, 1) :: arenas.map Arena.run) := hp.setMem _
        refine ⟨v, ha.add_small hp' hk hlists₂ ?_ ?_ ?_ ?_⟩
        · intro A hA
          exact Arenas.header_congr (ha.fresh_headers hp hm hA) fun j hj =>
            hheader _ (ha.headerWord hA hj)
        · exact (hheader _ (hword 0 (by decide))).trans setArena_desc
        · exact (hheader _ (hword 4 (by decide))).trans setArena_cnt
        · exact (hheader _ (hword 8 (by decide))).trans setArena_large

end Split

section Pop

variable {c : Context} {h₀ h : Heap} {live : List Block} {arenas : List Arena}
  {fl : Nat → List Nat} {k b : Nat} {rest : List Nat} {E : Stop → Prop}

private theorem popped_count (hfl : fl k = b :: rest) {v : Nat}
    (hpage : block2arena b = c.addr v) (w j : Nat) :
    (fl j).countP (fun x => block2arena x = c.addr w) =
      (Function.update fl k rest j).countP (fun x => block2arena x = c.addr w) +
        if w = v ∧ j = k then 1 else 0 := by
  by_cases hjk : j = k
  · subst j
    rw [Function.update_self, hfl, List.countP_cons, hpage]
    have haddr : c.addr v = c.addr w ↔ w = v := by
      rw [Context.addr, Context.addr]
      omega
    simp only [haddr, and_true, decide_eq_true_eq]
  · rw [Function.update_of_ne hjk, if_neg (fun h => hjk h.2), Nat.add_zero]

namespace Arenas

/-- A new `cnt` in the header of an arena leaves the free lists alone. -/
theorem setCnt_lists {v : Nat} {m : Words} {fl' : Nat → List Nat}
    (ha : Arenas c h₀ h live arenas fl) (hA : .small v k ∈ arenas) (hlists : FreeLists c m fl')
    (n : Nat) : FreeLists c (Function.update m (c.addr v + 4) n) fl' := by
  refine hlists.spared (S := fun x => x = c.addr v + 4) (fun x hx => Function.update_of_ne hx _ _)
    ?_ fun j hj x hx => ?_
  · rintro x rfl
    exact (ha.headerWord hA (by decide)).1
  · have hplace := hlists.place j hj x hx
    have hheader := hplace.header
    have hroom := hplace.room
    have halign := c.addr_aligned v
    rw [arenaSize] at hheader
    constructor <;> omega

/-- All headers are right when `cnt` of one arena counts the free blocks that it has now. -/
theorem setCnt_header {v n : Nat} {m : Words} {fl' : Nat → List Nat} {B : Arena}
    (ha : Arenas c h₀ h live arenas fl) (hA : .small v k ∈ arenas)
    (hm : ∀ B ∈ arenas, ∀ j < arenaSize, m (c.addr B.page + j) = h.mem (c.addr B.page + j))
    (hn : n = (fl' k).countP fun x => block2arena x = c.addr v)
    (hcount : ∀ w j, j < descCnt → ¬ (w = v ∧ j = k) →
      (fl' j).countP (fun x => block2arena x = c.addr w) =
        (fl j).countP fun x => block2arena x = c.addr w) (hB : B ∈ arenas) :
    Header c (Function.update m (c.addr v + 4) n) fl' B := by
  have hwords : ∀ j < arenaSize, (B.page ≠ v ∨ j ≠ 4) →
      Function.update m (c.addr v + 4) n (c.addr B.page + j) = h.mem (c.addr B.page + j) := by
    intro j hj hne
    rw [Function.update_of_ne]
    · exact hm B hB j hj
    · rw [Context.addr, Context.addr]
      rw [arenaSize] at hj
      omega
  by_cases hpage : B.page = v
  · obtain rfl := ha.eq_of_page hB hA hpage
    have hold := ha.header _ hA
    have hdesc := hwords 0 (by decide) (.inr (by decide))
    have hlarge := hwords 8 (by decide) (.inr (by decide))
    rw [Nat.add_zero] at hdesc
    exact ⟨hdesc.trans hold.1, hlarge.trans hold.2.1, (Function.update_self ..).trans hn⟩
  · have hold := header_congr (ha.header B hB) fun j hj => hwords j hj (.inl hpage)
    cases B with
    | large w n => exact hold
    | small w j =>
        have hcnt := hcount w j (ha.sound _ hB) fun h => hpage h.1
        exact ⟨hold.1, hold.2.1, hold.2.2.trans hcnt.symm⟩

private theorem popped_mem (ha : Arenas c h₀ h live arenas fl) (hk : k < descCnt)
    (hfl : fl k = b :: rest) {j x : Nat} (hj : j < descCnt) :
    x ∈ Function.update fl k rest j ↔ x ∈ fl j ∧ x ≠ b := by
  have hb : b ∈ fl k := by
    rw [hfl]
    exact List.mem_cons_self
  have hnodup := ha.lists.nodup k hk
  rw [hfl] at hnodup
  obtain ⟨hfirst, -⟩ := List.nodup_cons.mp hnodup
  by_cases hjk : j = k
  · subst j
    rw [Function.update_self, hfl, List.mem_cons]
    constructor
    · intro hx
      refine ⟨.inr hx, ?_⟩
      rintro rfl
      exact hfirst hx
    · rintro ⟨hx, hne⟩
      exact hx.resolve_left hne
  · rw [Function.update_of_ne hjk]
    refine ⟨fun hx => ⟨hx, ?_⟩, And.left⟩
    rintro rfl
    exact ha.lists.apart j hj k hk hjk _ hx hb

/-- The block that was taken off its list is cleared, which touches neither the lists nor the
headers. -/
private theorem popped_cleared {v : Nat} (ha : Arenas c h₀ h live arenas fl) (hk : k < descCnt)
    (hfl : fl k = b :: rest) (hA : .small v k ∈ arenas)
    (hblock : b ∈ (Arena.small v k).blocks c) :
    FreeLists c (memset (unlink h.mem b) b (blockSize k)) (Function.update fl k rest) ∧
      ∀ B ∈ arenas, ∀ j < arenaSize,
        memset (unlink h.mem b) b (blockSize k) (c.addr B.page + j) = h.mem (c.addr B.page + j) := by
  obtain ⟨hlists, hheader⟩ := ha.lists.remove hk (show fl k = [] ++ b :: rest from hfl)
  have hinside := block_inside (ha.sound _ hA) hblock
  simp only [Arena.page, Arena.blockLen] at hinside
  constructor
  · refine hlists.spared (S := fun x => b ≤ x ∧ x < b + blockSize k)
      (fun x hx => memset_outside hx) (fun x hx => ?_) fun j hj x hx => ?_
    · refine ha.inHeap hA ?_ ?_
      · simp only [Arena.page]
        omega
      · omega
    · obtain ⟨hold, hne⟩ := (ha.popped_mem hk hfl hj).mp hx
      obtain ⟨w, hB, hx'⟩ := ha.free_block hj hold
      have hapart := ha.block_apart hB hA hx' hblock hne
      have hlen := (block_inside (ha.sound _ hB) hx').2.2.2
      simp only [Arena.blockLen] at hapart hlen
      constructor <;> omega
  · intro B hB j hj
    have hapart := ha.block_header hA hB hblock
    simp only [Arena.blockLen, arenaSize] at hapart hj
    rw [memset_outside (by omega)]
    exact hheader _ (ha.headerWord hB hj)

end Arenas

private theorem popBlock_spec {size : Nat} (ha : Arenas c h₀ h live arenas fl) (hk : k < descCnt)
    (hfl : fl k = b :: rest) (hsize : size ≤ blockSize k) :
    wp (popBlock c k) E (fun r h' => r = b ∧
      Arenas c h₀ h' (⟨b, size⟩ :: live) arenas (Function.update fl k rest) ∧
      ∀ x, b ≤ x → x < b + size → h'.mem x = 0) h := by
  have hb : b ∈ fl k := by
    rw [hfl]
    exact List.mem_cons_self
  obtain ⟨⟨v, hA, hblock⟩, hunused⟩ := (ha.free k hk b).mp hb
  have hpage := block2arena_block (ha.sound _ hA) hblock
  have hinside := block_inside (ha.sound _ hA) hblock
  simp only [Arena.page, Arena.blockLen] at hpage hinside
  have hlinked := ha.lists.linked k hk
  rw [hfl] at hlinked
  have hhead : h.mem (c.head k + 4) = b := hlinked.1
  obtain ⟨hlists, hheaders⟩ := ha.popped_cleared hk hfl hA hblock
  have hcount := popped_count hfl hpage
  set m := memset (unlink h.mem b) b (blockSize k)
  set fl' := Function.update fl k rest
  -- `cnt` of the arena goes down
  have hdown : (m (c.addr v + 4) + 2 ^ 32 - 1) % 2 ^ 32 =
      (fl' k).countP fun x => block2arena x = c.addr v := by
    have hold : m (c.addr v + 4) = _ :=
      (hheaders _ hA 4 (by decide)).trans (ha.header _ hA).2.2
    rw [hcount v k, if_pos ⟨rfl, rfl⟩] at hold
    have hle := List.countP_le_length (p := fun x => block2arena x = c.addr v) (l := fl' k)
    have hlt := hlists.length_lt hk
    rw [hold]
    omega
  have harenas : Arenas c h₀ (h.setMem (Function.update m (c.addr v + 4)
      ((m (c.addr v + 4) + 2 ^ 32 - 1) % 2 ^ 32))) (⟨b, size⟩ :: live) arenas fl' := by
    refine ⟨ha.pages.setMem _, ha.sound, ha.setCnt_lists hA hlists _, ?_, ?_, ?_, ?_, ?_⟩
    · intro B hB
      refine ha.setCnt_header hA hheaders hdown (fun w j _ hne => ?_) hB
      rw [hcount w j, if_neg hne, Nat.add_zero]
    · intro j hj x
      simp only [ptrs, List.map_cons, List.mem_cons, not_or]
      rw [ha.popped_mem hk hfl hj, ha.free j hj x]
      exact ⟨fun h => ⟨h.1.1, h.2, h.1.2⟩, fun h => ⟨⟨h.1, h.2.2⟩, h.2.1⟩⟩
    · exact List.nodup_cons.mpr ⟨hunused, ha.nodup⟩
    · intro d hd
      rcases List.mem_cons.mp hd with rfl | hd
      · exact ⟨_, hA, hblock, hsize⟩
      · exact ha.owner d hd
    · exact fun w n hB => List.mem_cons_of_mem _ (ha.large w n hB)
  rw [popBlock, wp_bind, wp_get, hhead, wp_bind, listRemove, wp_modify, wp_bind, wp_modify, hpage,
    wp_bind, wp_modify, wp_pure]
  refine ⟨rfl, harenas, fun x h₁ h₂ => ?_⟩
  have hne : x ≠ c.addr v + 4 := by omega
  exact (Function.update_of_ne hne _ _).trans (memset_inside h₁ (by omega))

private theorem sizeClass_spec {size : Nat} (n : Nat) : ∀ index, size ≤ blockSize (index + n - 1) →
    0 < n → sizeClass size index n < index + n ∧ size ≤ blockSize (sizeClass size index n) := by
  induction n with
  | zero =>
      intro index _ h
      omega
  | succ n ih =>
      intro index hsize _
      rw [sizeClass]
      split
      · rename_i hle
        exact ⟨by omega, hle⟩
      · rename_i hgt
        by_cases hn : n = 0
        · subst hn
          exact absurd hsize hgt
        · obtain ⟨hlt, hle⟩ := ih (index + 1) (by
            rw [show index + 1 + n - 1 = index + (n + 1) - 1 by omega]
            exact hsize) (by omega)
          exact ⟨by omega, hle⟩

private theorem sizeClass_small {size : Nat} (h : size ≤ 1024) :
    sizeClass size 0 descCnt < descCnt ∧ size ≤ blockSize (sizeClass size 0 descCnt) := by
  have hspec := sizeClass_spec descCnt 0 (show size ≤ blockSize (0 + descCnt - 1) from h) (by decide)
  rw [Nat.zero_add] at hspec
  exact hspec

end Pop

section Malloc

variable {c : Context} {h₀ h : Heap} {live : List Block} {arenas : List Arena}
  {fl : Nat → List Nat} {size : Nat}

/-- Every page that is split has a block in use. -/
def Occupied (c : Context) (live : List Block) (arenas : List Arena) : Prop :=
  ∀ v k, .small v k ∈ arenas → ∃ x ∈ (Arena.small v k).blocks c, x ∈ ptrs live

theorem Occupied.cons (ho : Occupied c live arenas) (b : Block) :
    Occupied c (b :: live) arenas := by
  intro v k hA
  obtain ⟨x, hx, hlive⟩ := ho v k hA
  exact ⟨x, hx, List.mem_cons_of_mem _ hlive⟩

/-- A heap in which these blocks are in use, and no page more than they need is taken. -/
def HoldsBlocks (c : Context) (h₀ h : Heap) (live : List Block) : Prop :=
  ∃ arenas fl, Arenas c h₀ h live arenas fl ∧ Occupied c live arenas

/-- The new block is in use, in an arena of its size, and it is all zero. -/
def GivenOut (c : Context) (h₀ : Heap) (live : List Block) (size b : Nat) (h' : Heap) : Prop :=
  HoldsBlocks c h₀ h' (⟨b, size⟩ :: live) ∧ ∀ x, b ≤ x → x < b + size → h'.mem x = 0

/-- The stops of `sys_malloc`: there are too few pages, or the block takes 3840 of them or more. -/
def MallocStop (size : Nat) (e : Stop) : Prop :=
  OutOfPages e ∨ e = .pageCount ∧ 3840 ≤ (size + arenaSize + pgSize - 1) / pgSize

private theorem mallocLarge_spec (ha : Arenas c h₀ h live arenas fl) (ho : Occupied c live arenas) :
    wp (mallocLarge c size) (MallocStop size)
      (fun r h' => ∀ b, r = some b → GivenOut c h₀ live size b h') h := by
  have hpages : 0 < (size + arenaSize + pgSize - 1) / pgSize := by
    rw [arenaSize, pgSize]
    omega
  have hroom : size + arenaSize ≤ (size + arenaSize + pgSize - 1) / pgSize * 4096 := by
    rw [arenaSize, pgSize]
    omega
  rw [mallocLarge, wp_bind]
  refine wp_mono (mallocPage_spec c hpages ha.pages) ?_
  intro r h₁ hr
  cases r with
  | none =>
      intro b hb
      cases hb
  | some a =>
      obtain ⟨v, rfl, hp, hmem⟩ := hr a rfl
      dsimp only
      rw [wp_bind, wp_modify, wp_pure]
      rintro _ ⟨⟩
      have hocc : Occupied c (⟨c.addr v + arenaSize, size⟩ :: live)
          (.large v ((size + arenaSize + pgSize - 1) / pgSize) :: arenas) := by
        intro w k hA
        exact ho.cons _ w k ((List.mem_cons.mp hA).resolve_left (by simp))
      refine ⟨⟨_, _, ha.add_large hp hmem hroom, hocc⟩, fun x h₁ h₂ => ?_⟩
      change size + arenaSize ≤ (size + arenaSize + pgSize - 1) / pgSize * pgSize at hroom
      have hheader : arenaSize = 12 := rfl
      exact (setArena_outside (by omega)).trans (memset_inside (by omega) (by omega))

private theorem mallocSmall_spec (ha : Arenas c h₀ h live arenas fl) (ho : Occupied c live arenas)
    (hsize : size ≤ 1024) :
    wp (mallocSmall c size) OutOfPages
      (fun r h' => ∀ b, r = some b → GivenOut c h₀ live size b h') h := by
  obtain ⟨hk, hfits⟩ := sizeClass_small hsize
  generalize hindex : sizeClass size 0 descCnt = k at hk hfits
  have hpop : ∀ {h : Heap} {arenas fl b rest}, Arenas c h₀ h live arenas fl → fl k = b :: rest →
      Occupied c (⟨b, size⟩ :: live) arenas →
      wp (popBlock c k >>= fun b => pure (some b)) OutOfPages
        (fun r h' => ∀ b, r = some b → GivenOut c h₀ live size b h') h := by
    intro h arenas fl b rest ha hfl hocc
    rw [wp_bind]
    refine wp_mono (popBlock_spec ha hk hfl hfits) ?_
    rintro _ h' ⟨rfl, harenas, hzero⟩ _ ⟨⟩
    exact ⟨⟨_, _, harenas, hocc⟩, hzero⟩
  rw [mallocSmall, wp_bind, wp_get, hindex]
  split
  · rename_i hempty
    have hnil : fl k = [] := by
      cases hfl : fl k with
      | nil => rfl
      | cons b rest =>
          have hlinked := ha.lists.linked k hk
          rw [hfl] at hlinked
          have htail : b = c.tail k := hlinked.1.symm.trans hempty
          have hb : b ∈ fl k := by simp [hfl]
          exact absurd (htail ▸ hb) (ha.lists.tail_notMem hk)
    rw [wp_bind]
    refine wp_mono (newArena_spec ha hk) ?_
    intro r h₁ hr
    cases r with
    | false =>
        intro b hb
        cases hb
    | true =>
        obtain ⟨v, harenas⟩ := hr rfl
        have hpos := blockPerArena_pos hk
        rw [← blocks_length c v k, List.length_pos_iff] at hpos
        obtain ⟨b, rest, hblocks⟩ := List.exists_cons_of_ne_nil hpos
        have hfirst : Function.update fl k (fl k ++ (Arena.small v k).blocks c) k = b :: rest := by
          rw [Function.update_self, hnil, List.nil_append, hblocks]
        refine hpop harenas hfirst ?_
        intro w j hA
        rcases List.mem_cons.mp hA with heq | hA
        · rw [heq, hblocks]
          exact ⟨b, List.mem_cons_self, List.mem_cons_self⟩
        · exact ho.cons _ w j hA
  · rename_i hne
    cases hfl : fl k with
    | nil =>
        have hlinked := ha.lists.linked k hk
        rw [hfl] at hlinked
        exact absurd hlinked.1 hne
    | cons b rest => exact hpop ha hfl (ho.cons _)

/-- A block that `sys_malloc` gives out is new, large enough and all zero. -/
theorem sysMalloc_spec (hh : HoldsBlocks c h₀ h live) :
    wp (sysMalloc c size) (MallocStop size)
      (fun r h' => ∀ b, r = some b → GivenOut c h₀ live size b h') h := by
  obtain ⟨arenas, fl, ha, ho⟩ := hh
  rw [sysMalloc]
  split
  · intro b hb
    cases hb
  split
  · exact mallocLarge_spec ha ho
  · exact wp_mono_stop (mallocSmall_spec ha ho (by omega)) fun _ => .inl

end Malloc

end Aitos.Mm
