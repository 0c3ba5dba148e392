import Aitos.Mm.Malloc

/-!
# Taking blocks back

`sys_free` puts a block of a small arena on the free list, and gives the page back once all blocks
of the arena are there; a large block goes back as its run of pages.  None of its assertions fails
for a block in use, and the arenas stay as `Arenas` says.
-/

namespace Aitos.Mm

open Framework

section Permute

variable {c : Context} {h₀ h : Heap}

private theorem covered_perm {runs runs' : List (Nat × Nat)} (hperm : runs.Perm runs') :
    Covered runs = Covered runs' := by
  funext w
  simp only [Covered, hperm.mem_iff]

private theorem Pages.perm {runs runs' : List (Nat × Nat)} (hp : Pages c h₀ h runs)
    (hperm : runs.Perm runs') : Pages c h₀ h runs' := by
  have hcov := covered_perm hperm
  refine ⟨fun r hr => hp.inside r (hperm.mem_iff.mpr hr), ?_, ?_, ?_, ?_⟩
  · exact hperm.pairwise hp.apart fun h => h.symm
  · rw [← hcov]
    exact hp.bitmap
  · rw [← hcov]
    exact hp.fresh
  · rw [← hcov]
    exact hp.frames

private theorem Arenas.perm {live live' : List Block} {arenas arenas' : List Arena}
    {fl : Nat → List Nat}
    (ha : Arenas c h₀ h live arenas fl) (hlive : live.Perm live') (harenas : arenas.Perm arenas') :
    Arenas c h₀ h live' arenas' fl := by
  have hptrs : (ptrs live).Perm (ptrs live') := hlive.map Block.ptr
  refine ⟨ha.pages.perm (harenas.map Arena.run), ?_, ha.lists, ?_, ?_, ?_, ?_, ?_⟩
  · exact fun A hA => ha.sound A (harenas.mem_iff.mpr hA)
  · exact fun A hA => ha.header A (harenas.mem_iff.mpr hA)
  · intro k hk x
    rw [ha.free k hk x]
    simp only [harenas.mem_iff, hptrs.mem_iff]
  · exact hptrs.nodup_iff.mp ha.nodup
  · intro b hb
    obtain ⟨A, hA, hblock⟩ := ha.owner b (hlive.mem_iff.mpr hb)
    exact ⟨A, harenas.mem_iff.mp hA, hblock⟩
  · exact fun v n hA => hptrs.mem_iff.mp (ha.large v n (harenas.mem_iff.mpr hA))

end Permute

section Unsplit

variable {c : Context} {m : Words} {fl : Nat → List Nat} {k e : Nat} {E : Stop → Prop}

theorem FreeLists.erase (h : FreeLists c m fl) (hk : k < descCnt) (he : e ∈ fl k) :
    FreeLists c (unlink m e) (Function.update fl k ((fl k).erase e)) ∧
      ∀ x, c.HeaderWord x → unlink m e x = m x := by
  obtain ⟨xs, ys, -, hfl, herase⟩ := List.exists_erase_eq he
  rw [herase]
  exact h.remove hk hfl

private theorem unsplitArena_spec {v : Nat} (hk : k < descCnt) (n : Nat) : ∀ {i : Nat} {h : Heap}
    {fl : Nat → List Nat}, FreeLists c h.mem fl → (blocksFrom c v k i n).Nodup →
    (∀ x ∈ blocksFrom c v k i n, x ∈ fl k) →
    wp (unsplitArena c (c.addr v) k i n) E (fun _ h' => ∃ m', h' = h.setMem m' ∧
      FreeLists c m' (Function.update fl k ((fl k).diff (blocksFrom c v k i n))) ∧
      ∀ x, c.HeaderWord x → m' x = h.mem x) h := by
  induction n with
  | zero =>
      intro i h fl hf _ _
      refine ⟨h.mem, rfl, ?_, fun _ _ => rfl⟩
      rw [blocksFrom, List.range'_zero, List.map_nil, List.diff_nil, Function.update_eq_self]
      exact hf
  | succ n ih =>
      intro i h fl hf hnodup hfree
      have hcons : blocksFrom c v k i (n + 1) =
          arena2block (c.addr v) (blockSize k) i :: blocksFrom c v k (i + 1) n := by
        rw [blocksFrom, List.range'_succ, List.map_cons, blocksFrom]
      rw [hcons] at hnodup hfree ⊢
      obtain ⟨hfirst, hnodup⟩ := List.nodup_cons.mp hnodup
      have hmem := hfree _ List.mem_cons_self
      obtain ⟨hlists, hheader⟩ := hf.erase hk hmem
      rw [unsplitArena, wp_bind]
      apply assertFound_spec hf hk (decide_eq_true hmem).symm
      rw [wp_bind, listRemove, wp_modify]
      refine wp_mono (ih hlists hnodup ?_) ?_
      · intro x hx
        rw [Function.update_self]
        have hne : x ≠ arena2block (c.addr v) (blockSize k) i := by
          rintro rfl
          exact hfirst hx
        exact (List.mem_erase_of_ne hne).mpr (hfree x (List.mem_cons_of_mem _ hx))
      · rintro _ h' ⟨m', rfl, hlists', hheader'⟩
        refine ⟨m', rfl, ?_, fun x hx => (hheader' x hx).trans (hheader x hx)⟩
        rw [Function.update_self, Function.update_idem] at hlists'
        rw [List.diff_cons]
        exact hlists'

private theorem countP_diff {p : Nat → Bool} {bs : List Nat} (hp : ∀ x ∈ bs, p x = false) :
    ∀ l : List Nat, (l.diff bs).countP p = l.countP p := by
  induction bs with
  | nil =>
      intro l
      rw [List.diff_nil]
  | cons b bs ih =>
      intro l
      have hb := hp b List.mem_cons_self
      rw [List.diff_cons, ih fun x hx => hp x (List.mem_cons_of_mem _ hx), List.countP_erase]
      simp [hb]

end Unsplit

section Free

variable {c : Context} {h₀ h h₁ : Heap} {live : List Block} {arenas : List Arena}
  {fl : Nat → List Nat} {v k n : Nat} {b : Block}

namespace Arenas

private theorem ptr_notMem (ha : Arenas c h₀ h (b :: live) arenas fl) : b.ptr ∉ ptrs live :=
  (List.nodup_cons.mp ha.nodup).1

private theorem drop_large (ha : Arenas c h₀ h (b :: live) (.large v n :: arenas) fl)
    (hb : b.ptr = c.addr v + arenaSize) (hp : Pages c h₀ h₁ (arenas.map Arena.run))
    (hmem : h₁.mem = h.mem) : Arenas c h₀ h₁ live arenas fl := by
  have hlarge : Arena.large v n ∈ Arena.large v n :: arenas := List.mem_cons_self
  have hown : b.ptr ∈ (Arena.large v n).blocks c := by
    rw [hb]
    exact List.mem_singleton_self _
  have hsub : ∀ A ∈ arenas, A ∈ Arena.large v n :: arenas := fun A hA => List.mem_cons_of_mem _ hA
  refine ⟨hp, fun A hA => ha.sound A (hsub A hA), ?_, ?_, ?_, (List.nodup_cons.mp ha.nodup).2, ?_,
    ?_⟩
  · rw [hmem]
    exact ha.lists
  · intro A hA
    rw [hmem]
    exact ha.header A (hsub A hA)
  · intro j hj x
    rw [ha.free j hj x]
    have hsmall : ∀ w, Arena.small w j ∈ Arena.large v n :: arenas ↔ .small w j ∈ arenas := by
      intro w
      simp
    have hptrs : x ∉ ptrs (b :: live) ↔ x ≠ b.ptr ∧ x ∉ ptrs live := by
      rw [ptrs, List.map_cons, List.mem_cons, not_or, ptrs]
    simp only [hsmall, hptrs]
    constructor
    · exact fun hx => ⟨hx.1, hx.2.2⟩
    · rintro ⟨⟨w, hA, hx⟩, hunused⟩
      refine ⟨⟨w, hA, hx⟩, ?_, hunused⟩
      rintro rfl
      have heq := ha.eq_of_block (hsub _ hA) hlarge hx hown
      simp at heq
  · intro d hd
    obtain ⟨A, hA, hblock, hsize⟩ := ha.owner d (List.mem_cons_of_mem _ hd)
    rcases List.mem_cons.mp hA with rfl | hA
    · have heq : d.ptr = b.ptr := (List.mem_singleton.mp hblock).trans hb.symm
      exact absurd (heq ▸ List.mem_map_of_mem hd) ha.ptr_notMem
    · exact ⟨A, hA, hblock, hsize⟩
  · intro w j hA
    have hptr := ha.large w j (hsub _ hA)
    rcases List.mem_cons.mp hptr with heq | hptr
    · have hwv : w = v := by
        rw [hb, Context.addr, Context.addr] at heq
        omega
      subst w
      have hapart := (List.pairwise_cons.mp ha.pages.apart).1 _ (List.mem_map_of_mem hA)
      have hpos : 0 < n := (ha.inside hlarge).1
      have hpos' : 0 < j := (ha.inside (hsub _ hA)).1
      simp only [ApartRuns, Arena.run, Arena.page, Arena.pages] at hapart
      omega
    · exact hptr

private theorem block_of_page (ha : Arenas c h₀ h live arenas fl) (hA : .small v k ∈ arenas)
    {j x : Nat} (hj : j < descCnt) (hx : x ∈ fl j) (hpage : block2arena x = c.addr v) :
    j = k ∧ x ∈ (Arena.small v k).blocks c := by
  obtain ⟨w, hB, hblock⟩ := ha.free_block hj hx
  have hpage' := block2arena_block (ha.sound _ hB) hblock
  have heq : Arena.small w j = .small v k := by
    refine ha.eq_of_page hB hA ?_
    rw [hpage, Arena.page, Context.addr, Context.addr] at hpage'
    simp only [Arena.page]
    omega
  cases heq
  exact ⟨rfl, hblock⟩

/-- `cnt` of an arena reaches `block_per_arena` when all its blocks are free. -/
theorem full_iff (ha : Arenas c h₀ h live arenas fl) (hA : .small v k ∈ arenas) :
    h.mem (c.addr v + 4) = blockPerArena k ↔ ∀ x ∈ (Arena.small v k).blocks c, x ∈ fl k := by
  have hk : k < descCnt := ha.sound _ hA
  have hcnt : h.mem (c.addr v + 4) =
      ((fl k).filter fun x => block2arena x = c.addr v).length := by
    rw [(ha.header _ hA).2.2, List.countP_eq_length_filter]
  have hnodup := (ha.lists.nodup k hk).filter fun x => decide (block2arena x = c.addr v)
  have hsub : (fl k).filter (fun x => block2arena x = c.addr v) ⊆ (Arena.small v k).blocks c := by
    intro x hx
    obtain ⟨hx, hpage⟩ := List.mem_filter.mp hx
    exact (ha.block_of_page hA hk hx (of_decide_eq_true hpage)).2
  have hle := List.subperm_of_subset hnodup hsub
  rw [hcnt, ← blocks_length c v k]
  constructor
  · intro hlen x hx
    have hperm := hle.perm_of_length_le hlen.ge
    exact (List.mem_filter.mp (hperm.mem_iff.mpr hx)).1
  · intro hall
    refine le_antisymm hle.length_le ?_
    refine (List.subperm_of_subset (blocks_nodup c _) ?_).length_le
    intro x hx
    have hpage := block2arena_block (A := .small v k) hk hx
    exact List.mem_filter.mpr ⟨hall x hx, decide_eq_true hpage⟩

private theorem put_back (ha : Arenas c h₀ h (b :: live) arenas fl) (hA : .small v k ∈ arenas)
    (hblock : b.ptr ∈ (Arena.small v k).blocks c) {m₁ : Words}
    (hm₁ : m₁ = insertBefore h.mem (c.tail k) b.ptr) :
    Arenas c h₀
      (h.setMem (Function.update m₁ (c.addr v + 4) ((m₁ (c.addr v + 4) + 1) % 2 ^ 32)))
      live arenas (Function.update fl k (fl k ++ [b.ptr])) := by
  have hk : k < descCnt := ha.sound _ hA
  have hpage := block2arena_block (ha.sound _ hA) hblock
  have hfresh : ∀ j < descCnt, b.ptr ∉ fl j := by
    intro j hj hx
    exact ((ha.free j hj _).mp hx).2 List.mem_cons_self
  obtain ⟨hlists₁, hheader₁⟩ :=
    ha.lists.append hk (block_place (Nat.lt_of_succ_le (ha.inside hA).2) hblock) hfresh
  rw [← hm₁] at hlists₁ hheader₁
  set fl' := Function.update fl k (fl k ++ [b.ptr]) with hfl'
  have hcount : ∀ w j, (fl' j).countP (fun x => block2arena x = c.addr w) =
      (fl j).countP (fun x => block2arena x = c.addr w) + if w = v ∧ j = k then 1 else 0 := by
    intro w j
    by_cases hjk : j = k
    · subst j
      have haddr : c.addr v = c.addr w ↔ w = v := by
        rw [Context.addr, Context.addr]
        omega
      simp only [Arena.page] at hpage
      rw [hfl', Function.update_self, List.countP_append, List.countP_singleton, hpage]
      simp [haddr]
    · rw [hfl', Function.update_of_ne hjk, if_neg fun h => hjk h.2, Nat.add_zero]
  have hheaders : ∀ B ∈ arenas, ∀ j < arenaSize,
      m₁ (c.addr B.page + j) = h.mem (c.addr B.page + j) :=
    fun B hB j hj => hheader₁ _ (ha.headerWord hB hj)
  have hcnt : m₁ (c.addr v + 4) = (fl k).countP fun x => block2arena x = c.addr v :=
    (hheaders _ hA 4 (by decide)).trans (ha.header _ hA).2.2
  have hup : (m₁ (c.addr v + 4) + 1) % 2 ^ 32 =
      (fl' k).countP fun x => block2arena x = c.addr v := by
    have hle := List.countP_le_length (p := fun x => block2arena x = c.addr v) (l := fl' k)
    have hlt := hlists₁.length_lt hk
    have hone := hcount v k
    rw [if_pos ⟨rfl, rfl⟩] at hone
    rw [hcnt]
    omega
  have hptrs : ∀ x, x ∉ ptrs (b :: live) ↔ x ≠ b.ptr ∧ x ∉ ptrs live := by
    intro x
    rw [ptrs, List.map_cons, List.mem_cons, not_or, ptrs]
  refine ⟨ha.pages.setMem _, ha.sound, ha.setCnt_lists hA hlists₁ _, ?_, ?_,
    (List.nodup_cons.mp ha.nodup).2, ?_, ?_⟩
  · intro B hB
    refine ha.setCnt_header hA hheaders hup (fun w j _ hne => ?_) hB
    rw [hcount w j, if_neg hne, Nat.add_zero]
  · intro j hj x
    rw [hfl', mem_appended, ha.free j hj x, hptrs]
    constructor
    · rintro (⟨hx, -, hunused⟩ | ⟨rfl, rfl⟩)
      · exact ⟨hx, hunused⟩
      · exact ⟨⟨v, hA, hblock⟩, ha.ptr_notMem⟩
    · rintro ⟨⟨w, hB, hx⟩, hunused⟩
      by_cases hxb : x = b.ptr
      · rw [hxb] at hx
        have heq := ha.eq_of_block hB hA hx hblock
        cases heq
        exact .inr ⟨rfl, hxb⟩
      · exact .inl ⟨⟨w, hB, hx⟩, hxb, hunused⟩
  · exact fun d hd => ha.owner d (List.mem_cons_of_mem _ hd)
  · intro w n hB
    rcases List.mem_cons.mp (ha.large w n hB) with heq | hptr
    · have hx : b.ptr ∈ (Arena.large w n).blocks c := by
        rw [← heq]
        exact List.mem_singleton_self _
      have hAB := ha.eq_of_block hB hA hx hblock
      simp at hAB
    · exact hptr

private theorem drop_small {m' : Words} (ha : Arenas c h₀ h live (.small v k :: arenas) fl)
    (hlists : FreeLists c m'
      (Function.update fl k ((fl k).diff ((Arena.small v k).blocks c))))
    (hheader : ∀ x, c.HeaderWord x → m' x = h.mem x)
    (hall : ∀ x ∈ (Arena.small v k).blocks c, x ∈ fl k)
    (hp : Pages c h₀ h₁ (arenas.map Arena.run)) (hmem : h₁.mem = m') :
    Arenas c h₀ h₁ live arenas
      (Function.update fl k ((fl k).diff ((Arena.small v k).blocks c))) := by
  have hA : Arena.small v k ∈ Arena.small v k :: arenas := List.mem_cons_self
  have hk : k < descCnt := ha.sound _ hA
  have hsub : ∀ A ∈ arenas, A ∈ Arena.small v k :: arenas := fun A hA => List.mem_cons_of_mem _ hA
  have hne : ∀ A ∈ arenas, A.page ≠ v := by
    intro A hA' hpage
    have hapart := (List.pairwise_cons.mp ha.pages.apart).1 _ (List.mem_map_of_mem hA')
    have hpos := (ha.inside (hsub A hA')).1
    change v + 1 ≤ A.page ∨ A.page + A.pages ≤ v at hapart
    omega
  have hother : ∀ A ∈ arenas, ∀ x ∈ A.blocks c, x ∉ (Arena.small v k).blocks c := by
    intro A hA' x hx hx'
    have heq := ha.eq_of_block (hsub A hA') hA hx hx'
    exact hne A hA' (heq ▸ rfl)
  refine ⟨hp, fun A hA => ha.sound A (hsub A hA), ?_, ?_, ?_, ha.nodup, ?_, ?_⟩
  · rw [hmem]
    exact hlists
  · intro A hA'
    rw [hmem]
    have hold : Header c m' fl A := header_congr (ha.header A (hsub A hA')) fun j hj =>
      hheader _ (ha.headerWord (hsub A hA') hj)
    cases A with
    | large w n => exact hold
    | small w j =>
        refine ⟨hold.1, hold.2.1, hold.2.2.trans ?_⟩
        by_cases hjk : j = k
        · subst j
          rw [Function.update_self]
          refine (countP_diff ?_ _).symm
          intro x hx
          have hpage := block2arena_block (A := .small v k) hk hx
          have hwv := hne _ hA'
          simp only [Arena.page] at hpage hwv
          rw [hpage, decide_eq_false_iff_not, Context.addr, Context.addr]
          omega
        · rw [Function.update_of_ne hjk]
  · intro j hj x
    have hmem' : x ∈ Function.update fl k ((fl k).diff ((Arena.small v k).blocks c)) j ↔
        x ∈ fl j ∧ x ∉ (Arena.small v k).blocks c := by
      by_cases hjk : j = k
      · subst j
        rw [Function.update_self]
        exact (ha.lists.nodup k hk).mem_sdiff_iff
      · rw [Function.update_of_ne hjk]
        refine (and_iff_left_of_imp fun hx hx' => ?_).symm
        exact ha.lists.apart j hj k hk hjk x hx (hall x hx')
    rw [hmem', ha.free j hj x]
    constructor
    · rintro ⟨⟨⟨w, hB, hx⟩, hunused⟩, hout⟩
      rcases List.mem_cons.mp hB with heq | hB
      · cases heq
        exact absurd hx hout
      · exact ⟨⟨w, hB, hx⟩, hunused⟩
    · rintro ⟨⟨w, hB, hx⟩, hunused⟩
      exact ⟨⟨⟨w, hsub _ hB, hx⟩, hunused⟩, hother _ hB x hx⟩
  · intro d hd
    obtain ⟨A, hB, hblock, hsize⟩ := ha.owner d hd
    rcases List.mem_cons.mp hB with rfl | hB
    · have hunused := ((ha.free k hk _).mp (hall _ hblock)).2
      exact absurd (List.mem_map_of_mem hd) hunused
    · exact ⟨A, hB, hblock, hsize⟩
  · intro w n hB
    exact ha.large w n (hsub _ hB)

end Arenas

theorem Occupied.tail {A : Arena} (ho : Occupied c (b :: live) arenas)
    (ha : Arenas c h₀ h (b :: live) arenas fl) (hA : A ∈ arenas) (hblock : b.ptr ∈ A.blocks c)
    (hB : .small v k ∈ arenas) (hne : .small v k ≠ A) :
    ∃ x ∈ (Arena.small v k).blocks c, x ∈ ptrs live := by
  obtain ⟨x, hx, hlive⟩ := ho v k hB
  refine ⟨x, hx, (List.mem_cons.mp hlive).resolve_left ?_⟩
  rintro rfl
  exact hne (ha.eq_of_block hB hA hx hblock)

private theorem descIndex_desc (c : Context) (k : Nat) : c.descIndex (c.desc k) = k := by
  simp [Context.descIndex, Context.desc, descSize]

private theorem freeSmall_spec {E : Stop → Prop}
    (ha : Arenas c h₀ h (b :: live) (.small v k :: arenas) fl)
    (ho : Occupied c (b :: live) (.small v k :: arenas))
    (hblock : b.ptr ∈ (Arena.small v k).blocks c) :
    wp (freeSmall c (c.addr v) b.ptr) E (fun _ h' => HoldsBlocks c h₀ h' live) h := by
  have hA : Arena.small v k ∈ Arena.small v k :: arenas := List.mem_cons_self
  have hk : k < descCnt := ha.sound _ hA
  have hdesc : h.arenaDesc (c.addr v) = c.desc k := (ha.header _ hA).1
  have hback := ha.put_back hA hblock rfl
  rw [freeSmall, wp_bind, wp_get, hdesc, descIndex_desc, wp_bind, listAppend, wp_modify, wp_bind,
    wp_modify, wp_bind, wp_get]
  set h₁ := (h.setMem (insertBefore h.mem (c.tail k) b.ptr)).setMem (Function.update
    (insertBefore h.mem (c.tail k) b.ptr) (c.addr v + 4)
    ((insertBefore h.mem (c.tail k) b.ptr (c.addr v + 4) + 1) % 2 ^ 32)) with hh₁
  change Arenas c h₀ h₁ live _ _ at hback
  split
  · rename_i hfull
    have hall := (hback.full_iff hA).mp hfull
    rw [wp_bind]
    refine wp_mono (unsplitArena_spec hk (blockPerArena k) hback.lists ?_ ?_) ?_
    · rw [blocksFrom_zero]
      exact blocks_nodup c _
    · rw [blocksFrom_zero]
      exact hall
    · rintro _ h₂ ⟨m', rfl, hlists, hheader⟩
      rw [blocksFrom_zero] at hlists
      refine wp_mono (mfreePage_spec c (hback.pages.setMem m') List.mem_cons_self) ?_
      rintro _ h₃ ⟨hp, hmem⟩
      rw [List.map_cons, Arena.run, Arena.page, Arena.pages, List.erase_cons_head] at hp
      refine ⟨arenas, _, hback.drop_small hlists hheader hall hp hmem, ?_⟩
      intro w j hB
      refine ho.tail ha hA hblock (List.mem_cons_of_mem _ hB) ?_
      intro heq
      have hapart := (List.pairwise_cons.mp ha.pages.apart).1 _ (List.mem_map_of_mem hB)
      rw [heq] at hapart
      simp [ApartRuns, Arena.run, Arena.page, Arena.pages] at hapart
  · rename_i hfull
    refine ⟨_, _, hback, ?_⟩
    intro w j hB
    by_cases heq : Arena.small w j = .small v k
    · rw [heq]
      have hnot := mt (hback.full_iff hA).mpr hfull
      push Not at hnot
      obtain ⟨x, hx, hused⟩ := hnot
      refine ⟨x, hx, ?_⟩
      by_contra hunused
      exact hused ((hback.free k hk x).mpr ⟨⟨v, hA, hx⟩, hunused⟩)
    · exact ho.tail ha hA hblock hB heq

/-- `sys_free` of a block in use returns, and the block is no longer in use. -/
theorem sysFree_spec {E : Stop → Prop} (hh : HoldsBlocks c h₀ h live) (hb : b ∈ live) :
    wp (sysFree c b.ptr) E (fun _ h' => HoldsBlocks c h₀ h' (live.erase b)) h := by
  obtain ⟨arenas, fl, ha, ho⟩ := hh
  obtain ⟨A, hA, hblock, -⟩ := ha.owner b hb
  have hlive := List.perm_cons_erase hb
  have harenas := List.perm_cons_erase hA
  have ho' : Occupied c (b :: live.erase b) (A :: arenas.erase A) := by
    intro v k hB
    obtain ⟨x, hx, hused⟩ := ho v k (harenas.mem_iff.mpr hB)
    exact ⟨x, hx, (hlive.map Block.ptr).mem_iff.mp hused⟩
  replace ha := ha.perm hlive harenas
  have hA' : A ∈ A :: arenas.erase A := List.mem_cons_self
  have hinside := block_inside (ha.sound A hA') hblock
  have hpage := block2arena_block (ha.sound A hA') hblock
  have hstart : c.vaddrStart ≤ c.addr A.page := Nat.le_add_right _ _
  have hpos : b.ptr ≠ 0 := by omega
  have hheader := ha.header A hA'
  rw [sysFree, wp_bind]
  apply wp_assert_of c hpos
  rw [if_neg hpos, wp_bind]
  apply wp_assert_of c
  · intro hkernel
    rw [← c.kernelHeap hkernel]
    omega
  rw [wp_bind, wp_get, hpage, wp_bind]
  cases A with
  | small v k =>
      have hlarge : h.arenaLarge (c.addr v) = 0 := hheader.2.1
      apply wp_assert_of c (.inr hlarge)
      rw [if_neg (by simp [Arena.page, hlarge])]
      exact freeSmall_spec ha ho' hblock
  | large v n =>
      have hdesc : h.arenaDesc (c.addr v) = 0 := hheader.1
      have hlarge : h.arenaLarge (c.addr v) = 1 := hheader.2.1
      have hcnt : h.arenaCnt (c.addr v) = n := hheader.2.2
      apply wp_assert_of c (.inl hlarge)
      rw [Arena.page, if_pos ⟨hdesc, hlarge⟩, hcnt]
      refine wp_mono (mfreePage_spec c ha.pages List.mem_cons_self) ?_
      rintro _ h₁ ⟨hp, hmem⟩
      rw [List.map_cons, Arena.run, Arena.page, Arena.pages, List.erase_cons_head] at hp
      refine ⟨_, fl, ha.drop_large (List.mem_singleton.mp hblock) hp hmem, ?_⟩
      intro w j hB
      exact ho'.tail ha hA' hblock (List.mem_cons_of_mem _ hB) (by simp)

end Free

end Aitos.Mm
