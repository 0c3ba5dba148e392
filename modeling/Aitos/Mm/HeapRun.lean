import Aitos.Framework.Run
import Aitos.Lib.List
import Aitos.Mm.Free

/-!
# Runs of the heap

Any calls of `sys_malloc` and `sys_free` in one context, from the descriptors `block_desc_init` has
set up, with stores of the client into its blocks in between.  Only blocks in use are freed.
-/

namespace Aitos.Mm

open Framework

/-- One round of `block_desc_init` -/
def initDesc (c : Context) (m : Words) (index : Nat) : Words :=
  let m := Function.update m (c.desc index) (blockSize index)
  let m := Function.update m (c.desc index + 4) (blockPerArena index)
  Lib.listInit m (c.head index)

def blockDescInit (c : Context) (m : Words) : Words := (List.range descCnt).foldl (initDesc c) m

section Init

variable {c : Context} {m : Words} {k j x : Nat}

private theorem initDesc_links : initDesc c m k (c.head k + 4) = c.tail k ∧
    initDesc c m k (c.tail k) = c.head k := by
  simp [initDesc, Lib.listInit, Lib.tail, Context.head, Context.tail]

private theorem initDesc_outside (h : x < c.desc k ∨ c.desc k + descSize ≤ x) :
    initDesc c m k x = m x := by
  rw [descSize] at h
  simp only [initDesc, Lib.listInit, Lib.tail, Function.update_apply, Context.head]
  split_ifs <;> omega

private theorem foldl_initDesc (n : Nat) (hk : k < n) :
    Linked ((List.range n).foldl (initDesc c) m) (c.head k) [] (c.tail k) := by
  induction n with
  | zero => omega
  | succ n ih =>
      rw [List.range_succ, List.foldl_append, List.foldl_cons, List.foldl_nil]
      by_cases hkn : k = n
      · subst k
        exact initDesc_links
      · obtain ⟨hnext, hprev⟩ := ih (by omega)
        have hapart : c.desc k + descSize ≤ c.desc n := by
          simp only [Context.desc, descSize]
          omega
        simp only [descSize] at hapart
        constructor
        · rw [initDesc_outside, hnext]
          simp only [Context.head, descSize]
          omega
        · rw [initDesc_outside, hprev]
          simp only [Context.tail, descSize]
          omega

private theorem blockDescInit_lists : FreeLists c (blockDescInit c m) fun _ => [] where
  linked _ hk := foldl_initDesc descCnt hk
  nodup _ _ := List.nodup_nil
  place _ _ _ hx := absurd hx List.not_mem_nil
  apart _ _ _ _ _ _ hx := absurd hx List.not_mem_nil

end Init

/-- The page table of a context none of whose free pages is mapped; the kernel has the tables of its
heap. -/
structure Unmapped (c : Context) (h : Heap) : Prop where
  free : ∀ v < c.vaddrLen, h.vaddrBitmap v = false → h.pte (c.page v) % 2 = 0
  kernel : c.user = false → ∀ v < c.vaddrLen, h.pde (c.page v / 1024) = true

theorem Unmapped.pages {c : Context} {h : Heap} (hu : Unmapped c h) : Pages c h h [] := by
  have hnone : ∀ v, ¬ Covered [] v := by
    intro v hv
    simp [Covered] at hv
  refine ⟨by simp, .nil, ?_, fun v hv => absurd hv (hnone v), ?_⟩
  · intro v
    simp [hnone]
  · exact
      { frame := fun v hv => absurd hv (hnone v)
        inj := fun v w hv => absurd hv (hnone v)
        pool := by
          intro i
          simp [hnone]
        present := fun v hv => absurd hv (hnone v)
        free := fun v hv _ => hu.free v hv
        kernel := hu.kernel }

/-- The heap and the blocks its client has in use. -/
structure HeapState where
  heap : Heap
  live : List Block

inductive HeapEvent where
  | malloc (size : Nat)
  | free (b : Block)
  /-- the client writes into its blocks -/
  | store (m : Words)

/-- Nothing but words of the blocks in use has changed. -/
def Stored (live : List Block) (m m' : Words) : Prop :=
  ∀ x, (∀ b ∈ live, ¬ (b.ptr ≤ x ∧ x < b.ptr + b.size)) → m' x = m x

/-- What the calls do, as far as they return.  With `NDEBUG`, a call that finds too few pages may
lose the ones it has found; such a call is left out. -/
def HeapState.Step (c : Context) (s : HeapState) : HeapEvent → HeapState → Prop
  | .malloc size, s' => ∃ r, sysMalloc c size s.heap = .ok (r, s'.heap) ∧
      (c.ndebug = true → r = none → s'.heap = s.heap) ∧
      s'.live = (r.map fun b => ⟨b, size⟩).toList ++ s.live
  | .free b, s' => b ∈ s.live ∧ sysFree c b.ptr s.heap = .ok ((), s'.heap) ∧
      s'.live = s.live.erase b
  | .store m, s' => Stored s.live s.heap.mem m ∧ s'.heap = s.heap.setMem m ∧ s'.live = s.live

/-- The heap of a context from its first call on. -/
def heapSystem (c : Context) (h₀ : Heap) : System HeapState HeapEvent where
  init s := s.heap = h₀.setMem (blockDescInit c h₀.mem) ∧ s.live = []
  step := HeapState.Step c

section Refused

variable {c : Context} {h h' : Heap} {size : Nat}

/-- With its assertions, the kernel stops where a frame is missing. -/
private theorem palloc_debug (hdebug : c.ndebug = false) (user : Bool) :
    wp (palloc c user) (fun _ => True) (fun r _ => r ≠ none) h := by
  rw [palloc, wp_bind, wp_get, wp_bind, Context.bitmapScan]
  cases firstClear (h.pool user) 0 (c.poolLen user) with
  | none =>
      dsimp only
      rw [wp_bind, wp_assert, if_neg (by simp [hdebug])]
      trivial
  | some start =>
      dsimp only
      rw [wp_pure, if_pos rfl]
      dsimp only
      rw [wp_bind, wp_modify, wp_pure]
      simp

private theorem mapPages_debug (hdebug : c.ndebug = false) (n : Nat) : ∀ {h : Heap} {vaddr : Nat},
    wp (mapPages c vaddr n) (fun _ => True) (fun r _ => r = true) h := by
  induction n with
  | zero => exact rfl
  | succ n ih =>
      intro h vaddr
      rw [mapPages, wp_bind]
      refine wp_mono (palloc_debug hdebug c.user) ?_
      intro r h₁ hr
      cases r with
      | none => exact absurd rfl hr
      | some phys =>
          dsimp only
          rw [wp_bind]
          refine wp_mono (Q := fun _ _ => True) ?_ fun _ h₂ _ => ih
          rw [wp]
          split <;> trivial

private theorem mallocPage_refused (hdebug : c.ndebug = false) (n : Nat) :
    wp (mallocPage c n) (fun _ => True) (fun r h' => r = none → h' = h) h := by
  rw [mallocPage, wp_bind]
  apply wp_assert_stop c trivial
  rw [givePages, wp_bind, vaddrGet, wp_bind, wp_get, wp_bind]
  refine wp_mono (Q := fun _ h' => h' = h) ?_ ?_
  · rw [Context.bitmapScan]
    cases firstClear h.vaddrBitmap 0 c.vaddrLen with
    | none =>
        dsimp only
        rw [wp_bind]
        apply wp_assert_stop c trivial
        rw [wp_pure]
    | some start =>
        dsimp only
        rw [wp_pure]
  · rintro r _ rfl
    cases r with
    | none => exact fun _ => rfl
    | some start =>
        dsimp only
        split
        · rw [wp_bind, wp_modify, wp_bind]
          apply wp_assert_stop c trivial
          rw [wp_pure]
          dsimp only
          rw [wp_bind]
          refine wp_mono (mapPages_debug hdebug n) ?_
          rintro _ h₁ rfl
          simp
        · trivial

private theorem newArena_refused (hdebug : c.ndebug = false) (k : Nat) :
    wp (newArena c k) (fun _ => True) (fun r h' => r = false → h' = h) h := by
  rw [newArena, wp_bind]
  refine wp_mono (mallocPage_refused hdebug 1) ?_
  intro r h₁ hr
  cases r with
  | none => exact fun _ => hr rfl
  | some a =>
      dsimp only
      rw [wp_bind, wp_modify, wp_bind]
      refine wp_mono (Q := fun _ _ => True) ?_ fun _ h₂ _ => by simp
      rw [wp]
      split <;> trivial

private theorem sysMalloc_refused (hdebug : c.ndebug = false) :
    wp (sysMalloc c size) (fun _ => True) (fun r h' => r = none → h' = h) h := by
  have hpop : ∀ (k : Nat) (h₁ : Heap), wp (popBlock c k >>= fun b => pure (some b))
      (fun _ => True) (fun r h' => r = none → h' = h) h₁ := by
    intro k h₁
    rw [wp_bind]
    refine wp_mono (Q := fun _ _ => True) ?_ fun _ h₂ _ => by simp
    rw [wp]
    split <;> trivial
  rw [sysMalloc]
  split
  · exact fun _ => rfl
  split
  · rw [mallocLarge, wp_bind]
    refine wp_mono (mallocPage_refused hdebug _) ?_
    intro r h₁ hr
    cases r with
    | none => exact fun _ => hr rfl
    | some a =>
        dsimp only
        rw [wp_bind, wp_modify, wp_pure]
        simp
  · rw [mallocSmall, wp_bind, wp_get]
    split
    · rw [wp_bind]
      refine wp_mono (newArena_refused hdebug _) ?_
      intro r h₁ hr
      cases r with
      | false => exact fun _ => hr rfl
      | true => exact hpop _ h₁
    · exact hpop _ h

end Refused

section Run

variable {c : Context} {h₀ h : Heap} {live : List Block}

theorem HoldsBlocks.store {m : Words} (hh : HoldsBlocks c h₀ h live) (hm : Stored live h.mem m) :
    HoldsBlocks c h₀ (h.setMem m) live := by
  obtain ⟨arenas, fl, ha, ho⟩ := hh
  refine ⟨arenas, fl, ?_, ho⟩
  refine ha.spared (S := fun x => ∃ b ∈ live, b.ptr ≤ x ∧ x < b.ptr + b.size) ?_ ?_ ?_ ?_
  · intro x hx
    refine hm x fun b hb hin => hx ⟨b, hb, hin⟩
  · rintro x ⟨b, hb, hin⟩
    obtain ⟨A, hA, hblock, hsize⟩ := ha.owner b hb
    have hinside := block_inside (ha.sound A hA) hblock
    exact ha.inHeap hA (by omega) (by omega)
  · rintro A hA j hj ⟨b, hb, hin⟩
    obtain ⟨B, hB, hblock, hsize⟩ := ha.owner b hb
    have hapart := ha.block_header hB hA hblock
    rw [arenaSize] at hj
    omega
  · intro k hk x hx
    obtain ⟨v, hA, hxblock⟩ := ha.free_block hk hx
    have hunused := ((ha.free k hk x).mp hx).2
    have hlen := (block_inside (ha.sound _ hA) hxblock).2.2.2
    have hout : ∀ y, x ≤ y → y < x + 16 → ¬ ∃ b ∈ live, b.ptr ≤ y ∧ y < b.ptr + b.size := by
      rintro y h₁ h₂ ⟨b, hb, hin⟩
      obtain ⟨B, hB, hblock, hsize⟩ := ha.owner b hb
      have hne : x ≠ b.ptr := by
        rintro rfl
        exact hunused (List.mem_map_of_mem hb)
      have hapart := ha.block_apart hA hB hxblock hblock hne
      omega
    exact ⟨hout x le_rfl (by omega), hout (x + 4) (by omega) (by omega)⟩

/-- What every call relies on, and keeps. -/
def HeapState.Inv (c : Context) (h₀ : Heap) (s : HeapState) : Prop :=
  HoldsBlocks c h₀ s.heap s.live ∧ ∀ b ∈ s.live, 0 < b.size

theorem HeapState.inv_init {s : HeapState} (hu : Unmapped c h₀) (hs : (heapSystem c h₀).init s) :
    s.Inv c h₀ := by
  obtain ⟨hheap, hlive⟩ := hs
  rw [HeapState.Inv, hheap, hlive]
  refine ⟨⟨[], fun _ => [], ⟨hu.pages.setMem _, by simp, blockDescInit_lists, by simp, ?_, .nil,
    by simp, by simp⟩, by simp [Occupied]⟩, by simp⟩
  intro k hk x
  simp

theorem HeapState.inv_step {s s' : HeapState} {e : HeapEvent} (hs : s.Inv c h₀)
    (hstep : s.Step c e s') : s'.Inv c h₀ := by
  obtain ⟨hh, hpos⟩ := hs
  cases e with
  | malloc size =>
      obtain ⟨r, hrun, hlost, hlive⟩ := hstep
      cases r with
      | none =>
          have hsame : s'.heap = s.heap := by
            cases hdebug : c.ndebug with
            | true => exact hlost hdebug rfl
            | false => exact wp_ok (sysMalloc_refused hdebug) hrun rfl
          have hlive' : s'.live = s.live := hlive
          rw [HeapState.Inv, hsame, hlive']
          exact ⟨hh, hpos⟩
      | some b =>
          have hgiven := wp_ok (sysMalloc_spec hh) hrun b rfl
          have hsize : 0 < size := by
            by_contra hzero
            rw [sysMalloc, if_pos fun h => hzero h.1] at hrun
            cases hrun
          have hlive' : s'.live = ⟨b, size⟩ :: s.live := hlive
          rw [HeapState.Inv, hlive']
          refine ⟨hgiven.1, ?_⟩
          intro d hd
          rcases List.mem_cons.mp hd with rfl | hd
          · exact hsize
          · exact hpos d hd
  | free b =>
      obtain ⟨hb, hrun, hlive⟩ := hstep
      have hfreed := wp_ok (E := fun _ => False) (sysFree_spec hh hb) hrun
      rw [HeapState.Inv, hlive]
      exact ⟨hfreed, fun d hd => hpos d (List.mem_of_mem_erase hd)⟩
  | store m =>
      obtain ⟨hm, hheap, hlive⟩ := hstep
      rw [HeapState.Inv, hheap, hlive]
      exact ⟨hh.store hm, hpos⟩

/-- What the blocks in use, the free lists and the headers have to do with each other, read off the
words of memory. -/
structure HeapSafe (c : Context) (h₀ h : Heap) (live : List Block) : Prop where
  inHeap : ∀ b ∈ live, c.vaddrStart ≤ b.ptr ∧
    b.ptr + b.size ≤ c.vaddrStart + 4096 * c.vaddrLen
  nonempty : ∀ b ∈ live, 0 < b.size
  apart : live.Pairwise fun b d => b.ptr + b.size ≤ d.ptr ∨ d.ptr + d.size ≤ b.ptr
  header : ∀ b ∈ live, ∀ d ∈ live,
    b.ptr + b.size ≤ block2arena d.ptr ∨ block2arena d.ptr + arenaSize ≤ b.ptr
  free : ∀ k < descCnt, ∀ x ∈ h.freeList c k,
    (∀ b ∈ live, b.ptr + b.size ≤ x ∨ x + blockSize k ≤ b.ptr) ∧
    ∃ b ∈ live, block2arena b.ptr = block2arena x
  cnt : ∀ b ∈ live,
    (∃ n, h.arenaDesc (block2arena b.ptr) = 0 ∧ h.arenaLarge (block2arena b.ptr) = 1 ∧
      h.arenaCnt (block2arena b.ptr) = n ∧ b.ptr = block2arena b.ptr + arenaSize ∧
      b.size + arenaSize ≤ n * pgSize) ∨
    ∃ k < descCnt, h.arenaDesc (block2arena b.ptr) = c.desc k ∧
      h.arenaLarge (block2arena b.ptr) = 0 ∧ b.size ≤ blockSize k ∧
      h.arenaCnt (block2arena b.ptr) =
        (h.freeList c k).countP fun x => block2arena x = block2arena b.ptr
  returned : live = [] → (∀ k < descCnt, h.freeList c k = []) ∧
    h.vaddrBitmap = h₀.vaddrBitmap ∧ h.pool c.user = h₀.pool c.user

private theorem HoldsBlocks.safe (hh : HoldsBlocks c h₀ h live) (hpos : ∀ b ∈ live, 0 < b.size) :
    HeapSafe c h₀ h live := by
  obtain ⟨arenas, fl, ha, ho⟩ := hh
  refine ⟨?_, hpos, ?_, ?_, ?_, ?_, ?_⟩
  · intro b hb
    obtain ⟨A, hA, hblock, hsize⟩ := ha.owner b hb
    have hinside := block_inside (ha.sound A hA) hblock
    have hpages := (ha.inside hA).2
    simp only [Arena.stop, Context.addr] at hinside
    omega
  · have hne : live.Pairwise fun b d => b.ptr ≠ d.ptr := List.pairwise_map.mp ha.nodup
    refine hne.imp_of_mem ?_
    intro b d hb hd hptr
    obtain ⟨A, hA, hblock, hsize⟩ := ha.owner b hb
    obtain ⟨B, hB, hblock', hsize'⟩ := ha.owner d hd
    have hapart := ha.block_apart hA hB hblock hblock' hptr
    omega
  · intro b hb d hd
    obtain ⟨A, hA, hblock, hsize⟩ := ha.owner b hb
    obtain ⟨B, hB, hblock', -⟩ := ha.owner d hd
    have hapart := ha.block_header hA hB hblock
    rw [block2arena_block (ha.sound B hB) hblock', arenaSize]
    omega
  · intro k hk x hx
    rw [ha.lists.freeList_eq hk] at hx
    obtain ⟨⟨v, hA, hxblock⟩, hunused⟩ := (ha.free k hk x).mp hx
    constructor
    · intro b hb
      obtain ⟨B, hB, hblock, hsize⟩ := ha.owner b hb
      have hne : x ≠ b.ptr := by
        rintro rfl
        exact hunused (List.mem_map_of_mem hb)
      have hapart : x + blockSize k ≤ b.ptr ∨ b.ptr + B.blockLen ≤ x :=
        ha.block_apart hA hB hxblock hblock hne
      omega
    · obtain ⟨y, hy, hused⟩ := ho v k hA
      obtain ⟨b, hb, rfl⟩ := List.mem_map.mp hused
      refine ⟨b, hb, ?_⟩
      rw [block2arena_block (ha.sound _ hA) hy, block2arena_block (ha.sound _ hA) hxblock]
  · intro b hb
    obtain ⟨A, hA, hblock, hsize⟩ := ha.owner b hb
    have hheader := ha.header A hA
    rw [block2arena_block (ha.sound A hA) hblock]
    cases A with
    | small v k =>
        have hk : k < descCnt := ha.sound _ hA
        refine .inr ⟨k, hk, hheader.1, hheader.2.1, hsize, ?_⟩
        rw [ha.lists.freeList_eq hk]
        exact hheader.2.2
    | large v n =>
        have hlen : 0 < n := ha.sound _ hA
        simp only [Arena.blockLen, arenaSize] at hsize
        refine .inl ⟨n, hheader.1, hheader.2.1, hheader.2.2, List.mem_singleton.mp hblock, ?_⟩
        rw [arenaSize, pgSize]
        omega
  · rintro rfl
    have hnone : arenas = [] := by
      rw [List.eq_nil_iff_forall_not_mem]
      intro A hA
      cases A with
      | small v k =>
          obtain ⟨x, -, hx⟩ := ho v k hA
          exact absurd hx List.not_mem_nil
      | large v n => exact absurd (ha.large v n hA) List.not_mem_nil
    subst hnone
    have hcovered : ∀ v, ¬ Covered [] v := by
      intro v hv
      simp [Covered] at hv
    refine ⟨?_, ?_, ?_⟩
    · intro k hk
      rw [ha.lists.freeList_eq hk, List.eq_nil_iff_forall_not_mem]
      intro x hx
      obtain ⟨v, hA, -⟩ := ha.free_block hk hx
      exact absurd hA List.not_mem_nil
    · funext v
      have hbit := ha.pages.bitmap v
      simp only [List.map_nil, hcovered, or_false] at hbit
      exact Bool.eq_iff_iff.mpr hbit
    · funext i
      have hbit := ha.pages.frames.pool i
      simp only [List.map_nil, hcovered, false_and, exists_false, or_false] at hbit
      exact Bool.eq_iff_iff.mpr hbit

/-- In every state of every run the blocks in use lie apart from each other, from the headers and
from the free blocks; each of them can be freed; a new block is all zero; and a call that does not
return has met an assertion about pages. -/
theorem heap_run (hu : Unmapped c h₀) {s : HeapState} (hs : (heapSystem c h₀).Reachable s) :
    HeapSafe c h₀ s.heap s.live ∧
    (∀ b ∈ s.live, ∃ h', sysFree c b.ptr s.heap = .ok ((), h')) ∧
    (∀ size b h', sysMalloc c size s.heap = .ok (some b, h') →
      ∀ x, b ≤ x → x < b + size → h'.mem x = 0) ∧
    ∀ size e, sysMalloc c size s.heap = .error e → MallocStop size e := by
  have hinv : s.Inv c h₀ :=
    hs.invariant (fun _ => HeapState.inv_init hu) fun _ _ _ => HeapState.inv_step
  obtain ⟨hh, hpos⟩ := hinv
  refine ⟨hh.safe hpos, ?_, ?_, ?_⟩
  · intro b hb
    have hfree := sysFree_spec (E := fun _ => False) hh hb
    rw [wp] at hfree
    cases hrun : sysFree c b.ptr s.heap with
    | error e =>
        rw [hrun] at hfree
        exact hfree.elim
    | ok out => exact ⟨out.2, rfl⟩
  · intro size b h' hrun
    exact (wp_ok (sysMalloc_spec hh) hrun b rfl).2
  · intro size e hrun
    have hspec : wp (sysMalloc c size) (MallocStop size) _ s.heap := sysMalloc_spec hh
    rw [wp, hrun] at hspec
    exact hspec

/-- A kernel heap of eight pages -/
def eightPages : Context where
  ndebug := false
  user := false
  vaddrStart := kHeapStart
  vaddrLen := 8
  poolStart user := if user then 0x210000 else 0x200000
  poolLen _ := 16
  poolSize := 0x10000
  descs := 0x9000
  vaddrAligned := by decide
  vaddrFits := by decide
  kernelHeap _ := rfl
  poolAligned := by decide
  kernelPool := by decide
  userPool := by decide
  poolFits := by decide
  descsNonnull := by decide
  descsApart := by decide

/-- Every page and every frame is free, and nothing in memory is clear. -/
def untouched : Heap where
  mem x := x + 1
  vaddrBitmap _ := false
  pool _ _ := false
  pde _ := true
  pte _ := 0

theorem heap_run_two_blocks : ∃ s, (heapSystem eightPages untouched).Reachable s ∧
    s.live = [⟨0xc010100c, 5000⟩, ⟨0xc010000c, 1000⟩] ∧
    HeapSafe eightPages untouched s.heap s.live := by
  obtain ⟨h, hrun⟩ : ∃ h, (do
      let a ← sysMalloc eightPages 1000
      let b ← sysMalloc eightPages 5000
      return (a, b)) (untouched.setMem (blockDescInit eightPages untouched.mem)) =
        .ok ((some 0xc010000c, some 0xc010100c), h) :=
    Code.returns_of_toOption (by decide +kernel)
  simp only [Code.bind_ok, Code.pure_ok, Prod.mk.injEq] at hrun
  obtain ⟨a, h₁, hfirst, b, h₂, hsecond, ⟨rfl, rfl⟩, rfl⟩ := hrun
  have hreach : (heapSystem eightPages untouched).Reachable
      ⟨h, [⟨0xc010100c, 5000⟩, ⟨0xc010000c, 1000⟩]⟩ := by
    refine .step (s := ⟨h₁, [⟨0xc010000c, 1000⟩]⟩) (e := .malloc 5000) ?_
      ⟨_, hsecond, by simp, by simp⟩
    have hinit : (heapSystem eightPages untouched).Reachable
        ⟨untouched.setMem (blockDescInit eightPages untouched.mem), []⟩ := .init ⟨rfl, rfl⟩
    exact hinit.step (e := .malloc 1000) ⟨_, hfirst, by simp, by simp⟩
  have hfree : Unmapped eightPages untouched := ⟨fun _ _ _ => rfl, fun _ _ _ => rfl⟩
  exact ⟨_, hreach, rfl, (heap_run hfree hreach).1⟩

end Run

end Aitos.Mm
