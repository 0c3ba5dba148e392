import Aitos.Mm.FreeLists

/-!
# Arenas

An arena is a run of pages with a header in front: one page split into the blocks of a descriptor,
or the pages of one large block.  `Arenas` ties the words of memory, the free lists and the page
allocator to the arenas that are out and the blocks that are in use.
-/

namespace Aitos.Mm

open Framework

/-- An arena by its first page: the blocks of descriptor `k`, or one block of `n` pages. -/
inductive Arena where
  | small (v k : Nat)
  | large (v n : Nat)
  deriving DecidableEq

namespace Arena

def page : Arena → Nat
  | small v _ => v
  | large v _ => v

def pages : Arena → Nat
  | small _ _ => 1
  | large _ n => n

def run (A : Arena) : Nat × Nat := (A.page, A.pages)

/-- The blocks of an arena. -/
def blocks (c : Context) : Arena → List Nat
  | small v k => (List.range (blockPerArena k)).map (arena2block (c.addr v) (blockSize k))
  | large v _ => [c.addr v + arenaSize]

/-- The bytes of each of its blocks. -/
def blockLen : Arena → Nat
  | small _ k => blockSize k
  | large _ n => n * 4096 - arenaSize

/-- A descriptor of the array, or at least one page. -/
def Sound : Arena → Prop
  | small _ k => k < descCnt
  | large _ n => 0 < n

/-- The address behind the last page. -/
def stop (c : Context) (A : Arena) : Nat := c.addr A.page + 4096 * A.pages

end Arena

section Geometry

variable {c : Context} {A : Arena} {x y : Nat}

private theorem blockSize_pos (k : Nat) : 0 < blockSize k :=
  Nat.mul_pos (by omega) (Nat.two_pow_pos k)

private theorem blockSize_mod (k : Nat) : blockSize k % 16 = 0 := Nat.mul_mod_right 16 (2 ^ k)

theorem sixteen_le_blockSize (k : Nat) : 16 ≤ blockSize k :=
  Nat.le_mul_of_pos_right 16 (Nat.two_pow_pos k)

private theorem block_fits {k i : Nat} (hi : i < blockPerArena k) :
    (i + 1) * blockSize k ≤ 4084 := by
  calc (i + 1) * blockSize k
      ≤ blockPerArena k * blockSize k := Nat.mul_le_mul_right _ hi
    _ ≤ pgSize - arenaSize := Nat.div_mul_le_self _ _

private theorem mem_small {v k : Nat} : x ∈ (Arena.small v k).blocks c ↔
    ∃ i < blockPerArena k, x = c.addr v + 12 + i * blockSize k := by
  simp only [Arena.blocks, List.mem_map, List.mem_range, arena2block, arenaSize]
  constructor
  · rintro ⟨i, hi, rfl⟩
    exact ⟨i, hi, rfl⟩
  · rintro ⟨i, hi, rfl⟩
    exact ⟨i, hi, rfl⟩

theorem block_inside (hA : A.Sound) (hx : x ∈ A.blocks c) :
    c.addr A.page + 12 ≤ x ∧ x + A.blockLen ≤ A.stop c ∧ x < c.addr A.page + 4096 ∧
      16 ≤ A.blockLen := by
  cases A with
  | small v k =>
      obtain ⟨i, hi, rfl⟩ := mem_small.mp hx
      have hfit := block_fits hi
      have hsize := sixteen_le_blockSize k
      rw [Nat.add_mul, Nat.one_mul] at hfit
      simp only [Arena.page, Arena.blockLen, Arena.stop, Arena.pages]
      omega
  | large v n =>
      obtain rfl := List.mem_singleton.mp hx
      have hn : 0 < n := hA
      simp only [Arena.page, Arena.blockLen, Arena.stop, Arena.pages, arenaSize]
      omega

theorem block2arena_block (hA : A.Sound) (hx : x ∈ A.blocks c) : block2arena x = c.addr A.page := by
  obtain ⟨h₁, -, h₂, -⟩ := block_inside hA hx
  have halign := c.addr_aligned A.page
  rw [block2arena]
  omega

private theorem blocks_apart (hx : x ∈ A.blocks c) (hy : y ∈ A.blocks c) (hne : x ≠ y) :
    x + A.blockLen ≤ y ∨ y + A.blockLen ≤ x := by
  cases A with
  | small v k =>
      obtain ⟨i, -, rfl⟩ := mem_small.mp hx
      obtain ⟨j, -, rfl⟩ := mem_small.mp hy
      have hij : i ≠ j := by
        rintro rfl
        exact hne rfl
      rcases Nat.lt_or_gt_of_ne hij with h | h
      · have := Nat.mul_le_mul_right (blockSize k) h
        rw [Nat.succ_mul] at this
        simp only [Arena.blockLen]
        omega
      · have := Nat.mul_le_mul_right (blockSize k) h
        rw [Nat.succ_mul] at this
        simp only [Arena.blockLen]
        omega
  | large v n =>
      obtain rfl := List.mem_singleton.mp hx
      obtain rfl := List.mem_singleton.mp hy
      exact absurd rfl hne

theorem blocks_nodup (c : Context) (A : Arena) : (A.blocks c).Nodup := by
  cases A with
  | small v k =>
      refine List.Nodup.map ?_ List.nodup_range
      intro i j hij
      have hsize := blockSize_pos k
      simp only [arena2block] at hij
      exact Nat.eq_of_mul_eq_mul_right hsize (by omega)
  | large v n => exact List.nodup_singleton _

theorem blocks_length (c : Context) (v k : Nat) :
    ((Arena.small v k).blocks c).length = blockPerArena k := by
  simp [Arena.blocks]

theorem blockPerArena_pos {k : Nat} (hk : k < descCnt) : 0 < blockPerArena k := by
  rw [descCnt] at hk
  interval_cases k <;> decide

theorem block_place {v k : Nat} (hv : v < c.vaddrLen) (hx : x ∈ (Arena.small v k).blocks c) :
    c.Place x := by
  obtain ⟨i, hi, rfl⟩ := mem_small.mp hx
  have hfit := block_fits hi
  have hsize := sixteen_le_blockSize k
  have hmod : i * blockSize k % 16 = 0 := by
    rw [Nat.mul_mod, blockSize_mod]
    simp
  have halign := c.addr_aligned v
  have hstart := c.vaddrAligned
  rw [Nat.add_mul, Nat.one_mul] at hfit
  have haddr : c.addr v = c.vaddrStart + v * 4096 := rfl
  refine ⟨⟨?_, ?_⟩, ?_, ?_, ?_⟩
  · omega
  · omega
  · omega
  · rw [arenaSize]
    omega
  · omega

end Geometry

/-- A block in use: the pointer that `sys_malloc` returned and the size it was asked for. -/
structure Block where
  ptr : Nat
  size : Nat
  deriving DecidableEq

def ptrs (live : List Block) : List Nat := live.map Block.ptr

/-- What the header of an arena says: `cnt` counts its blocks on the free list, or its pages. -/
def Header (c : Context) (m : Words) (fl : Nat → List Nat) : Arena → Prop
  | .small v k => m (c.addr v) = c.desc k ∧ m (c.addr v + 8) = 0 ∧
      m (c.addr v + 4) = (fl k).countP (fun x => block2arena x = c.addr v)
  | .large v n => m (c.addr v) = 0 ∧ m (c.addr v + 8) = 1 ∧ m (c.addr v + 4) = n

structure Arenas (c : Context) (h₀ h : Heap) (live : List Block) (arenas : List Arena)
    (fl : Nat → List Nat) : Prop where
  pages : Pages c h₀ h (arenas.map Arena.run)
  sound : ∀ A ∈ arenas, A.Sound
  lists : FreeLists c h.mem fl
  header : ∀ A ∈ arenas, Header c h.mem fl A
  /-- the free lists hold the blocks of the small arenas that are not in use -/
  free : ∀ k < descCnt, ∀ x,
    x ∈ fl k ↔ (∃ v, .small v k ∈ arenas ∧ x ∈ (Arena.small v k).blocks c) ∧ x ∉ ptrs live
  nodup : (ptrs live).Nodup
  owner : ∀ b ∈ live, ∃ A ∈ arenas, b.ptr ∈ A.blocks c ∧ b.size ≤ A.blockLen
  large : ∀ v n, .large v n ∈ arenas → c.addr v + arenaSize ∈ ptrs live

namespace Arenas

variable {c : Context} {h₀ h : Heap} {live : List Block} {arenas : List Arena}
  {fl : Nat → List Nat} {A B : Arena} {x y : Nat}

theorem inside (ha : Arenas c h₀ h live arenas fl) (hA : A ∈ arenas) :
    0 < A.pages ∧ A.page + A.pages ≤ c.vaddrLen :=
  ha.pages.inside _ (List.mem_map_of_mem hA)

theorem apart (ha : Arenas c h₀ h live arenas fl) (hA : A ∈ arenas) (hB : B ∈ arenas)
    (hne : A ≠ B) : A.stop c ≤ c.addr B.page ∨ B.stop c ≤ c.addr A.page := by
  have hpair := List.pairwise_map.mp ha.pages.apart
  have hsymm : Std.Symm fun A B : Arena => ApartRuns A.run B.run := ⟨fun _ _ h => h.symm⟩
  have hruns := hpair.forall hA hB hne
  simp only [ApartRuns, Arena.run] at hruns
  simp only [Arena.stop, Context.addr]
  omega

theorem eq_of_page (ha : Arenas c h₀ h live arenas fl) (hA : A ∈ arenas) (hB : B ∈ arenas)
    (hpage : A.page = B.page) : A = B := by
  by_contra hne
  have hapart := ha.apart hA hB hne
  have := (ha.inside hA).1
  have := (ha.inside hB).1
  simp only [Arena.stop, hpage] at hapart
  omega

theorem inHeap (ha : Arenas c h₀ h live arenas fl) (hA : A ∈ arenas)
    (h₁ : c.addr A.page ≤ x) (h₂ : x < A.stop c) : c.InHeap x := by
  have hlen := (ha.inside hA).2
  simp only [Arena.stop, Context.addr] at h₁ h₂
  constructor
  · omega
  · omega

theorem eq_of_block (ha : Arenas c h₀ h live arenas fl) (hA : A ∈ arenas) (hB : B ∈ arenas)
    (hx : x ∈ A.blocks c) (hx' : x ∈ B.blocks c) : A = B := by
  refine ha.eq_of_page hA hB ?_
  have h₁ := block2arena_block (ha.sound A hA) hx
  have h₂ := block2arena_block (ha.sound B hB) hx'
  rw [h₁, Context.addr, Context.addr] at h₂
  omega

theorem block_apart (ha : Arenas c h₀ h live arenas fl) (hA : A ∈ arenas) (hB : B ∈ arenas)
    (hx : x ∈ A.blocks c) (hy : y ∈ B.blocks c) (hne : x ≠ y) :
    x + A.blockLen ≤ y ∨ y + B.blockLen ≤ x := by
  by_cases hAB : A = B
  · subst B
    exact blocks_apart hx hy hne
  · have h₁ := block_inside (ha.sound A hA) hx
    have h₂ := block_inside (ha.sound B hB) hy
    have h₃ := ha.apart hA hB hAB
    omega

theorem block_header (ha : Arenas c h₀ h live arenas fl) (hA : A ∈ arenas) (hB : B ∈ arenas)
    (hx : x ∈ A.blocks c) : x + A.blockLen ≤ c.addr B.page ∨ c.addr B.page + 12 ≤ x := by
  have h₁ := block_inside (ha.sound A hA) hx
  by_cases hAB : A = B
  · subst B
    exact .inr h₁.1
  · have h₃ := ha.apart hA hB hAB
    have hpos := (ha.inside hB).1
    have hstop : c.addr B.page + 4096 ≤ B.stop c := by
      simp only [Arena.stop]
      omega
    omega

theorem headerWord (ha : Arenas c h₀ h live arenas fl) (hA : A ∈ arenas) {j : Nat}
    (hj : j < arenaSize) : c.HeaderWord (c.addr A.page + j) := by
  have hpos := (ha.inside hA).1
  have halign := c.addr_aligned A.page
  rw [arenaSize] at hj
  refine ⟨ha.inHeap hA (by omega) ?_, ?_⟩
  · simp only [Arena.stop]
    omega
  · rw [arenaSize]
    omega

theorem free_block (ha : Arenas c h₀ h live arenas fl) {k : Nat} (hk : k < descCnt)
    (hx : x ∈ fl k) : ∃ v, .small v k ∈ arenas ∧ x ∈ (Arena.small v k).blocks c :=
  ((ha.free k hk x).mp hx).1

theorem header_congr {m m' : Words} (hh : Header c m fl A)
    (hm : ∀ j < arenaSize, m' (c.addr A.page + j) = m (c.addr A.page + j)) :
    Header c m' fl A := by
  have h₀ := hm 0 (by decide)
  have h₄ := hm 4 (by decide)
  have h₈ := hm 8 (by decide)
  cases A with
  | small v k => exact ⟨h₀.trans hh.1, h₈.trans hh.2.1, h₄.trans hh.2.2⟩
  | large v n => exact ⟨h₀.trans hh.1, h₈.trans hh.2.1, h₄.trans hh.2.2⟩

/-- A change of memory that spares the headers and the free blocks. -/
theorem spared (ha : Arenas c h₀ h live arenas fl) {m' : Words} {S : Nat → Prop}
    (hm : ∀ x, ¬ S x → m' x = h.mem x) (hheap : ∀ x, S x → c.InHeap x)
    (hheader : ∀ A ∈ arenas, ∀ j < arenaSize, ¬ S (c.addr A.page + j))
    (hfree : ∀ k < descCnt, ∀ x ∈ fl k, ¬ S x ∧ ¬ S (x + 4)) :
    Arenas c h₀ (h.setMem m') live arenas fl where
  pages := ha.pages.setMem m'
  sound := ha.sound
  lists := ha.lists.spared hm hheap hfree
  header A hA := header_congr (ha.header A hA) fun j hj => hm _ (hheader A hA j hj)
  free := ha.free
  nodup := ha.nodup
  owner := ha.owner
  large := ha.large

end Arenas

end Aitos.Mm
