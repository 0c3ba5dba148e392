import Aitos.Mm.Pages

/-!
# The free lists

The seven lists run through the free blocks themselves.  A block is a node inside the heap, past
the header of its page; the two ends of each list lie in its descriptor, outside the heap.
-/

namespace Aitos.Mm

open Framework

/-- An address of the heap. -/
def Context.InHeap (c : Context) (x : Nat) : Prop :=
  c.vaddrStart ≤ x ∧ x < c.vaddrStart + 4096 * c.vaddrLen

/-- A place where a block may start, with room for its two links. -/
structure Context.Place (c : Context) (x : Nat) : Prop where
  inHeap : c.InHeap x
  aligned : x % 8 = 4
  header : arenaSize ≤ x % 4096
  room : x % 4096 + 8 ≤ 4096

/-- A node of one of the lists: a block, or one of the ends. -/
def Context.Node (c : Context) (x : Nat) : Prop :=
  c.Place x ∨ ∃ k < descCnt, x = c.head k ∨ x = c.tail k

/-- A word of an arena header. -/
def Context.HeaderWord (c : Context) (x : Nat) : Prop := c.InHeap x ∧ x % 4096 < arenaSize

section Nodes

variable {c : Context} {x y : Nat}

private theorem Context.end_outside {k : Nat} (hk : k < descCnt)
    (hx : x = c.head k ∨ x = c.tail k) : ¬ c.InHeap x ∧ ¬ c.InHeap (x + 4) := by
  have hapart := c.descsApart
  simp only [Context.InHeap, Context.head, Context.tail, Context.desc, descSize, descCnt] at *
  omega

private theorem Context.Place.next_inHeap (hx : c.Place x) : c.InHeap (x + 4) := by
  obtain ⟨⟨h₁, h₂⟩, -, -, hroom⟩ := hx
  have halign := c.vaddrAligned
  constructor
  · omega
  · omega

private theorem Context.Node.ne_next (hx : c.Node x) (hy : c.Node y) : x ≠ y + 4 := by
  rintro rfl
  rcases hy with hy | ⟨k, hk, hy⟩
  · rcases hx with hx | ⟨j, hj, hx⟩
    · have := hx.aligned
      have := hy.aligned
      omega
    · exact (Context.end_outside hj hx).1 hy.next_inHeap
  · rcases hx with hx | ⟨j, hj, hx⟩
    · exact (Context.end_outside hk hy).2 hx.inHeap
    · simp only [Context.head, Context.tail, Context.desc, descSize] at hx hy
      omega

private theorem Context.spread {l : List Nat} (hl : ∀ x ∈ l, c.Node x) : Spread l :=
  fun x hx y hy => (hl x hx).ne_next (hl y hy)

theorem Context.HeaderWord.outside {l : List Nat} (hx : c.HeaderWord x)
    (hl : ∀ y ∈ l, c.Node y) : Outside x l := by
  intro y hy
  rcases hl y hy with hy | ⟨k, hk, hy⟩
  · have hheader := hy.header
    have hroom := hy.room
    have hlt := hx.2
    constructor <;> omega
  · obtain ⟨h₁, h₂⟩ := Context.end_outside hk hy
    constructor
    · rintro rfl
      exact h₁ hx.1
    · rintro rfl
      exact h₂ hx.1

end Nodes

/-- The words of `m` link the blocks `fl k` into the list of descriptor `k`. -/
structure FreeLists (c : Context) (m : Words) (fl : Nat → List Nat) : Prop where
  linked : ∀ k < descCnt, Linked m (c.head k) (fl k) (c.tail k)
  nodup : ∀ k < descCnt, (fl k).Nodup
  place : ∀ k < descCnt, ∀ x ∈ fl k, c.Place x
  apart : ∀ k < descCnt, ∀ k' < descCnt, k ≠ k' → ∀ x ∈ fl k, x ∉ fl k'

section Lists

variable {c : Context} {m m' : Words} {fl : Nat → List Nat} {k e : Nat}

/-- The nodes of list `k`, the ends included. -/
def Context.nodes (c : Context) (fl : Nat → List Nat) (k : Nat) : List Nat :=
  c.head k :: fl k ++ [c.tail k]

private theorem FreeLists.nodes_node (h : FreeLists c m fl) (hk : k < descCnt) :
    ∀ x ∈ c.nodes fl k, c.Node x := by
  intro x hx
  simp only [Context.nodes, List.cons_append, List.mem_cons, List.mem_append,
    List.not_mem_nil, or_false] at hx
  rcases hx with rfl | hx | rfl
  · exact .inr ⟨k, hk, .inl rfl⟩
  · exact .inl (h.place k hk x hx)
  · exact .inr ⟨k, hk, .inr rfl⟩

private theorem FreeLists.nodes_nodup (h : FreeLists c m fl) (hk : k < descCnt) :
    (c.nodes fl k).Nodup := by
  have hhead : c.head k ∉ fl k := fun hx =>
    (Context.end_outside hk (.inl rfl)).1 (h.place k hk _ hx).inHeap
  have htail : c.tail k ∉ fl k := fun hx =>
    (Context.end_outside hk (.inr rfl)).1 (h.place k hk _ hx).inHeap
  have hne : c.head k ≠ c.tail k := by
    rw [Context.head, Context.tail]
    omega
  simp only [Context.nodes, List.cons_append, List.nodup_cons, List.mem_append, List.mem_singleton,
    not_or]
  refine ⟨⟨hhead, hne⟩, ?_⟩
  refine List.nodup_append.mpr ⟨h.nodup k hk, List.nodup_singleton _, ?_⟩
  intro a ha b hb
  obtain rfl := List.mem_singleton.mp hb
  rintro rfl
  exact htail ha

private theorem FreeLists.nodes_apart (h : FreeLists c m fl) {k' : Nat} (hk : k < descCnt)
    (hk' : k' < descCnt) (hne : k ≠ k') {x y : Nat} (hx : x ∈ c.nodes fl k)
    (hy : y ∈ c.nodes fl k') : x ≠ y := by
  rintro rfl
  simp only [Context.nodes, List.cons_append, List.mem_cons, List.mem_append,
    List.not_mem_nil, or_false] at hx hy
  have hends : ∀ j < descCnt, ∀ i < descCnt, (x = c.head j ∨ x = c.tail j) → x ∉ fl i :=
    fun j hj i hi hx hx' => (Context.end_outside hj hx).1 (h.place i hi x hx').inHeap
  have hdesc : c.desc k ≠ c.desc k' + 8 ∧ c.desc k + 8 ≠ c.desc k' ∧ c.desc k ≠ c.desc k' := by
    simp only [Context.desc, descSize]
    omega
  rcases hx with hx | hx | hx
  · rcases hy with hy | hy | hy
    · simp only [Context.head] at hx hy
      omega
    · exact hends k hk k' hk' (.inl hx) hy
    · simp only [Context.head, Context.tail] at hx hy
      omega
  · rcases hy with hy | hy | hy
    · exact hends k' hk' k hk (.inl hy) hx
    · exact h.apart k hk k' hk' hne x hx hy
    · exact hends k' hk' k hk (.inr hy) hx
  · rcases hy with hy | hy | hy
    · simp only [Context.head, Context.tail] at hx hy
      omega
    · exact hends k hk k' hk' (.inr hx) hy
    · simp only [Context.tail] at hx hy
      omega

theorem FreeLists.congr (h : FreeLists c m fl)
    (hm : ∀ k < descCnt, ∀ x ∈ c.nodes fl k, m' x = m x ∧ m' (x + 4) = m (x + 4)) :
    FreeLists c m' fl where
  linked k hk := by
    refine (h.linked k hk).congr (fun x hx => (hm k hk x ?_).2) (fun x hx => (hm k hk x ?_).1)
    · exact List.mem_append_left _ hx
    · exact List.mem_cons_of_mem _ hx
  nodup := h.nodup
  place := h.place
  apart := h.apart

/-- A change inside the heap that spares the free blocks. -/
theorem FreeLists.spared {S : Nat → Prop} (h : FreeLists c m fl) (hm : ∀ x, ¬ S x → m' x = m x)
    (hheap : ∀ x, S x → c.InHeap x) (hfree : ∀ k < descCnt, ∀ x ∈ fl k, ¬ S x ∧ ¬ S (x + 4)) :
    FreeLists c m' fl := by
  refine h.congr fun k hk x hx => ?_
  simp only [Context.nodes, List.cons_append, List.mem_cons, List.mem_append,
    List.not_mem_nil, or_false] at hx
  have hends : (x = c.head k ∨ x = c.tail k) → m' x = m x ∧ m' (x + 4) = m (x + 4) := by
    intro hx
    obtain ⟨h₁, h₂⟩ := Context.end_outside hk hx
    exact ⟨hm x fun hS => h₁ (hheap x hS), hm _ fun hS => h₂ (hheap _ hS)⟩
  rcases hx with hx | hx | hx
  · exact hends (.inl hx)
  · obtain ⟨h₁, h₂⟩ := hfree k hk x hx
    exact ⟨hm x h₁, hm _ h₂⟩
  · exact hends (.inr hx)

/-- A change to the words of list `k`, and of `e`, leaves the other lists linked. -/
private theorem FreeLists.linked_other (h : FreeLists c m fl) {k' : Nat} (hk : k < descCnt)
    (hk' : k' < descCnt) (hne : k' ≠ k) (he : c.Node e) (hfresh : e ∉ c.nodes fl k')
    (hm : ∀ x, Outside x (e :: c.nodes fl k) → m' x = m x) :
    Linked m' (c.head k') (fl k') (c.tail k') := by
  have hout : ∀ x ∈ c.nodes fl k', m' x = m x ∧ m' (x + 4) = m (x + 4) := by
    intro x hx
    have hnode := h.nodes_node hk' x hx
    have hcell : ∀ y ∈ e :: c.nodes fl k, c.Node y ∧ x ≠ y := by
      intro y hy
      rcases List.mem_cons.mp hy with rfl | hy
      · exact ⟨he, fun hxy => hfresh (hxy ▸ hx)⟩
      · exact ⟨h.nodes_node hk y hy, h.nodes_apart hk' hk hne hx hy⟩
    constructor
    · exact hm x fun y hy => ⟨(hcell y hy).2, hnode.ne_next (hcell y hy).1⟩
    · refine hm (x + 4) fun y hy => ⟨((hcell y hy).1.ne_next hnode).symm, ?_⟩
      have := (hcell y hy).2
      omega
  refine (h.linked k' hk').congr (fun x hx => (hout x ?_).2) (fun x hx => (hout x ?_).1)
  · exact List.mem_append_left _ hx
  · exact List.mem_cons_of_mem _ hx

theorem mem_appended {j x : Nat} : x ∈ Function.update fl k (fl k ++ [e]) j ↔
    x ∈ fl j ∨ j = k ∧ x = e := by
  by_cases hjk : j = k
  · subst j
    simp
  · simp [hjk]

theorem FreeLists.append (h : FreeLists c m fl) (hk : k < descCnt) (he : c.Place e)
    (hfresh : ∀ j < descCnt, e ∉ fl j) :
    FreeLists c (insertBefore m (c.tail k) e) (Function.update fl k (fl k ++ [e])) ∧
      ∀ x, c.HeaderWord x → insertBefore m (c.tail k) e x = m x := by
  have hnode : ∀ x ∈ e :: c.nodes fl k, c.Node x := by
    intro x hx
    rcases List.mem_cons.mp hx with rfl | hx
    · exact .inl he
    · exact h.nodes_node hk x hx
  have hnot : ∀ j < descCnt, e ∉ c.nodes fl j := by
    intro j hj hx
    simp only [Context.nodes, List.cons_append, List.mem_cons, List.mem_append,
      List.not_mem_nil, or_false] at hx
    rcases hx with hx | hx | hx
    · exact (Context.end_outside hj (.inl hx)).1 he.inHeap
    · exact hfresh j hj hx
    · exact (Context.end_outside hj (.inr hx)).1 he.inHeap
  have hlink := h.linked k hk
  refine ⟨⟨fun j hj => ?_, fun j hj => ?_, fun j hj x hx => ?_, fun i hi j hj hij x hx => ?_⟩, ?_⟩
  · by_cases hjk : j = k
    · subst j
      rw [Function.update_self]
      exact hlink.insertBefore (List.nodup_cons.mpr ⟨hnot k hk, h.nodes_nodup hk⟩)
        (Context.spread hnode)
    · rw [Function.update_of_ne hjk]
      exact h.linked_other hk hj hjk (.inl he) (hnot j hj) fun x hx => hlink.insertBefore_outside hx
  · by_cases hjk : j = k
    · subst j
      rw [Function.update_self]
      refine List.nodup_append.mpr ⟨h.nodup k hk, List.nodup_singleton _, ?_⟩
      intro a ha b hb
      obtain rfl := List.mem_singleton.mp hb
      rintro rfl
      exact hfresh k hk ha
    · rw [Function.update_of_ne hjk]
      exact h.nodup j hj
  · rcases mem_appended.mp hx with hx | ⟨-, rfl⟩
    · exact h.place j hj x hx
    · exact he
  · rw [mem_appended]
    rcases mem_appended.mp hx with hold | ⟨rfl, rfl⟩
    · rintro (hx' | ⟨-, rfl⟩)
      · exact h.apart i hi j hj hij x hold hx'
      · exact hfresh i hi hold
    · rintro (hx' | ⟨rfl, -⟩)
      · exact hfresh j hj hx'
      · exact hij rfl
  · exact fun x hx => hlink.insertBefore_outside (hx.outside hnode)

theorem FreeLists.remove {xs ys : List Nat} (h : FreeLists c m fl) (hk : k < descCnt)
    (hfl : fl k = xs ++ e :: ys) :
    FreeLists c (unlink m e) (Function.update fl k (xs ++ ys)) ∧
      (∀ x, c.HeaderWord x → unlink m e x = m x) := by
  have hlink := h.linked k hk
  have hnodup := h.nodes_nodup hk
  have hnode := h.nodes_node hk
  have hsub : ∀ j x, x ∈ Function.update fl k (xs ++ ys) j → x ∈ fl j := by
    intro j x hx
    by_cases hjk : j = k
    · subst j
      rw [Function.update_self] at hx
      rw [hfl]
      simp only [List.mem_append, List.mem_cons] at hx ⊢
      tauto
    · rw [Function.update_of_ne hjk] at hx
      exact hx
  have hspread := Context.spread hnode
  rw [Context.nodes, hfl] at hnodup hspread
  rw [hfl] at hlink
  refine ⟨⟨fun j hj => ?_, fun j hj => ?_, fun j hj x hx => h.place j hj x (hsub j x hx),
    fun i hi j hj hij x hx hx' => h.apart i hi j hj hij x (hsub i x hx) (hsub j x hx')⟩, ?_⟩
  · by_cases hjk : j = k
    · subst j
      rw [Function.update_self]
      exact hlink.unlink hnodup hspread
    · rw [Function.update_of_ne hjk]
      have he : e ∈ fl k := by simp [hfl]
      have hother : e ∉ c.nodes fl j := fun hx =>
        h.nodes_apart hj hk hjk hx (List.mem_cons_of_mem _ (List.mem_append_left _ he)) rfl
      refine h.linked_other hk hj hjk (.inl (h.place k hk e he)) hother fun x hx => ?_
      refine hlink.unlink_outside hnodup hspread fun y hy => hx y (List.mem_cons_of_mem _ ?_)
      rw [Context.nodes, hfl]
      exact hy
  · by_cases hjk : j = k
    · subst j
      rw [Function.update_self]
      have hn := h.nodup k hk
      rw [hfl, List.nodup_middle] at hn
      exact (List.nodup_cons.mp hn).2
    · rw [Function.update_of_ne hjk]
      exact h.nodup j hj
  · intro x hx
    refine hlink.unlink_outside hnodup hspread ?_
    rw [← hfl]
    exact hx.outside hnode

/-- The lists are shorter than `elem_find` may walk. -/
theorem FreeLists.length_lt (h : FreeLists c m fl) (hk : k < descCnt) :
    (fl k).length < 2 ^ 32 := by
  have hfits := c.vaddrFits
  have hsub : fl k ⊆ List.range (2 ^ 32 - 1) := by
    intro x hx
    obtain ⟨⟨h₁, h₂⟩, h₃, h₄, h₅⟩ := h.place k hk x hx
    rw [List.mem_range]
    omega
  have hle := (List.subperm_of_subset (h.nodup k hk) hsub).length_le
  rw [List.length_range] at hle
  omega

theorem FreeLists.tail_notMem (h : FreeLists c m fl) (hk : k < descCnt) : c.tail k ∉ fl k :=
  fun hx => (Context.end_outside hk (.inr rfl)).1 (h.place k hk _ hx).inHeap

/-- The free list of descriptor `k`, walked from its head. -/
def Heap.freeList (c : Context) (h : Heap) (k : Nat) : List Nat :=
  walk h.mem (c.tail k) (2 ^ 32) (h.mem (c.head k + 4))

theorem FreeLists.freeList_eq {h : Heap} (hf : FreeLists c h.mem fl) (hk : k < descCnt) :
    h.freeList c k = fl k :=
  (hf.linked k hk).walk (hf.tail_notMem hk) (hf.length_lt hk)

theorem assertFound_spec {h : Heap} {found : Bool} {E : Stop → Prop} {Q : Unit → Heap → Prop}
    (hf : FreeLists c h.mem fl) (hk : k < descCnt) (hfound : found = decide (e ∈ fl k))
    (hQ : Q () h) : wp (assertFound c k e found) E Q h := by
  rw [assertFound]
  split
  · exact hQ
  · have hfind := (hf.linked k hk).findFrom (hf.tail_notMem hk) e (hf.length_lt hk)
    rw [wp_bind, elemFind, wp_bind, wp_get, hfind]
    exact wp_assert_of c hfound.symm hQ

end Lists

end Aitos.Mm
