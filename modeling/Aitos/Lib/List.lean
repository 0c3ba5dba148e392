import Aitos.Framework.LinkedList

/-!
# The kernel's lists

`lib/kernel/list.c`: doubly linked lists of `struct list_elem`, two words each, between the `head` and
the `tail` of a `struct list`.  A list is named by its address.  Many lists share one memory; each
operation changes the sequence of one of them.
-/

namespace Aitos.Lib

open Framework

/-- `&plist->tail` -/
def tail (plist : Nat) : Nat := plist + 8

def listInit (m : Words) (plist : Nat) : Words :=
  let m := Function.update m plist 0
  let m := Function.update m (plist + 4) (tail plist)
  let m := Function.update m (tail plist) plist
  Function.update m (tail plist + 4) 0

def listInsertBefore (m : Words) (before elem : Nat) : Words := insertBefore m before elem

def listPush (m : Words) (plist elem : Nat) : Words := listInsertBefore m (m (plist + 4)) elem

def listAppend (m : Words) (plist elem : Nat) : Words := listInsertBefore m (tail plist) elem

def listRemove (m : Words) (pelem : Nat) : Words := unlink m pelem

def listPop (m : Words) (plist : Nat) : Nat × Words :=
  let elem := m (plist + 4)
  (elem, listRemove m elem)

def listEmpty (m : Words) (plist : Nat) : Bool := m (plist + 4) = tail plist

/-- `elem_find`, which has returned after `n` turns of its loop or not at all. -/
def elemFind (m : Words) (plist objElem : Nat) (n : Nat) : Option Bool :=
  findFrom m (tail plist) objElem n (m (plist + 4))

def listTraversal (m : Words) (plist : Nat) (func : Nat → Int → Bool) (arg : Int) (n : Nat) :
    Option (Option Nat) :=
  if listEmpty m plist then some none
  else firstFrom m (tail plist) (fun elem => func elem arg) n (m (plist + 4))

/-- The loop of `list_len` -/
def lenFrom (m : Words) (q : Nat) : Nat → Nat → UInt32 → Option UInt32
  | 0, _, _ => none
  | n + 1, elem, length =>
      if elem = q then some length else lenFrom m q n (m (elem + 4)) (length + 1)

def listLen (m : Words) (plist : Nat) (n : Nat) : Option UInt32 :=
  lenFrom m (tail plist) n (m (plist + 4)) 0

/-- The nodes of a list: its head, its elements and its tail. -/
def nodes (plist : Nat) (xs : List Nat) : List Nat := plist :: xs ++ [tail plist]

/-- Two nodes share no byte. -/
def Apart (x y : Nat) : Prop := x + 8 ≤ y ∨ y + 8 ≤ x

/-- The lists at the addresses `L` hold the sequences `seq`: the links lead through the sequence in
both directions, and the nodes of all lists are different parts of a 32-bit memory. -/
structure ListHeap (m : Words) (L : Set Nat) (seq : Nat → List Nat) : Prop where
  linked : ∀ l ∈ L, Linked m l (seq l) (tail l)
  apart : ∀ l ∈ L, (nodes l (seq l)).Pairwise Apart
  disjoint : ∀ l ∈ L, ∀ k ∈ L, l ≠ k → ∀ x ∈ nodes l (seq l), ∀ y ∈ nodes k (seq k), Apart x y
  bound : ∀ l ∈ L, ∀ x ∈ nodes l (seq l), x + 8 ≤ 2 ^ 32

/-- A node in no list. -/
structure Loose (L : Set Nat) (seq : Nat → List Nat) (e : Nat) : Prop where
  apart : ∀ l ∈ L, ∀ x ∈ nodes l (seq l), Apart e x
  bound : e + 8 ≤ 2 ^ 32

theorem Apart.symm {x y : Nat} (h : Apart x y) : Apart y x := Or.symm h

instance : Std.Symm Apart := ⟨fun _ _ => Apart.symm⟩

section Nodes

variable {m : Words} {l e b : Nat} {xs ys : List Nat}

private theorem nodup_of_apart {l : List Nat} (h : l.Pairwise Apart) : l.Nodup :=
  h.imp fun hab heq => by
    rw [heq, Apart] at hab
    omega

private theorem spread_of_apart {l : List Nat} (h : l.Pairwise Apart) : Spread l := by
  intro x hx y hy heq
  have hne : x ≠ y := by omega
  have hab := h.forall hx hy hne
  rw [Apart] at hab
  omega

private theorem outside_of_apart {N : List Nat} {y : Nat} (h : ∀ x ∈ N, Apart x y) :
    Outside y N ∧ Outside (y + 4) N := by
  constructor
  · intro x hx
    have hxy := h x hx
    rw [Apart] at hxy
    omega
  · intro x hx
    have hxy := h x hx
    rw [Apart] at hxy
    omega

private theorem nodes_insert_perm (l e : Nat) (xs ys : List Nat) :
    (nodes l (xs ++ e :: ys)).Perm (e :: nodes l (xs ++ ys)) := by
  have h : (l :: (xs ++ e :: ys)).Perm (e :: l :: (xs ++ ys)) :=
    ((List.perm_middle).cons l).trans (List.Perm.swap e l _)
  exact h.append_right [tail l]

private theorem linked_insert (h : Linked m l (xs ++ ys) (tail l))
    (hap : (e :: nodes l (xs ++ ys)).Pairwise Apart)
    (hb : ys = [] ∧ b = tail l ∨ ∃ zs, ys = b :: zs) :
    Linked (insertBefore m b e) l (xs ++ e :: ys) (tail l) ∧
      ∀ c, Outside c (e :: nodes l (xs ++ ys)) → insertBefore m b e c = m c := by
  have hn := nodup_of_apart hap
  have hs := spread_of_apart hap
  rcases hb with ⟨rfl, rfl⟩ | ⟨zs, rfl⟩
  · rw [List.append_nil] at h hn hs ⊢
    exact ⟨h.insertBefore hn hs, fun c hc => h.insertBefore_outside hc⟩
  · refine ⟨h.insertBefore_mid hn hs, fun c hc => ?_⟩
    obtain ⟨hleft, -⟩ := (linked_append b).mp h
    apply hleft.insertBefore_outside
    intro x hx
    apply hc
    simp only [nodes, List.mem_cons, List.mem_append, List.not_mem_nil, or_false] at hx ⊢
    tauto

end Nodes

section Heap

variable {m m' : Words} {L : Set Nat} {seq : Nat → List Nat} {l e b : Nat} {xs ys : List Nat}

/-- One list gets a new sequence, and only its nodes and loose ones are written. -/
theorem ListHeap.change {N : List Nat} (h : ListHeap m L seq) (hl : l ∈ L)
    (hlinked : Linked m' l xs (tail l)) (hapart : (nodes l xs).Pairwise Apart)
    (hframe : ∀ c, Outside c N → m' c = m c)
    (hnodes : ∀ x ∈ nodes l xs, x ∈ nodes l (seq l) ∨ Loose L seq x)
    (hN : ∀ x ∈ N, x ∈ nodes l (seq l) ∨ Loose L seq x) :
    ListHeap m' L (Function.update seq l xs) := by
  have hother {k : Nat} (hk : k ∈ L) (hne : k ≠ l) {x y : Nat}
      (hx : x ∈ nodes l (seq l) ∨ Loose L seq x) (hy : y ∈ nodes k (seq k)) : Apart x y := by
    rcases hx with hx | hx
    · exact h.disjoint l hl k hk hne.symm x hx y hy
    · exact hx.apart k hk y hy
  refine ⟨?_, ?_, ?_, ?_⟩
  · intro k hk
    by_cases hkl : k = l
    · rw [hkl, Function.update_self]
      exact hlinked
    · rw [Function.update_of_ne hkl]
      apply (h.linked k hk).congr
      · intro a ha
        apply hframe
        refine (outside_of_apart fun x hx => hother hk hkl (hN x hx) ?_).2
        exact List.mem_append_left _ ha
      · intro c hc
        apply hframe
        refine (outside_of_apart fun x hx => hother hk hkl (hN x hx) ?_).1
        exact List.mem_cons_of_mem _ hc
  · intro k hk
    by_cases hkl : k = l
    · rw [hkl, Function.update_self]
      exact hapart
    · rw [Function.update_of_ne hkl]
      exact h.apart k hk
  · intro k hk j hj hne x hx y hy
    by_cases hkl : k = l
    · have hjl : j ≠ l := fun heq => hne (hkl.trans heq.symm)
      rw [hkl, Function.update_self] at hx
      rw [Function.update_of_ne hjl] at hy
      exact hother hj hjl (hnodes x hx) hy
    · rw [Function.update_of_ne hkl] at hx
      by_cases hjl : j = l
      · rw [hjl, Function.update_self] at hy
        exact (hother hk hkl (hnodes y hy) hx).symm
      · rw [Function.update_of_ne hjl] at hy
        exact h.disjoint k hk j hj hne x hx y hy
  · intro k hk x hx
    by_cases hkl : k = l
    · rw [hkl, Function.update_self] at hx
      rcases hnodes x hx with hx | hx
      · exact h.bound l hl x hx
      · exact hx.bound
    · rw [Function.update_of_ne hkl] at hx
      exact h.bound k hk x hx

theorem ListHeap.insert (h : ListHeap m L seq) (hl : l ∈ L) (he : Loose L seq e)
    (hseq : seq l = xs ++ ys) (hb : ys = [] ∧ b = tail l ∨ ∃ zs, ys = b :: zs) :
    ListHeap (listInsertBefore m b e) L (Function.update seq l (xs ++ e :: ys)) := by
  have hap : (e :: nodes l (xs ++ ys)).Pairwise Apart := by
    rw [← hseq]
    exact List.Pairwise.cons (he.apart l hl) (h.apart l hl)
  obtain ⟨hlinked, hframe⟩ := linked_insert (hseq ▸ h.linked l hl) hap hb
  have hmem (x : Nat) (hx : x ∈ e :: nodes l (xs ++ ys)) :
      x ∈ nodes l (seq l) ∨ Loose L seq x := by
    rcases List.mem_cons.mp hx with rfl | hx
    · exact Or.inr he
    · rw [hseq]
      exact Or.inl hx
  refine h.change hl hlinked ?_ hframe (fun x hx => hmem x ?_) hmem
  · exact ((nodes_insert_perm l e xs ys).pairwise_iff Apart.symm).mpr hap
  · exact (nodes_insert_perm l e xs ys).subset hx

theorem ListHeap.push (h : ListHeap m L seq) (hl : l ∈ L) (he : Loose L seq e) :
    ListHeap (listPush m l e) L (Function.update seq l (e :: seq l)) := by
  have hsplit : seq l = [] ++ seq l := rfl
  refine h.insert hl he hsplit ?_
  have hlinked := h.linked l hl
  cases hseq : seq l with
  | nil =>
      rw [hseq] at hlinked
      exact Or.inl ⟨rfl, hlinked.1⟩
  | cons b zs =>
      rw [hseq] at hlinked
      exact Or.inr ⟨zs, by rw [hlinked.1]⟩

theorem ListHeap.append (h : ListHeap m L seq) (hl : l ∈ L) (he : Loose L seq e) :
    ListHeap (listAppend m l e) L (Function.update seq l (seq l ++ [e])) :=
  h.insert hl he (List.append_nil _).symm (Or.inl ⟨rfl, rfl⟩)

theorem ListHeap.remove (h : ListHeap m L seq) (hl : l ∈ L) (hseq : seq l = xs ++ e :: ys) :
    ListHeap (listRemove m e) L (Function.update seq l (xs ++ ys)) := by
  have hap := h.apart l hl
  have hlinked := h.linked l hl
  rw [hseq] at hap hlinked
  have hn := nodup_of_apart hap
  have hs := spread_of_apart hap
  have hperm := nodes_insert_perm l e xs ys
  refine h.change hl (hlinked.unlink hn hs) ?_ (fun c hc => hlinked.unlink_outside hn hs hc) ?_ ?_
  · exact List.Pairwise.of_cons ((hperm.pairwise_iff Apart.symm).mp hap)
  · intro x hx
    rw [hseq]
    exact Or.inl (hperm.symm.subset (List.mem_cons_of_mem e hx))
  · intro x hx
    rw [hseq]
    exact Or.inl hx

theorem ListHeap.pop (h : ListHeap m L seq) (hl : l ∈ L) (hseq : seq l = e :: ys) :
    (listPop m l).1 = e ∧ ListHeap (listPop m l).2 L (Function.update seq l ys) := by
  have hlinked := h.linked l hl
  rw [hseq] at hlinked
  have hfirst : m (l + 4) = e := hlinked.1
  have hsplit : seq l = [] ++ e :: ys := hseq
  refine ⟨hfirst, ?_⟩
  rw [listPop, hfirst]
  exact h.remove hl hsplit

theorem ListHeap.init (h : ListHeap m L seq) (hl : Loose L seq l) (htail : Loose L seq (tail l)) :
    ListHeap (listInit m l) (Set.insert l L) (Function.update seq l []) := by
  have hnew (x : Nat) (hx : x ∈ nodes l []) : Loose L seq x := by
    rcases List.mem_cons.mp hx with rfl | hx
    · exact hl
    · rw [List.mem_singleton.mp hx]
      exact htail
  have hne {k : Nat} (hk : k ∈ L) : k ≠ l := by
    rintro rfl
    have hself := hl.apart k hk k List.mem_cons_self
    rw [Apart] at hself
    omega
  have hframe (c : Nat) (hc : Outside c (nodes l [])) : listInit m l c = m c := by
    have hhead := hc l List.mem_cons_self
    have hlast := hc (tail l) (by simp [nodes])
    simp [listInit, hhead, hlast]
  have hother {k : Nat} (hk : k ∈ L) {x y : Nat} (hx : x ∈ nodes l []) (hy : y ∈ nodes k (seq k)) :
      Apart x y := (hnew x hx).apart k hk y hy
  refine ⟨?_, ?_, ?_, ?_⟩
  · intro k hk
    rcases hk with rfl | hk
    · rw [Function.update_self]
      simp [Linked, listInit, tail]
    · rw [Function.update_of_ne (hne hk)]
      apply (h.linked k hk).congr
      · intro a ha
        apply hframe
        exact (outside_of_apart fun x hx => hother hk hx (List.mem_append_left _ ha)).2
      · intro c hc
        apply hframe
        exact (outside_of_apart fun x hx => hother hk hx (List.mem_cons_of_mem _ hc)).1
  · intro k hk
    rcases hk with rfl | hk
    · rw [Function.update_self]
      simp [nodes, Apart, tail]
    · rw [Function.update_of_ne (hne hk)]
      exact h.apart k hk
  · intro k hk j hj hkj x hx y hy
    rcases hk with rfl | hk
    · rcases hj with rfl | hj
      · exact absurd rfl hkj
      · rw [Function.update_self] at hx
        rw [Function.update_of_ne (hne hj)] at hy
        exact hother hj hx hy
    · rw [Function.update_of_ne (hne hk)] at hx
      rcases hj with rfl | hj
      · rw [Function.update_self] at hy
        exact (hother hk hy hx).symm
      · rw [Function.update_of_ne (hne hj)] at hy
        exact h.disjoint k hk j hj hkj x hx y hy
  · intro k hk x hx
    rcases hk with rfl | hk
    · rw [Function.update_self] at hx
      exact (hnew x hx).bound
    · rw [Function.update_of_ne (hne hk)] at hx
      exact h.bound k hk x hx

theorem ListHeap.tail_notMem (h : ListHeap m L seq) (hl : l ∈ L) : tail l ∉ seq l := by
  have hn := nodup_of_apart (h.apart l hl)
  rw [nodes, List.cons_append] at hn
  intro hmem
  exact (List.nodup_append.mp (List.nodup_cons.mp hn).2).2.2 _ hmem _ (List.mem_singleton.mpr rfl) rfl

/-- Nodes of eight bytes: a list is shorter than the memory. -/
theorem ListHeap.length_lt (h : ListHeap m L seq) (hl : l ∈ L) : (seq l).length < 2 ^ 32 := by
  have hn := nodup_of_apart (h.apart l hl)
  have hsub : nodes l (seq l) ⊆ List.range (2 ^ 32) := by
    intro x hx
    have hx' := h.bound l hl x hx
    exact List.mem_range.mpr (by omega)
  have hlen := (hn.subperm hsub).length_le
  rw [List.length_range, nodes, List.cons_append, List.length_cons, List.length_append] at hlen
  omega

theorem ListHeap.empty (h : ListHeap m L seq) (hl : l ∈ L) :
    listEmpty m l = decide (seq l = []) := by
  have hlinked := h.linked l hl
  have htail := h.tail_notMem hl
  rw [listEmpty]
  cases hseq : seq l with
  | nil =>
      rw [hseq] at hlinked
      simp [hlinked.1]
  | cons x xs =>
      rw [hseq] at hlinked htail
      have hne : x ≠ tail l := fun heq => htail (heq ▸ List.mem_cons_self)
      simp [hlinked.1, hne]

private theorem lenFrom_eq {q p : Nat} {n : Nat} {len : UInt32} (h : Linked m p xs q) (hq : q ∉ xs)
    (hn : xs.length < n) :
    lenFrom m q n (m (p + 4)) len = some (len + UInt32.ofNat xs.length) := by
  induction xs generalizing p n len with
  | nil =>
      obtain ⟨n, rfl⟩ := Nat.exists_eq_succ_of_ne_zero (Nat.ne_of_gt hn)
      simp [lenFrom, h.1]
  | cons x xs ih =>
      obtain ⟨n, rfl⟩ := Nat.exists_eq_succ_of_ne_zero (Nat.ne_of_gt (Nat.zero_lt_of_lt hn))
      obtain ⟨h₁, -, h₃⟩ := h
      simp only [List.mem_cons, not_or] at hq
      rw [h₁, lenFrom, if_neg (Ne.symm hq.1), ih h₃ hq.2 (Nat.lt_of_succ_lt_succ hn)]
      have hadd : len + 1 + UInt32.ofNat xs.length = len + UInt32.ofNat (xs.length + 1) := by
        rw [UInt32.ofNat_add, UInt32.add_assoc, UInt32.add_comm 1]
        rfl
      rw [hadd]
      rfl

theorem ListHeap.len (h : ListHeap m L seq) (hl : l ∈ L) {n : Nat} (hn : (seq l).length < n) :
    ∃ len, listLen m l n = some len ∧ len.toNat = (seq l).length := by
  refine ⟨UInt32.ofNat (seq l).length, ?_, ?_⟩
  · rw [listLen, lenFrom_eq (h.linked l hl) (h.tail_notMem hl) hn, UInt32.zero_add]
  · rw [UInt32.toNat_ofNat', Nat.mod_eq_of_lt (h.length_lt hl)]

theorem ListHeap.find (h : ListHeap m L seq) (hl : l ∈ L) (obj : Nat) {n : Nat}
    (hn : (seq l).length < n) : elemFind m l obj n = some (decide (obj ∈ seq l)) :=
  (h.linked l hl).findFrom (h.tail_notMem hl) obj hn

private theorem ListHeap.traversal (h : ListHeap m L seq) (hl : l ∈ L) (func : Nat → Int → Bool)
    (arg : Int) {n : Nat} (hn : (seq l).length < n) :
    listTraversal m l func arg n = some ((seq l).find? fun elem => func elem arg) := by
  rw [listTraversal, h.empty hl]
  split
  · rename_i hnil
    rw [of_decide_eq_true hnil]
    rfl
  · exact (h.linked l hl).firstFrom (h.tail_notMem hl) _ hn

theorem list_refines (h : ListHeap m L seq) :
    (∀ l ∈ L, ∀ e, Loose L seq e →
      ListHeap (listPush m l e) L (Function.update seq l (e :: seq l)) ∧
      ListHeap (listAppend m l e) L (Function.update seq l (seq l ++ [e])) ∧
      ∀ xs b ys, seq l = xs ++ b :: ys →
        ListHeap (listInsertBefore m b e) L (Function.update seq l (xs ++ e :: b :: ys))) ∧
    (∀ l ∈ L, ∀ xs e ys, seq l = xs ++ e :: ys →
      ListHeap (listRemove m e) L (Function.update seq l (xs ++ ys))) ∧
    (∀ l ∈ L, ∀ e ys, seq l = e :: ys →
      (listPop m l).1 = e ∧ ListHeap (listPop m l).2 L (Function.update seq l ys)) ∧
    ∀ l ∈ L, listEmpty m l = decide (seq l = []) ∧ ∀ n > (seq l).length,
      (∀ obj, elemFind m l obj n = some (decide (obj ∈ seq l))) ∧
      (∃ len, listLen m l n = some len ∧ len.toNat = (seq l).length) ∧
      ∀ func arg, listTraversal m l func arg n = some ((seq l).find? fun elem => func elem arg) := by
  refine ⟨?_, ?_, ?_, ?_⟩
  · intro l hl e he
    refine ⟨h.push hl he, h.append hl he, fun xs b ys hseq => ?_⟩
    exact h.insert hl he hseq (Or.inr ⟨ys, rfl⟩)
  · intro l hl xs e ys hseq
    exact h.remove hl hseq
  · intro l hl e ys hseq
    exact h.pop hl hseq
  · intro l hl
    refine ⟨h.empty hl, fun n hn => ⟨?_, h.len hl hn, ?_⟩⟩
    · intro obj
      exact h.find hl obj hn
    · intro func arg
      exact h.traversal hl func arg hn

/-- Two lists, one of them with an element. -/
def twoLists : Words := listPush (listInit (listInit (fun _ => 0) 4096) 8192) 4096 12288

def twoSeqs : Nat → List Nat :=
  Function.update (Function.update (Function.update (fun _ => []) 4096 []) 8192 []) 4096 [12288]

private theorem twoLists_heap :
    ListHeap twoLists (Set.insert 8192 (Set.insert 4096 ∅)) twoSeqs := by
  have hnone (e : Nat) (he : e + 8 ≤ 2 ^ 32) : Loose ∅ (fun _ => []) e := by
    refine ⟨fun l hl => ?_, he⟩
    cases hl
  have hempty : ListHeap (fun _ => 0) ∅ fun _ => [] := by
    refine ⟨?_, ?_, ?_, ?_⟩
    all_goals
      intro l hl
      cases hl
  have hone := hempty.init (hnone 4096 (by decide)) (hnone _ (by decide))
  have hfar (e : Nat) (he : 8192 ≤ e) (he' : e + 8 ≤ 2 ^ 32) :
      Loose (Set.insert 4096 ∅) (Function.update (fun _ => []) 4096 []) e := by
    refine ⟨fun l hl x hx => ?_, he'⟩
    rcases hl with rfl | hl
    · simp [nodes, tail] at hx
      rw [Apart]
      omega
    · cases hl
  have htwo := hone.init (hfar 8192 (by decide) (by decide)) (hfar (tail 8192) (by decide) (by decide))
  refine htwo.push (Or.inr (Or.inl rfl)) ⟨fun l hl x hx => ?_, by decide⟩
  rcases hl with rfl | rfl | hl
  · simp [nodes, tail] at hx
    rw [Apart]
    omega
  · simp [nodes, tail] at hx
    rw [Apart]
    omega
  · cases hl

theorem list_refines_two : (listPop twoLists 4096).1 = 12288 ∧
    ListHeap (listPop twoLists 4096).2 (Set.insert 8192 (Set.insert 4096 ∅))
      (Function.update twoSeqs 4096 []) :=
  (list_refines twoLists_heap).2.2.1 4096 (Or.inr (Or.inl rfl)) 12288 [] rfl

end Heap

end Aitos.Lib
