import Aitos.Proc.Fork

/-!
# Page tables seen through their window

The last entry of a page directory names the directory itself, so the pages from `0xffc00000` on
are the page tables and the last of them is the directory.  Here the accesses of `mm/memory.c`
become reads and writes of frames, and each allocation is described by what it leaves alone: every
frame that was taken before keeps its words, and so does every kernel page that was mapped.
-/

namespace Aitos.Proc.Fork

open Framework

section Addresses

variable {a : Nat}

private theorem and_high_bits {k n : Nat} (ha : a < 2 ^ k * 2 ^ n) :
    a &&& (2 ^ n - 1) <<< k = a / 2 ^ k * 2 ^ k := by
  have hshift : a &&& (2 ^ n - 1) <<< k = ((a >>> k) &&& (2 ^ n - 1)) <<< k := by
    apply Nat.eq_of_testBit_eq
    intro i
    rw [Nat.testBit_and, Nat.testBit_shiftLeft, Nat.testBit_shiftLeft, Nat.testBit_and,
      Nat.testBit_shiftRight]
    by_cases hi : k ≤ i
    · rw [Nat.add_sub_cancel' hi]
      simp [hi]
    · simp [hi]
  rw [hshift, Nat.and_two_pow_sub_one_eq_mod, Nat.shiftRight_eq_div_pow, Nat.shiftLeft_eq,
    Nat.mod_eq_of_lt (Nat.div_lt_of_lt_mul ha)]

private theorem and_high (ha : a < 2 ^ 32) : a &&& 0xffc00000 = a / 2 ^ 22 * 2 ^ 22 := by
  rw [show (0xffc00000 : Nat) = (2 ^ 10 - 1) <<< 22 by decide]
  exact and_high_bits ha

theorem and_page (ha : a < 2 ^ 32) : a &&& 0xfffff000 = a / 4096 * 4096 := by
  rw [show (0xfffff000 : Nat) = (2 ^ 20 - 1) <<< 12 by decide]
  exact and_high_bits ha

private theorem pdeIdx_eq (ha : a < 2 ^ 32) : pdeIdx a = a / 2 ^ 22 := by
  rw [pdeIdx, and_high ha, Nat.shiftRight_eq_div_pow, Nat.mul_div_cancel _ (by decide)]

private theorem pteIdx_eq (a : Nat) : pteIdx a = a / 4096 % 1024 := by
  have hmask : (0x003ff000 : Nat) = (2 ^ 10 - 1) <<< 12 := by decide
  have hshift : pteIdx a = (a >>> 12) &&& (2 ^ 10 - 1) := by
    apply Nat.eq_of_testBit_eq
    intro i
    rw [pteIdx, hmask, Nat.testBit_shiftRight, Nat.testBit_and, Nat.testBit_shiftLeft,
      Nat.testBit_and, Nat.testBit_shiftRight, Nat.add_sub_cancel_left]
    simp
  rw [hshift, Nat.and_two_pow_sub_one_eq_mod, Nat.shiftRight_eq_div_pow]

theorem pdePtr_eq (ha : a < 2 ^ 32) : pdePtr a = 0xfffff000 + a / 2 ^ 22 * 4 := by
  rw [pdePtr, pdeIdx_eq ha]

private theorem ptePtr_eq (ha : a < 2 ^ 32) :
    ptePtr a = 0xffc00000 + a / 2 ^ 22 * 4096 + a / 4096 % 1024 * 4 := by
  rw [ptePtr, pteIdx_eq, and_high ha, Nat.shiftRight_eq_div_pow]
  omega

end Addresses

theorem entry_odd (f : Nat) : (f * 4096 + 7) % 2 = 1 := by
  omega

theorem entry_frame (f : Nat) : (f * 4096 + 7) / 4096 = f := by
  omega

/-- Any stop is allowed: the statements are about calls that return. -/
abbrev Any : Stop → Prop := fun _ => True

section Accesses

variable {m : Machine} {a f : Nat}

theorem wp_translate {Q : Nat → Machine → Prop}
    (h : ∀ f, m.walkFrom m.cr3 (a / 4096) = some f → Q f m) : wp (translate a) Any Q m := by
  rw [translate, wp_bind, wp_get, wp_bind, wp_get]
  cases hw : m.walkFrom m.cr3 (a / 4096) with
  | none => exact trivial
  | some f => exact h f hw

private theorem wp_load {Q : Nat → Machine → Prop}
    (h : ∀ f, m.walkFrom m.cr3 (a / 4096) = some f → Q (m.ram f (a % 4096 / 4)) m) :
    wp (load a) Any Q m := by
  rw [load, wp_bind]
  apply wp_translate
  intro f hf
  exact h f hf

theorem wp_store {v : Nat} {Q : Unit → Machine → Prop}
    (h : ∀ f, m.walkFrom m.cr3 (a / 4096) = some f → Q () (m.setWord f (a % 4096 / 4) v)) :
    wp (store a v) Any Q m := by
  rw [store, wp_bind]
  apply wp_translate
  intro f hf
  exact h f hf

/-- The last entry of the directory `d` names `d`. -/
def Machine.Window (m : Machine) (d : Nat) : Prop := m.ram d 1023 = d * 4096 + 7

variable {d : Nat}

theorem walk_pdePtr (hw : m.Window d) (ha : a < 2 ^ 32) :
    m.walkFrom d (pdePtr a / 4096) = some d := by
  have hpage : pdePtr a / 4096 = 0xfffff := by
    rw [pdePtr_eq ha]
    omega
  rw [hpage, Machine.walkFrom]
  change m.ram d 1023 = _ at hw
  simp only [Nat.reduceDiv, Nat.reduceMod, hw, entry_odd, entry_frame, if_true]

theorem walk_ptePtr (hw : m.Window d) (ha : a < 2 ^ 32) :
    m.walkFrom d (ptePtr a / 4096) =
      if m.ram d (a / 2 ^ 22) % 2 = 1 then some (m.ram d (a / 2 ^ 22) / 4096) else none := by
  have hdir : ptePtr a / 4096 / 1024 = 1023 := by
    rw [ptePtr_eq ha]
    omega
  have htable : ptePtr a / 4096 % 1024 = a / 2 ^ 22 := by
    rw [ptePtr_eq ha]
    omega
  rw [Machine.walkFrom, hdir, htable]
  change m.ram d 1023 = _ at hw
  simp only [hw, entry_odd, entry_frame, if_true]

theorem pdePtr_word (ha : a < 2 ^ 32) : pdePtr a % 4096 / 4 = a / 2 ^ 22 := by
  rw [pdePtr_eq ha]
  omega

theorem ptePtr_word (ha : a < 2 ^ 32) : ptePtr a % 4096 / 4 = a / 4096 % 1024 := by
  rw [ptePtr_eq ha]
  omega

/-- Through the window `*pde_ptr(a)` is an entry of the directory. -/
private theorem wp_load_pde {Q : Nat → Machine → Prop} (hw : m.Window m.cr3) (ha : a < 2 ^ 32)
    (h : Q (m.ram m.cr3 (a / 2 ^ 22)) m) : wp (load (pdePtr a)) Any Q m := by
  apply wp_load
  intro f hf
  rw [walk_pdePtr hw ha] at hf
  cases hf
  rw [pdePtr_word ha]
  exact h

private theorem wp_store_pde {v : Nat} {Q : Unit → Machine → Prop} (hw : m.Window m.cr3)
    (ha : a < 2 ^ 32)
    (h : Q () (m.setWord m.cr3 (a / 2 ^ 22) v)) : wp (store (pdePtr a) v) Any Q m := by
  apply wp_store
  intro f hf
  rw [walk_pdePtr hw ha] at hf
  cases hf
  rw [pdePtr_word ha]
  exact h

theorem wp_load_pte {Q : Nat → Machine → Prop} (hw : m.Window m.cr3) (ha : a < 2 ^ 32)
    (h : m.ram m.cr3 (a / 2 ^ 22) % 2 = 1 →
      Q (m.ram (m.ram m.cr3 (a / 2 ^ 22) / 4096) (a / 4096 % 1024)) m) :
    wp (load (ptePtr a)) Any Q m := by
  apply wp_load
  intro f hf
  rw [walk_ptePtr hw ha] at hf
  split at hf
  · rename_i hodd
    cases hf
    rw [ptePtr_word ha]
    exact h hodd
  · cases hf

theorem wp_store_pte {v : Nat} {Q : Unit → Machine → Prop} (hw : m.Window m.cr3) (ha : a < 2 ^ 32)
    (h : m.ram m.cr3 (a / 2 ^ 22) % 2 = 1 →
      Q () (m.setWord (m.ram m.cr3 (a / 2 ^ 22) / 4096) (a / 4096 % 1024) v)) :
    wp (store (ptePtr a) v) Any Q m := by
  apply wp_store
  intro f hf
  rw [walk_ptePtr hw ha] at hf
  split at hf
  · rename_i hodd
    cases hf
    rw [ptePtr_word ha]
    exact h hodd
  · cases hf

end Accesses

section Words

variable {m : Machine} {f w v : Nat}

theorem setWord_ram_of_ne {g : Nat} (h : g ≠ f) : (m.setWord f w v).ram g = m.ram g :=
  Function.update_of_ne h _ _

theorem setWord_ram_self : (m.setWord f w v).ram f = Function.update (m.ram f) w v :=
  Function.update_self ..

theorem setPage_ram_of_ne {ws : Nat → Nat} {g : Nat} (h : g ≠ f) :
    (m.setPage f ws).ram g = m.ram g :=
  Function.update_of_ne h _ _

theorem setPage_ram_self {ws : Nat → Nat} : (m.setPage f ws).ram f = ws :=
  Function.update_self ..

end Words

/-- The page tables of the kernel half, as the loader places them. -/
@[irreducible] def kernelTable (i : Nat) : Nat := 0x101 + (i - 768)

/-- A page directory: the window, and the kernel half that all processes share. -/
structure Machine.Directory (m : Machine) (d : Nat) : Prop where
  window : m.Window d
  kernel : ∀ i, 768 ≤ i → i < 1023 → m.ram d i = kernelTable i * 4096 + 7

/-- A frame that `palloc` cannot return: it lies outside the pools or its bit is set. -/
def Taken (p : Pools) (m : Machine) (f : Nat) : Prop :=
  ∀ user i, i < p.len user → f = p.start user + i → m.pool user i = true

/-- A frame of the user pool or of the kernel pool. -/
def InPool (p : Pools) (user : Bool) (f : Nat) : Prop :=
  p.start user ≤ f ∧ f < p.start user + p.len user

/-- What the allocations of `m` have left of `m₀`. -/
structure Grown (p : Pools) (m₀ m : Machine) : Prop where
  taken : ∀ f, Taken p m₀ f → Taken p m f
  ram : ∀ f, Taken p m₀ f → ¬ (0x101 ≤ f ∧ f < 0x200) → m.ram f = m₀.ram f
  mapped : ∀ i, 768 ≤ i → i < 1023 → ∀ w, m₀.ram (kernelTable i) w % 2 = 1 →
    m.ram (kernelTable i) w = m₀.ram (kernelTable i) w
  low : ∀ i, 768 ≤ i → i < 1023 → ∀ w, m.ram (kernelTable i) w % 2 = 1 →
    m₀.ram (kernelTable i) w % 2 = 1 ∨ m.ram (kernelTable i) w / 4096 < p.start true

/-- Nothing but memory and the pools has changed. -/
structure Quiet (m m' : Machine) : Prop where
  cr3 : m'.cr3 = m.cr3
  task : m'.task = m.task
  bitmaps : m'.bitmaps = m.bitmaps

section Growth

variable {p : Pools} {m m₀ m₁ m₂ : Machine} {f : Nat}

theorem Quiet.refl (m : Machine) : Quiet m m := ⟨rfl, rfl, rfl⟩

theorem Quiet.trans (h : Quiet m₀ m₁) (h' : Quiet m₁ m₂) : Quiet m₀ m₂ :=
  ⟨h'.cr3.trans h.cr3, h'.task.trans h.task, h'.bitmaps.trans h.bitmaps⟩

theorem Grown.refl (p : Pools) (m : Machine) : Grown p m m :=
  ⟨fun _ h => h, fun _ _ _ => rfl, fun _ _ _ _ _ => rfl, fun _ _ _ _ h => Or.inl h⟩

theorem Grown.trans (h : Grown p m₀ m₁) (h' : Grown p m₁ m₂) : Grown p m₀ m₂ := by
  refine ⟨fun f hf => h'.taken f (h.taken f hf), ?_, ?_, ?_⟩
  · intro f hf hk
    rw [h'.ram f (h.taken f hf) hk, h.ram f hf hk]
  · intro i hi hi' w hw
    have hkeep := h.mapped i hi hi' w hw
    rw [h'.mapped i hi hi' w (by rw [hkeep]; exact hw), hkeep]
  · intro i hi hi' w hw
    rcases h'.low i hi hi' w hw with hold | hlow
    · rcases h.low i hi hi' w hold with hold' | hlow'
      · exact Or.inl hold'
      · right
        rw [h'.mapped i hi hi' w hold]
        exact hlow'
    · exact Or.inr hlow

theorem kernelTable_bounds {i : Nat} (hi : 768 ≤ i) (hi' : i < 1023) :
    0x101 ≤ kernelTable i ∧ kernelTable i < 0x200 := by
  unfold kernelTable
  constructor <;> omega

theorem InPool.not_kernelTable {user : Bool} (h : InPool p user f) : ¬ (0x101 ≤ f ∧ f < 0x200) := by
  have hfits := p.kernelFits
  cases user with
  | false =>
      have := h.1
      simp only [Pools.start] at this
      omega
  | true =>
      have := h.1
      simp only [Pools.start] at this
      omega

/-- Kernel tables lie below the pools. -/
theorem taken_kernelTable {i : Nat} (hi : 768 ≤ i) (hi' : i < 1023) :
    Taken p m (kernelTable i) := by
  intro user k hk heq
  have hin : InPool p user (kernelTable i) := ⟨by omega, by omega⟩
  exact absurd (kernelTable_bounds hi hi') hin.not_kernelTable

theorem InPool.user_ne_kernel {g : Nat} (hf : InPool p true f) (hg : InPool p false g) : f ≠ g := by
  have hfits := p.kernelFits
  have h₁ := hf.1
  have h₂ := hg.2
  simp only [Pools.start] at h₁ h₂
  omega

theorem Grown.setPage (h : Grown p m₀ m) (hf : ¬ Taken p m₀ f) (hk : ¬ (0x101 ≤ f ∧ f < 0x200))
    (ws : Nat → Nat) : Grown p m₀ (m.setPage f ws) := by
  have hram : ∀ g, Taken p m₀ g → (m.setPage f ws).ram g = m.ram g := by
    intro g hg
    apply setPage_ram_of_ne
    rintro rfl
    exact hf hg
  refine ⟨h.taken, ?_, ?_, ?_⟩
  · intro g hg hgk
    rw [hram g hg, h.ram g hg hgk]
  · intro i hi hi' w hw
    rw [hram _ (taken_kernelTable hi hi')]
    exact h.mapped i hi hi' w hw
  · intro i hi hi' w hw
    rw [hram _ (taken_kernelTable hi hi')] at hw ⊢
    exact h.low i hi hi' w hw

theorem wp_palloc_first {user : Bool} {Q : Nat → Machine → Prop}
    (h : ∀ i, firstClear (m.pool user) 0 (p.len user) = some i →
      Q (p.start user + i) (m.setPool user i true)) : wp (palloc p user) Any Q m := by
  rw [palloc, wp_bind, wp_get]
  cases hi : firstClear (m.pool user) 0 (p.len user) with
  | none => exact trivial
  | some i => exact h i hi

private theorem firstFree {user : Bool} {i : Nat}
    (h : firstClear (m.pool user) 0 (p.len user) = some i) :
    i < p.len user ∧ m.pool user i = false := by
  obtain ⟨-, hlt, hclear⟩ := firstClear_some h
  rw [Nat.zero_add] at hlt
  exact ⟨hlt, hclear⟩

theorem wp_palloc {user : Bool} {Q : Nat → Machine → Prop}
    (h : ∀ i, i < p.len user → m.pool user i = false →
      Q (p.start user + i) (m.setPool user i true)) : wp (palloc p user) Any Q m :=
  wp_palloc_first fun i hi => h i (firstFree hi).1 (firstFree hi).2

theorem start_inj {user user' : Bool} {i i' : Nat} (hi : i < p.len user) (hi' : i' < p.len user')
    (h : p.start user + i = p.start user' + i') : user = user' ∧ i = i' := by
  have hfits := p.kernelFits
  cases user <;> cases user' <;> simp only [Pools.start] at h <;>
    simp only [reduceCtorEq, true_and, false_and] <;> omega

theorem taken_setPool {user : Bool} {i : Nat} (hi : i < p.len user) :
    Taken p (m.setPool user i true) (p.start user + i) := by
  intro user' i' hi' heq
  obtain ⟨rfl, rfl⟩ := start_inj hi hi' heq
  simp [Machine.setPool]

theorem Taken.setPool {user : Bool} {i : Nat} (h : Taken p m f) :
    Taken p (m.setPool user i true) f := by
  intro user' i' hi' heq
  have hold := h user' i' hi' heq
  simp only [Machine.setPool, Function.update_apply]
  split
  · rename_i hu
    subst hu
    rw [Function.update_apply]
    split
    · rfl
    · exact hold
  · exact hold

theorem not_taken {user : Bool} {i : Nat} (hi : i < p.len user) (hclear : m.pool user i = false) :
    ¬ Taken p m (p.start user + i) := by
  intro h
  rw [h user i hi rfl] at hclear
  cases hclear

theorem Grown.setPool (h : Grown p m₀ m) {user : Bool} {i : Nat} :
    Grown p m₀ (m.setPool user i true) :=
  ⟨fun f hf => (h.taken f hf).setPool, h.ram, h.mapped, h.low⟩

end Growth

section Tables

variable {p : Pools} {m m₀ : Machine} {a d : Nat}

/-- The directory entry and the table entry of `a` after `page_table_add`. -/
inductive Added (p : Pools) (m : Machine) (d a frame : Nat) : Machine → Prop where
  | entry (hpde : m.ram d (a / 2 ^ 22) % 2 = 1)
      (hpte : m.ram (m.ram d (a / 2 ^ 22) / 4096) (a / 4096 % 1024) % 2 ≠ 1) :
      Added p m d a frame
        (m.setWord (m.ram d (a / 2 ^ 22) / 4096) (a / 4096 % 1024) (frame * 4096 + 7))
  | table {i : Nat} (hpde : m.ram d (a / 2 ^ 22) % 2 ≠ 1) (hi : i < p.len false)
      (hclear : m.pool false i = false)
      (hfirst : firstClear (m.pool false) 0 (p.len false) = some i) :
      Added p m d a frame
        (((m.setPool false i true).setWord d (a / 2 ^ 22) ((p.start false + i) * 4096 + 7)).setPage
          (p.start false + i)
          (Function.update (fun _ => 0) (a / 4096 % 1024) (frame * 4096 + 7)))

theorem wp_pageTableAdd {frame : Nat} {Q : Unit → Machine → Prop} (hw : m.Window m.cr3)
    (ht : Taken p m m.cr3) (ha : a < 2 ^ 32) (hi : a / 2 ^ 22 ≠ 1023)
    (h : ∀ m', Added p m m.cr3 a frame m' → Q () m') :
    wp (pageTableAdd p a frame) Any Q m := by
  rw [pageTableAdd, wp_bind]
  apply wp_load_pde hw ha
  split
  · rename_i hpde
    rw [wp_bind]
    apply wp_load_pte hw ha
    intro _
    split
    · exact trivial
    · rename_i hpte
      apply wp_store_pte hw ha
      intro _
      exact h _ (.entry hpde hpte)
  · rename_i hpde
    rw [wp_bind]
    apply wp_palloc_first
    intro i hfirst
    obtain ⟨hilt, hclear⟩ := firstFree hfirst
    have hne : p.start false + i ≠ m.cr3 := by
      intro heq
      exact not_taken hilt hclear (heq ▸ ht)
    rw [wp_bind]
    apply wp_store_pde (m := m.setPool false i true) hw ha
    set m₁ := (m.setPool false i true).setWord m.cr3 (a / 2 ^ 22) ((p.start false + i) * 4096 + 7)
      with hm₁
    have hpde₁ : m₁.ram m.cr3 (a / 2 ^ 22) = (p.start false + i) * 4096 + 7 := by
      rw [hm₁, setWord_ram_self, Function.update_self]
    have hw₁ : m₁.Window m.cr3 := by
      change m₁.ram m.cr3 1023 = _
      rw [hm₁, setWord_ram_self, Function.update_of_ne (Ne.symm hi)]
      exact hw
    -- the new table is cleared through its own entry
    rw [wp_bind, memset, wp_bind]
    apply wp_translate
    intro f hf
    rw [Nat.mul_div_cancel _ (by decide)] at hf
    change m₁.walkFrom m.cr3 _ = some f at hf
    rw [walk_ptePtr hw₁ ha, hpde₁, if_pos (entry_odd _), entry_frame] at hf
    cases hf
    rw [memset, wp_bind, wp_modify, wp_pure, wp_bind]
    set m₂ := m₁.setPage (p.start false + i) fun _ => 0 with hm₂
    have hdir₂ : m₂.ram m.cr3 = m₁.ram m.cr3 := setPage_ram_of_ne (Ne.symm hne)
    have hw₂ : m₂.Window m₂.cr3 := by
      change m₂.ram m.cr3 1023 = _
      rw [hdir₂]
      exact hw₁
    have hpde₂ : m₂.ram m₂.cr3 (a / 2 ^ 22) = (p.start false + i) * 4096 + 7 := by
      change m₂.ram m.cr3 _ = _
      rw [hdir₂, hpde₁]
    apply wp_load_pte hw₂ ha
    intro _
    split
    · exact trivial
    · apply wp_store_pte hw₂ ha
      intro _
      rw [hpde₂, entry_frame]
      have hfinal : m₂.setWord (p.start false + i) (a / 4096 % 1024) (frame * 4096 + 7) =
          m₁.setPage (p.start false + i)
            (Function.update (fun _ => 0) (a / 4096 % 1024) (frame * 4096 + 7)) := by
        rw [Machine.setWord, hm₂, setPage_ram_self, Machine.setPage, Machine.setPage,
          Function.update_idem]
        rfl
      rw [hfinal]
      exact h _ (.table hpde hilt hclear hfirst)

theorem Machine.Directory.grown {m' : Machine} (h : m.Directory d) (hg : Grown p m m')
    (ht : Taken p m d) (hk : ¬ (0x101 ≤ d ∧ d < 0x200)) : m'.Directory d := by
  have hram := hg.ram d ht hk
  refine ⟨?_, ?_⟩
  · rw [Machine.Window, hram]
    exact h.window
  · intro i hi hi'
    rw [hram]
    exact h.kernel i hi hi'

/-- The table entry of a kernel page. -/
def Machine.kernelEntry (m : Machine) (v : Nat) : Nat := m.ram (kernelTable (v / 1024)) (v % 1024)

theorem walk_kernel {v f : Nat} (hd : m.Directory d) (hv : 0xc0000 ≤ v) (hv' : v < 0xffc00)
    (he : m.kernelEntry v = f * 4096 + 7) : m.walkFrom d v = some f := by
  have hpde := hd.kernel (v / 1024) (by omega) (by omega)
  change m.ram (kernelTable (v / 1024)) (v % 1024) = _ at he
  simp only [Machine.walkFrom, hpde, he, entry_odd, entry_frame, if_true]

/-- The page `v` of the kernel's heap is a frame that was free in `m₀`. -/
structure Fresh (p : Pools) (m₀ m : Machine) (v f : Nat) : Prop where
  entry : m.kernelEntry v = f * 4096 + 7
  inPool : InPool p false f
  free : ¬ Taken p m₀ f
  taken : Taken p m f

theorem Grown.kernelEntry {m' : Machine} {v f : Nat} (h : Grown p m m') (hv : 0xc0000 ≤ v)
    (hv' : v < 0xffc00) (he : m.kernelEntry v = f * 4096 + 7) : m'.kernelEntry v = f * 4096 + 7 := by
  rw [← he]
  refine h.mapped (v / 1024) (by omega) (by omega) (v % 1024) ?_
  change m.kernelEntry v % 2 = 1
  rw [he]
  exact entry_odd f

theorem Fresh.grown {m' : Machine} {v f : Nat} (h : Fresh p m₀ m v f) (hg : Grown p m m')
    (hv : 0xc0000 ≤ v) (hv' : v < 0xffc00) : Fresh p m₀ m' v f :=
  ⟨hg.kernelEntry hv hv' h.entry, h.inPool, h.free, hg.taken f h.taken⟩

private theorem wp_kernelPage {v : Nat} {Q : Unit → Machine → Prop} (hd : m.Directory m.cr3)
    (ht : Taken p m m.cr3) (hv : 0xc0100 ≤ v) (hv' : v < 0xffc00)
    (h : ∀ m' f, Quiet m m' → Grown p m m' → Fresh p m m' v f → Q () m') :
    wp (do let frame ← palloc p false; pageTableAdd p (v * 4096) frame) Any Q m := by
  rw [wp_bind]
  apply wp_palloc
  intro i hi hclear
  have hdir : v * 4096 / 2 ^ 22 = v / 1024 := by omega
  have htab : v * 4096 / 4096 % 1024 = v % 1024 := by omega
  have hpde := hd.kernel (v / 1024) (by omega) (by omega)
  have hin : InPool p false (p.start false + i) := ⟨Nat.le_add_right _ _, by omega⟩
  have hlow : p.start false + i < p.start true := by
    have hfits := p.kernelFits
    simp only [Pools.start]
    omega
  apply wp_pageTableAdd (m := m.setPool false i true) hd.window ht.setPool (by omega) (by omega)
  intro m' hadd
  cases hadd with
  | entry _ hpte =>
      change m.ram (m.ram m.cr3 _ / 4096) _ % 2 ≠ 1 at hpte
      rw [hdir, htab, hpde] at hpte
      rw [entry_frame] at hpte
      have hm : ∀ x, (m.setPool false i true).setWord ((m.setPool false i true).ram
          (m.setPool false i true).cr3 (v * 4096 / 2 ^ 22) / 4096) (v * 4096 / 4096 % 1024) x =
          (m.setPool false i true).setWord (kernelTable (v / 1024)) (v % 1024) x := by
        intro x
        change (m.setPool false i true).setWord (m.ram m.cr3 _ / 4096) _ x = _
        rw [hdir, htab, hpde, entry_frame]
      rw [hm]
      refine h _ (p.start false + i) ⟨rfl, rfl, rfl⟩ ⟨?_, ?_, ?_, ?_⟩ ⟨?_, hin, ?_, ?_⟩
      · intro f hf
        exact hf.setPool
      · intro f _ hk
        apply setWord_ram_of_ne
        rintro rfl
        exact hk (kernelTable_bounds (by omega) (by omega))
      · intro k hk hk' w hw
        by_cases hsame : kernelTable k = kernelTable (v / 1024)
        · rw [hsame] at hw ⊢
          rw [setWord_ram_self, Function.update_of_ne]
          · rfl
          · rintro rfl
            exact hpte hw
        · rw [setWord_ram_of_ne hsame]
          rfl
      · intro k hk hk' w hw
        by_cases hsame : kernelTable k = kernelTable (v / 1024)
        · rw [hsame] at hw ⊢
          rw [setWord_ram_self] at hw ⊢
          by_cases hword : w = v % 1024
          · right
            rw [hword, Function.update_self, entry_frame]
            exact hlow
          · left
            rw [Function.update_of_ne hword] at hw
            exact hw
        · left
          rw [setWord_ram_of_ne hsame] at hw
          exact hw
      · rw [Machine.kernelEntry, setWord_ram_self, Function.update_self]
      · exact not_taken hi hclear
      · exact taken_setPool hi
  | table hnone _ _ _ =>
      exfalso
      apply hnone
      change m.ram m.cr3 _ % 2 = 1
      rw [hdir, hpde]
      exact entry_odd _

theorem Fresh.before {m₁ : Machine} {v f : Nat} (h : Fresh p m₁ m v f)
    (hg : Grown p m₀ m₁) : Fresh p m₀ m v f :=
  ⟨h.entry, h.inPool, fun ht => h.free (hg.taken f ht), h.taken⟩

private theorem wp_mallocLoop (n : Nat) : ∀ {m : Machine} {v : Nat} {Q : Unit → Machine → Prop},
    m.Directory m.cr3 → Taken p m m.cr3 → ¬ (0x101 ≤ m.cr3 ∧ m.cr3 < 0x200) → 0xc0100 ≤ v →
    v + n ≤ 0xffc00 →
    (∀ m', Quiet m m' → Grown p m m' → (∀ q < n, ∃ f, Fresh p m m' (v + q) f) → Q () m') →
    wp (mallocLoop p (v * 4096) n) Any Q m := by
  induction n with
  | zero =>
      intro m v Q _ _ _ _ _ h
      exact h m (.refl m) (.refl p m) (by intro q hq; omega)
  | succ n ih =>
      intro m v Q hd ht hk hv hv' h
      rw [mallocLoop]
      simp only [← bind_assoc]
      rw [wp_bind]
      apply wp_kernelPage hd ht hv (by omega)
      intro m₁ f hq hg hf
      rw [show v * 4096 + 4096 = (v + 1) * 4096 by omega]
      have hd₁ : m₁.Directory m₁.cr3 := by
        rw [hq.cr3]
        exact hd.grown hg ht hk
      have ht₁ : Taken p m₁ m₁.cr3 := by
        rw [hq.cr3]
        exact hg.taken _ ht
      apply ih hd₁ ht₁ (by rw [hq.cr3]; exact hk) (by omega) (by omega)
      intro m₂ hq₂ hg₂ hf₂
      refine h m₂ (hq.trans hq₂) (hg.trans hg₂) ?_
      intro q hlt
      cases q with
      | zero => exact ⟨f, hf.grown hg₂ (by omega) (by omega)⟩
      | succ q =>
          obtain ⟨g, hfresh⟩ := hf₂ q (by omega)
          refine ⟨g, ?_⟩
          rw [show v + (q + 1) = v + 1 + q by omega]
          exact hfresh.before hg

/-- Only frames that were free in `m₀` have been written since `m`. -/
structure Wrote (p : Pools) (m₀ m m' : Machine) : Prop where
  quiet : Quiet m m'
  pool : m'.pool = m.pool
  ram : ∀ g, Taken p m₀ g → m'.ram g = m.ram g

theorem Wrote.refl (p : Pools) (m₀ m : Machine) : Wrote p m₀ m m :=
  ⟨.refl m, rfl, fun _ _ => rfl⟩

theorem Wrote.trans {m₁ m₂ m₃ : Machine} (h : Wrote p m₀ m₁ m₂) (h' : Wrote p m₀ m₂ m₃) :
    Wrote p m₀ m₁ m₃ :=
  ⟨h.quiet.trans h'.quiet, h'.pool.trans h.pool, fun g hg => (h'.ram g hg).trans (h.ram g hg)⟩

theorem wrote_setPage {f : Nat} (hf : ¬ Taken p m₀ f) (ws : Nat → Nat) :
    Wrote p m₀ m (m.setPage f ws) := by
  refine ⟨⟨rfl, rfl, rfl⟩, rfl, ?_⟩
  intro g hg
  apply setPage_ram_of_ne
  rintro rfl
  exact hf hg

theorem Wrote.directory {m' : Machine} (h : Wrote p m₀ m m') (ht : Taken p m₀ d)
    (hd : m.Directory d) : m'.Directory d := by
  refine ⟨?_, ?_⟩
  · rw [Machine.Window, h.ram d ht]
    exact hd.window
  · intro i hi hi'
    rw [h.ram d ht]
    exact hd.kernel i hi hi'

theorem Wrote.kernelEntry {m' : Machine} {v : Nat} (h : Wrote p m₀ m m') (hv : 0xc0000 ≤ v)
    (hv' : v < 0xffc00) : m'.kernelEntry v = m.kernelEntry v := by
  rw [Machine.kernelEntry, Machine.kernelEntry, h.ram _ (taken_kernelTable (by omega) (by omega))]

theorem Wrote.taken {m' : Machine} {f : Nat} (h : Wrote p m₀ m m') (hf : Taken p m f) :
    Taken p m' f := by
  intro user i hi heq
  rw [h.pool]
  exact hf user i hi heq

theorem Wrote.fresh {m' : Machine} {v f : Nat} (h : Wrote p m₀ m m') (hf : Fresh p m₀ m v f)
    (hv : 0xc0000 ≤ v) (hv' : v < 0xffc00) : Fresh p m₀ m' v f :=
  ⟨(h.kernelEntry hv hv').trans hf.entry, hf.inPool, hf.free, h.taken hf.taken⟩

theorem Wrote.grown {m' : Machine} (h : Wrote p m₀ m m') (hg : Grown p m₀ m) : Grown p m₀ m' := by
  refine ⟨fun f hf => h.taken (hg.taken f hf), ?_, ?_, ?_⟩
  · intro f hf hk
    rw [h.ram f hf, hg.ram f hf hk]
  · intro i hi hi' w hw
    rw [h.ram _ (taken_kernelTable hi hi')]
    exact hg.mapped i hi hi' w hw
  · intro i hi hi' w hw
    rw [h.ram _ (taken_kernelTable hi hi')] at hw ⊢
    exact hg.low i hi hi' w hw

private theorem wp_memset (n : Nat) : ∀ {m : Machine} {v : Nat} {Q : Unit → Machine → Prop},
    m.Directory m.cr3 → Taken p m₀ m.cr3 → 0xc0100 ≤ v → v + n ≤ 0xffc00 →
    (∀ q < n, ∃ f, Fresh p m₀ m (v + q) f) →
    (∀ m', Wrote p m₀ m m' → (∀ g, m.ram g = (fun _ => 0) → m'.ram g = fun _ => 0) →
      (∀ q < n, ∀ f, m.kernelEntry (v + q) = f * 4096 + 7 → m'.ram f = fun _ => 0) → Q () m') →
    wp (memset (v * 4096) n) Any Q m := by
  induction n with
  | zero =>
      intro m v Q _ _ _ _ _ h
      exact h m (.refl p m₀ m) (fun _ hz => hz) (by intro q hq; omega)
  | succ n ih =>
      intro m v Q hd ht hv hv' hfresh h
      obtain ⟨f, hf⟩ := hfresh 0 (by omega)
      rw [Nat.add_zero] at hf
      rw [memset, wp_bind]
      apply wp_translate
      intro f' hf'
      rw [Nat.mul_div_cancel _ (by decide), walk_kernel hd (by omega) (by omega) hf.entry] at hf'
      cases hf'
      rw [wp_bind, wp_modify, show v * 4096 + 4096 = (v + 1) * 4096 by omega]
      have hwrote : Wrote p m₀ m (m.setPage f fun _ => 0) := wrote_setPage hf.free _
      have hzero : ∀ g, m.ram g = (fun _ => 0) → (m.setPage f fun _ => 0).ram g = fun _ => 0 := by
        intro g hgz
        by_cases hgf : g = f
        · rw [hgf, setPage_ram_self]
        · rw [setPage_ram_of_ne hgf, hgz]
      have hfresh₁ : ∀ q < n, ∃ g, Fresh p m₀ (m.setPage f fun _ => 0) (v + 1 + q) g := by
        intro q hq
        obtain ⟨g, hg⟩ := hfresh (q + 1) (by omega)
        rw [show v + (q + 1) = v + 1 + q by omega] at hg
        exact ⟨g, hwrote.fresh hg (by omega) (by omega)⟩
      apply ih (hwrote.directory ht hd) ht (by omega) (by omega) hfresh₁
      intro m₂ hwrote₂ hzero₂ hcleared
      refine h m₂ (hwrote.trans hwrote₂) (fun g hgz => hzero₂ g (hzero g hgz)) ?_
      intro q hq g hg
      cases q with
      | zero =>
          rw [Nat.add_zero, hf.entry] at hg
          have hgf : g = f := by
            rw [← entry_frame g, ← hg, entry_frame]
          rw [hgf]
          exact hzero₂ f setPage_ram_self
      | succ q =>
          refine hcleared q (by omega) g ?_
          rw [hwrote.kernelEntry (by omega) (by omega), ← hg]
          congr 1
          omega

private theorem wp_vaddrGet {n : Nat} {Q : Option Nat → Machine → Prop} (hnone : Q none m)
    (h : ∀ k bits, k + n ≤ p.len false →
      Q (some (0xc0100000 + k * 4096)) { m with kernelBitmap := bits }) :
    wp (vaddrGet p n) Any Q m := by
  rw [vaddrGet, wp_bind, wp_get]
  split
  · exact trivial
  · dsimp only
    split
    · exact hnone
    · split
      · rename_i hk
        exact h _ _ hk
      · exact trivial

theorem wp_getKernelPages {n : Nat} {Q : Option Nat → Machine → Prop} (hd : m.Directory m.cr3)
    (ht : Taken p m m.cr3) (hk : ¬ (0x101 ≤ m.cr3 ∧ m.cr3 < 0x200)) (hnone : Q none m)
    (h : ∀ v m', 0xc0100 ≤ v → v + n ≤ 0xffc00 → Quiet m m' → Grown p m m' →
      (∀ q < n, ∃ f, Fresh p m m' (v + q) f ∧ m'.ram f = fun _ => 0) → Q (some (v * 4096)) m') :
    wp (getKernelPages p n) Any Q m := by
  rw [getKernelPages, wp_bind, mallocPage]
  split
  · exact trivial
  rw [wp_bind]
  apply wp_vaddrGet
  · exact hnone
  · intro k bits hlen
    have hheap := p.heapFits
    rw [show 0xc0100000 + k * 4096 = (0xc0100 + k) * 4096 by omega]
    dsimp only
    rw [wp_bind]
    set m₁ : Machine := { m with kernelBitmap := bits } with hm₁
    have hq₁ : Quiet m m₁ := ⟨rfl, rfl, rfl⟩
    have hg₁ : Grown p m m₁ :=
      ⟨fun _ hf => hf, fun _ _ _ => rfl, fun _ _ _ _ _ => rfl, fun _ _ _ _ hw => Or.inl hw⟩
    apply wp_mallocLoop n (m := m₁) ⟨hd.window, hd.kernel⟩ ht hk (by omega) (by omega)
    intro m₂ hq₂ hg₂ hfresh
    have hq : Quiet m m₂ := hq₁.trans hq₂
    have hg : Grown p m m₂ := hg₁.trans hg₂
    have hd₂ : m₂.Directory m₂.cr3 := by
      rw [hq.cr3]
      exact hd.grown hg ht hk
    rw [wp_pure, wp_bind]
    apply @wp_memset p m n _ _ _ hd₂ (by rw [hq.cr3]; exact ht) (by omega) (by omega)
    · intro q hlt
      obtain ⟨f, hf⟩ := hfresh q hlt
      exact ⟨f, hf.before hg₁⟩
    intro m₃ hwrote _ hcleared
    refine h (0xc0100 + k) m₃ (by omega) (by omega) (hq.trans hwrote.quiet) (hwrote.grown hg) ?_
    intro q hlt
    obtain ⟨f, hf⟩ := hfresh q hlt
    exact ⟨f, hwrote.fresh (hf.before hg₁) (by omega) (by omega), hcleared q hlt f hf.entry⟩

end Tables

end Aitos.Proc.Fork
