import Aitos.Proc.PageWindow

/-!
# The child gets a copy of every page

The loop of `copy_body_stack3` carries one invariant: the child's page directory, its tables and
its pages lie in frames that were free when `copy_process` was called, the pages done so far hold
the words of the parent's, and the parent's own frames are as they were.
-/

namespace Aitos.Proc.Fork

open Framework

/-- What the memory manager keeps for a process that runs: its page directory is loaded, and the
frames of its tables, of its pages and of the kernel's pages are not free. -/
structure Process (p : Pools) (m : Machine) (t : Nat) : Prop where
  directory : m.Directory m.cr3
  dirInPool : InPool p false m.cr3
  dirTaken : Taken p m m.cr3
  tables : ∀ i < 768, m.ram m.cr3 i % 2 = 1 →
    InPool p false (m.ram m.cr3 i / 4096) ∧ Taken p m (m.ram m.cr3 i / 4096)
  pages : ∀ v < 0xc0000, ∀ f, m.walkFrom m.cr3 v = some f → InPool p true f ∧ Taken p m f
  kernelPages : ∀ i, 768 ≤ i → i < 1023 → ∀ w, m.ram (kernelTable i) w % 2 = 1 →
    m.ram (kernelTable i) w / 4096 < p.start true ∧ Taken p m (m.ram (kernelTable i) w / 4096)
  /-- the page of `pgdir`, and the first page of the bitmap, are mapped -/
  pgdir : ∃ u, 0xc0000 ≤ u ∧ u < 0xffc00 ∧ (m.task t).pgdir = u * 4096 ∧
    m.kernelEntry u = m.cr3 * 4096 + 7
  bits : ∃ u, 0xc0000 ≤ u ∧ u < 0xffc00 ∧ (m.task t).bits = u * 4096 ∧ m.kernelEntry u % 2 = 1
  /-- the bitmap covers whole pages below the kernel -/
  aligned : (m.task t).vaddrStart % 4096 = 0
  below : (m.task t).vaddrStart / 4096 + 8 * (m.task t).btmpBytesLen ≤ 0xc0000

section Lookups

variable {p : Pools} {m m₀ : Machine} {d v : Nat}

private theorem walkFrom_congr {m' : Machine} (hdir : m'.ram d = m.ram d)
    (htable : m.ram d (v / 1024) % 2 = 1 →
      m'.ram (m.ram d (v / 1024) / 4096) = m.ram (m.ram d (v / 1024) / 4096)) :
    m'.walkFrom d v = m.walkFrom d v := by
  rw [Machine.walkFrom, Machine.walkFrom, hdir]
  split
  · rename_i hodd
    rw [htable hodd]
  · rfl

theorem Process.not_kernelTable {t : Nat} (h : Process p m t) :
    ¬ (0x101 ≤ m.cr3 ∧ m.cr3 < 0x200) := h.dirInPool.not_kernelTable

private theorem Process.walk_grown {t : Nat} (h : Process p m₀ t) (hg : Grown p m₀ m)
    (hv : v < 0xc0000) : m.walkFrom m₀.cr3 v = m₀.walkFrom m₀.cr3 v := by
  refine walkFrom_congr (hg.ram _ h.dirTaken h.not_kernelTable) ?_
  intro hodd
  obtain ⟨hin, htaken⟩ := h.tables (v / 1024) (by omega) hodd
  exact hg.ram _ htaken hin.not_kernelTable

private theorem Process.ram_grown {t f : Nat} (h : Process p m₀ t) (hg : Grown p m₀ m)
    (hv : v < 0xc0000) (hf : m₀.walkFrom m₀.cr3 v = some f) : m.ram f = m₀.ram f := by
  obtain ⟨hin, htaken⟩ := h.pages v hv f hf
  exact hg.ram f htaken hin.not_kernelTable

private theorem Process.fresh_ne {t u f : Nat} (h : Process p m₀ t) (hg : Grown p m₀ m)
    (hf : Fresh p m₀ m u f) (hu : 0xc0000 ≤ u) (hu' : u < 0xffc00)
    (hold : m₀.kernelEntry v % 2 = 1) : v ≠ u := by
  rintro rfl
  have hkeep : m.kernelEntry v = m₀.kernelEntry v :=
    hg.mapped (v / 1024) (by omega) (by omega) (v % 1024) hold
  have htaken := (h.kernelPages (v / 1024) (by omega) (by omega) (v % 1024) hold).2
  change Taken p m₀ (m₀.kernelEntry v / 4096) at htaken
  rw [← hkeep, hf.entry, entry_frame] at htaken
  exact hf.free htaken

end Lookups

section Activation

variable {p : Pools} {m : Machine} {t u f : Nat}

private theorem wp_addrV2p {Q : Nat → Machine → Prop} (hd : m.Directory m.cr3) (hu : 0xc0000 ≤ u)
    (hu' : u < 0xffc00) (he : m.kernelEntry u = f * 4096 + 7) (h : Q (f * 4096) m) :
    wp (addrV2p (u * 4096)) Any Q m := by
  have hdir : u * 4096 / 2 ^ 22 = u / 1024 := by omega
  have htab : u * 4096 / 4096 % 1024 = u % 1024 := by omega
  have hpde := hd.kernel (u / 1024) (by omega) (by omega)
  rw [addrV2p, wp_bind]
  apply wp_load_pte hd.window (by omega)
  intro _
  rw [hdir, htab, hpde, entry_frame]
  change m.ram (kernelTable (u / 1024)) (u % 1024) = _ at he
  rw [he, wp_pure, entry_frame, Nat.mul_mod_left, Nat.add_zero]
  exact h

private theorem wp_pageDirActivate {Q : Unit → Machine → Prop} (hd : m.Directory m.cr3)
    (hu : 0xc0000 ≤ u)
    (hu' : u < 0xffc00) (hp : (m.task t).pgdir = u * 4096) (he : m.kernelEntry u = f * 4096 + 7)
    (h : Q () { m with cr3 := f }) : wp (pageDirActivate t) Any Q m := by
  rw [pageDirActivate, wp_bind, wp_get]
  dsimp only
  rw [hp, if_pos (by omega), wp_bind]
  apply wp_addrV2p hd hu hu' he
  rw [wp_modify, Nat.mul_div_cancel _ (by decide)]
  exact h

end Activation

/-- The page directory `c` of the child and the buffer page `b`, in frames that were free in
`m₀`. -/
structure Child (p : Pools) (m₀ m : Machine) (c b : Nat) : Prop where
  directory : m.Directory c
  dirInPool : InPool p false c
  dirFree : ¬ Taken p m₀ c
  dirTaken : Taken p m c
  bufInPool : InPool p false b
  bufFree : ¬ Taken p m₀ b
  bufTaken : Taken p m b
  bufNe : b ≠ c
  tables : ∀ i < 768, m.ram c i % 2 = 1 → InPool p false (m.ram c i / 4096) ∧
    ¬ Taken p m₀ (m.ram c i / 4096) ∧ Taken p m (m.ram c i / 4096) ∧ m.ram c i / 4096 ≠ c ∧
    m.ram c i / 4096 ≠ b
  apart : ∀ i < 768, ∀ j < 768, m.ram c i % 2 = 1 → m.ram c j % 2 = 1 →
    m.ram c i / 4096 = m.ram c j / 4096 → i = j

section Mapping

variable {p : Pools} {m m' m₀ : Machine} {c b v f : Nat}

private theorem Added.ram_eq (hadd : Added p m c (v * 4096) f m') (hv : v < 0xc0000)
    {g : Nat} (hc : g ≠ c) (ht : Taken p m g)
    (htab : ∀ i < 768, m.ram c i % 2 = 1 → m.ram c i / 4096 ≠ g) : m'.ram g = m.ram g := by
  have hdir : v * 4096 / 2 ^ 22 = v / 1024 := by omega
  cases hadd with
  | entry hpde hpte =>
      rw [hdir] at hpde ⊢
      exact setWord_ram_of_ne (htab (v / 1024) (by omega) hpde).symm
  | table hpde hi hclear =>
      have hne : g ≠ p.start false + _ := fun heq => not_taken hi hclear (heq ▸ ht)
      rw [setPage_ram_of_ne hne, setWord_ram_of_ne hc]
      rfl

theorem Added.taken (hadd : Added p m c (v * 4096) f m') {g : Nat} (ht : Taken p m g) :
    Taken p m' g := by
  cases hadd with
  | entry _ _ => exact ht
  | table _ _ _ => exact ht.setPool

private theorem Child.walk_added (h : Child p m₀ m c b) (hv : v < 0xc0000)
    (hadd : Added p m c (v * 4096) f m') {u : Nat} (hu : u < 0xc0000) :
    m'.walkFrom c u = if u = v then some f else m.walkFrom c u := by
  have hdir : v * 4096 / 2 ^ 22 = v / 1024 := by omega
  have htab : v * 4096 / 4096 % 1024 = v % 1024 := by omega
  cases hadd with
  | entry hpde hpte =>
      rw [hdir] at hpde hpte ⊢
      rw [htab] at hpte ⊢
      set t := m.ram c (v / 1024) / 4096 with ht
      obtain ⟨-, -, -, htc, -⟩ := h.tables (v / 1024) (by omega) hpde
      have hramc : (m.setWord t (v % 1024) (f * 4096 + 7)).ram c = m.ram c :=
        setWord_ram_of_ne (Ne.symm htc)
      rw [Machine.walkFrom, Machine.walkFrom, hramc]
      by_cases huv : u / 1024 = v / 1024
      · rw [huv, if_pos hpde, if_pos hpde, ← ht, setWord_ram_self]
        by_cases hw : u % 1024 = v % 1024
        · have heq : u = v := by omega
          rw [if_pos heq, hw]
          simp only [Function.update_self, entry_odd, entry_frame, if_true]
        · have hne : u ≠ v := by
            rintro rfl
            exact hw rfl
          rw [if_neg hne, Function.update_of_ne hw]
      · have hne : u ≠ v := by
          rintro rfl
          exact huv rfl
        rw [if_neg hne]
        split
        · rename_i hodd
          have hother : m.ram c (u / 1024) / 4096 ≠ t := by
            intro heq
            exact huv (h.apart _ (by omega) _ (by omega) hodd hpde heq)
          rw [setWord_ram_of_ne hother]
        · rfl
  | @table i hpde hi hclear =>
      rw [hdir] at hpde ⊢
      rw [htab]
      have htc : c ≠ p.start false + i := fun heq => not_taken hi hclear (heq ▸ h.dirTaken)
      set m₁ := (m.setPool false i true).setWord c (v / 1024) ((p.start false + i) * 4096 + 7)
        with hm₁
      have hramc : ∀ ws, (m₁.setPage (p.start false + i) ws).ram c =
          Function.update (m.ram c) (v / 1024) ((p.start false + i) * 4096 + 7) := by
        intro ws
        rw [setPage_ram_of_ne htc, hm₁, setWord_ram_self]
        rfl
      rw [Machine.walkFrom, Machine.walkFrom, hramc]
      by_cases huv : u / 1024 = v / 1024
      · rw [huv, Function.update_self, if_pos (entry_odd _), entry_frame, setPage_ram_self,
          if_neg hpde]
        by_cases hw : u % 1024 = v % 1024
        · have heq : u = v := by omega
          rw [if_pos heq, hw]
          simp only [Function.update_self, entry_odd, entry_frame, if_true]
        · have hne : u ≠ v := by
            rintro rfl
            exact hw rfl
          rw [if_neg hne, Function.update_of_ne hw]
          rfl
      · have hne : u ≠ v := by
          rintro rfl
          exact huv rfl
        rw [if_neg hne, Function.update_of_ne huv]
        split
        · rename_i hodd
          obtain ⟨-, -, htaken, hnc, -⟩ := h.tables (u / 1024) (by omega) hodd
          have hother : m.ram c (u / 1024) / 4096 ≠ p.start false + i :=
            fun heq => not_taken hi hclear (heq ▸ htaken)
          rw [setPage_ram_of_ne hother, hm₁, setWord_ram_of_ne hnc]
          rfl
        · rfl

theorem Added.entry_cases (hadd : Added p m c (v * 4096) f m') (h : Child p m₀ m c b)
    (hv : v < 0xc0000) {i : Nat} (hi : i < 1024) : m'.ram c i = m.ram c i ∨
      i = v / 1024 ∧ m.ram c i % 2 ≠ 1 ∧ ∃ k, k < p.len false ∧ m.pool false k = false ∧
        m'.ram c i = (p.start false + k) * 4096 + 7 ∧ Taken p m' (p.start false + k) := by
  have hdir : v * 4096 / 2 ^ 22 = v / 1024 := by omega
  cases hadd with
  | entry hpde hpte =>
      left
      rw [hdir] at hpde ⊢
      obtain ⟨-, -, -, htc, -⟩ := h.tables (v / 1024) (by omega) hpde
      rw [setWord_ram_of_ne (Ne.symm htc)]
  | @table k hpde hk hclear =>
      rw [hdir] at hpde ⊢
      have htc : c ≠ p.start false + k := fun heq => not_taken hk hclear (heq ▸ h.dirTaken)
      rw [setPage_ram_of_ne htc, setWord_ram_self]
      by_cases hiv : i = v / 1024
      · right
        subst hiv
        refine ⟨rfl, hpde, k, hk, hclear, Function.update_self .., ?_⟩
        exact taken_setPool (m := m) hk
      · left
        rw [Function.update_of_ne hiv]
        rfl

private theorem Child.added (h : Child p m₀ m c b) (hv : v < 0xc0000)
    (hg : Grown p m₀ m) (hadd : Added p m c (v * 4096) f m') : Child p m₀ m' c b := by
  have hkeep : ∀ i, 768 ≤ i → i < 1024 → m'.ram c i = m.ram c i := by
    intro i hi hi'
    rcases hadd.entry_cases h hv hi' with heq | ⟨heq, -⟩
    · exact heq
    · omega
  have hfree : ∀ k, k < p.len false → m.pool false k = false → ∀ g, Taken p m g →
      p.start false + k ≠ g := by
    rintro k hk hclear g hg rfl
    exact not_taken hk hclear hg
  refine ⟨⟨?_, ?_⟩, h.dirInPool, h.dirFree, hadd.taken h.dirTaken, h.bufInPool, h.bufFree,
    hadd.taken h.bufTaken, h.bufNe, ?_, ?_⟩
  · rw [Machine.Window, hkeep 1023 (by omega) (by omega)]
    exact h.directory.window
  · intro i hi hi'
    rw [hkeep i hi (by omega)]
    exact h.directory.kernel i hi hi'
  · intro i hi hodd
    rcases hadd.entry_cases h hv (by omega : i < 1024) with heq | ⟨-, -, k, hk, hclear, heq, htaken⟩
    · rw [heq] at hodd ⊢
      obtain ⟨hin, hfr, htaken, hnc, hnb⟩ := h.tables i hi hodd
      exact ⟨hin, hfr, hadd.taken htaken, hnc, hnb⟩
    · rw [heq, entry_frame]
      refine ⟨⟨Nat.le_add_right _ _, by omega⟩, ?_, htaken, hfree k hk hclear c h.dirTaken,
        hfree k hk hclear b h.bufTaken⟩
      intro ht
      exact hfree k hk hclear _ (hg.taken _ ht) rfl
  · intro i hi j hj hodd hodd' hsame
    rcases hadd.entry_cases h hv (by omega : i < 1024) with heq | ⟨hiv, -, k, hk, hclear, heq, -⟩
    · rcases hadd.entry_cases h hv (by omega : j < 1024) with heq' | ⟨-, -, k, hk, hclear, heq', -⟩
      · rw [heq] at hodd hsame
        rw [heq'] at hodd' hsame
        exact h.apart i hi j hj hodd hodd' hsame
      · rw [heq] at hodd hsame
        rw [heq', entry_frame] at hsame
        exact absurd hsame.symm (hfree k hk hclear _ (h.tables i hi hodd).2.2.1)
    · rcases hadd.entry_cases h hv (by omega : j < 1024) with heq' | ⟨hjv, -⟩
      · rw [heq'] at hodd' hsame
        rw [heq, entry_frame] at hsame
        exact absurd hsame (hfree k hk hclear _ (h.tables j hj hodd').2.2.1)
      · rw [hiv, hjv]

private theorem Child.added_grown (h : Child p m₀ m c b) (hv : v < 0xc0000) (hg : Grown p m₀ m)
    (hadd : Added p m c (v * 4096) f m') : Grown p m₀ m' := by
  have hram : ∀ g, Taken p m₀ g → m'.ram g = m.ram g := by
    intro g ht
    refine hadd.ram_eq hv ?_ (hg.taken g ht) ?_
    · rintro rfl
      exact h.dirFree ht
    · rintro i hi hodd rfl
      exact (h.tables i hi hodd).2.1 ht
  refine ⟨fun g ht => hadd.taken (hg.taken g ht), ?_, ?_, ?_⟩
  · intro g ht hk
    rw [hram g ht, hg.ram g ht hk]
  · intro i hi hi' w hw
    rw [hram _ (taken_kernelTable hi hi')]
    exact hg.mapped i hi hi' w hw
  · intro i hi hi' w hw
    rw [hram _ (taken_kernelTable hi hi')] at hw ⊢
    exact hg.low i hi hi' w hw

end Mapping

private theorem wp_memcpy_page {m : Machine} {x y : Nat} {Q : Unit → Machine → Prop}
    (h : ∀ d s, m.walkFrom m.cr3 x = some d → m.walkFrom m.cr3 y = some s →
      Q () (m.setPage d fun w => if w < 1024 then m.ram s w else m.ram d w)) :
    wp (memcpy (x * 4096) (y * 4096) 1024) Any Q m := by
  rw [memcpy, wp_bind]
  apply wp_translate
  intro d hd
  rw [wp_bind]
  apply wp_translate
  intro s hs
  rw [Nat.mul_div_cancel _ (by decide)] at hd hs
  have hcopy := h d s hd hs
  simp only [Nat.mul_mod_left, Nat.zero_div, Nat.zero_le, true_and, Nat.zero_add, Nat.sub_zero]
  exact hcopy

/-- A page of the child: in a frame that was free, with the words of the parent's page. -/
structure Page (p : Pools) (m₀ m : Machine) (v f : Nat) : Prop where
  inPool : InPool p true f
  free : ¬ Taken p m₀ f
  taken : Taken p m f
  words : ∃ g, m₀.walkFrom m₀.cr3 v = some g ∧ ∀ w < 1024, m.ram f w = m₀.ram g w

section Loop

variable (p : Pools) (m₀ m₁ : Machine) (child parent c b u buf : Nat)

/-- When the loop starts: the page `u` is the child's `pgdir` and the page `buf` the buffer. -/
structure Setup : Prop where
  process : Process p m₀ parent
  task : m₁.task parent = m₀.task parent
  pgdir : (m₁.task child).pgdir = u * 4096
  bits : m₁.bitmaps (m₀.task parent).bits = m₀.bitmaps (m₀.task parent).bits
  pgdirAbove : 0xc0000 ≤ u
  pgdirBelow : u < 0xffc00
  bufAbove : 0xc0000 ≤ buf
  bufBelow : buf < 0xffc00

/-- The first page of the bitmap, and the page of its bit `k`. -/
def Machine.userPage (m : Machine) (t k : Nat) : Nat := (m.task t).vaddrStart / 4096 + k

/-- Between two bits of the loop, the first `n` done. -/
structure Copying (m : Machine) (n : Nat) : Prop where
  cr3 : m.cr3 = m₀.cr3
  task : m.task = m₁.task
  bitmaps : m.bitmaps = m₁.bitmaps
  grown : Grown p m₀ m
  child : Child p m₀ m c b
  pgdir : m.kernelEntry u = c * 4096 + 7
  buf : m.kernelEntry buf = b * 4096 + 7
  pages : ∀ v < 0xc0000, ∀ f, m.walkFrom c v = some f →
    (∃ k < n, m₀.bitmaps (m₀.task parent).bits k = true ∧ v = m₀.userPage parent k) ∧
      Page p m₀ m v f
  done : ∀ k < n, m₀.bitmaps (m₀.task parent).bits k = true →
    ∃ f, m.walkFrom c (m₀.userPage parent k) = some f

end Loop

section Step

variable {p : Pools} {m m' m₀ m₁ : Machine} {child parent c b u buf n : Nat}

theorem Child.congr (h : Child p m₀ m c b) (hram : m'.ram c = m.ram c)
    (htaken : ∀ f, Taken p m f → Taken p m' f) : Child p m₀ m' c b := by
  refine ⟨⟨?_, ?_⟩, h.dirInPool, h.dirFree, htaken _ h.dirTaken, h.bufInPool, h.bufFree,
    htaken _ h.bufTaken, h.bufNe, ?_, ?_⟩
  · rw [Machine.Window, hram]
    exact h.directory.window
  · rw [hram]
    exact h.directory.kernel
  · rw [hram]
    intro i hi hodd
    obtain ⟨hin, hfree, ht, hnc, hnb⟩ := h.tables i hi hodd
    exact ⟨hin, hfree, htaken _ ht, hnc, hnb⟩
  · rw [hram]
    exact h.apart

private theorem walk_setPage {g : Nat} (ws : Nat → Nat) (hc : g ≠ c)
    (htab : ∀ i < 768, m.ram c i % 2 = 1 → m.ram c i / 4096 ≠ g) {v : Nat} (hv : v < 0xc0000) :
    (m.setPage g ws).walkFrom c v = m.walkFrom c v := by
  refine walkFrom_congr (setPage_ram_of_ne (Ne.symm hc)) ?_
  intro hodd
  exact setPage_ram_of_ne (htab _ (by omega) hodd)

private theorem kernelEntry_congr {v : Nat} (hv : 0xc0000 ≤ v) (hv' : v < 0xffc00)
    (h : ∀ i, 768 ≤ i → i < 1023 → m'.ram (kernelTable i) = m.ram (kernelTable i)) :
    m'.kernelEntry v = m.kernelEntry v := by
  rw [Machine.kernelEntry, Machine.kernelEntry, h _ (by omega) (by omega)]

/-- The words of frame `s` in frame `d`. -/
def Machine.copyFrame (m : Machine) (d s : Nat) : Machine :=
  m.setPage d fun w => if w < 1024 then m.ram s w else m.ram d w

private theorem copyFrame_ram_of_ne {d s g : Nat} (h : g ≠ d) : (m.copyFrame d s).ram g = m.ram g :=
  setPage_ram_of_ne h

private theorem copyFrame_words {d s w : Nat} (hw : w < 1024) :
    (m.copyFrame d s).ram d w = m.ram s w := by
  rw [Machine.copyFrame, setPage_ram_self, if_pos hw]

/-- What the child gains with the page `v`: the frame `f`, with the words that were in `g`. -/
structure Gained (p : Pools) (m₀ m m' : Machine) (c b v f g : Nat) : Prop where
  child : Child p m₀ m' c b
  grown : Grown p m₀ m'
  task : m'.task = m.task
  bitmaps : m'.bitmaps = m.bitmaps
  taken : ∀ x, Taken p m x → Taken p m' x
  walk : ∀ x < 0xc0000, m'.walkFrom c x = if x = v then some f else m.walkFrom c x
  words : ∀ w < 1024, m'.ram f w = m.ram g w
  pages : ∀ x, InPool p true x → Taken p m x → m'.ram x = m.ram x
  kernel : ∀ i, 768 ≤ i → i < 1023 → m'.ram (kernelTable i) = m.ram (kernelTable i)
  inPool : InPool p true f
  free : ¬ Taken p m₀ f
  frameTaken : Taken p m' f

theorem Child.loaded {g i : Nat} {m₂ : Machine} (h : Child p m₀ m c b) (hg : Grown p m₀ m)
    (hm₂ : m₂ = ({ m.copyFrame b g with cr3 := c } : Machine).setPool true i true) :
    Child p m₀ m₂ c b ∧ Grown p m₀ m₂ := by
  subst hm₂
  constructor
  · exact h.congr (copyFrame_ram_of_ne (Ne.symm h.bufNe)) fun _ hx => Taken.setPool hx
  · have hcopy : Grown p m₀ (m.copyFrame b g) :=
      hg.setPage h.bufFree h.bufInPool.not_kernelTable _
    have hload : Grown p m₀ { m.copyFrame b g with cr3 := c } :=
      ⟨hcopy.taken, hcopy.ram, hcopy.mapped, hcopy.low⟩
    exact hload.setPool

private theorem Child.added_kernel {v f i : Nat} (h : Child p m₀ m c b) (hv : v < 0xc0000)
    (hadd : Added p m c (v * 4096) f m') (hi : 768 ≤ i) (hi' : i < 1023) :
    m'.ram (kernelTable i) = m.ram (kernelTable i) := by
  have hbounds := kernelTable_bounds hi hi'
  refine hadd.ram_eq hv ?_ (taken_kernelTable hi hi') ?_
  · intro heq
    exact h.dirInPool.not_kernelTable (heq ▸ hbounds)
  · intro k hk hodd heq
    exact (h.tables k hk hodd).1.not_kernelTable (heq ▸ hbounds)

private theorem gained {v g i : Nat} {m₂ m₄ : Machine} (h : Child p m₀ m c b) (hg : Grown p m₀ m)
    (hv : v < 0xc0000) (hi : i < p.len true) (hclear : m.pool true i = false)
    (hm₂ : m₂ = ({ m.copyFrame b g with cr3 := c } : Machine).setPool true i true)
    (hadd : Added p m₂ c (v * 4096) (p.start true + i) m₄)
    (hquiet : m₄.task = m₂.task ∧ m₄.bitmaps = m₂.bitmaps) :
    Gained p m₀ m (m₄.copyFrame (p.start true + i) b) c b v (p.start true + i) g := by
  set f := p.start true + i with hf
  have hin : InPool p true f := ⟨Nat.le_add_right _ _, by omega⟩
  have hnf : ¬ Taken p m f := not_taken hi hclear
  have htaken₂ : ∀ x, Taken p m x → Taken p m₂ x := by
    intro x hx
    rw [hm₂]
    exact Taken.setPool hx
  have hram₂ : m₂.ram = (m.copyFrame b g).ram := by
    rw [hm₂]
    rfl
  obtain ⟨hchild₂, hgrown₂⟩ := h.loaded hg hm₂
  have hchild₄ := hchild₂.added hv hgrown₂ hadd
  have hgrown₄ := hchild₂.added_grown hv hgrown₂ hadd
  have hfc : f ≠ c := hin.user_ne_kernel h.dirInPool
  have hfb : f ≠ b := hin.user_ne_kernel h.bufInPool
  have hftab : ∀ j < 768, m₄.ram c j % 2 = 1 → m₄.ram c j / 4096 ≠ f := by
    intro j hj hodd
    exact (hin.user_ne_kernel (hchild₄.tables j hj hodd).1).symm
  have htaken₅ : ∀ x, Taken p m x → Taken p (m₄.copyFrame f b) x :=
    fun x hx => hadd.taken (htaken₂ x hx)
  refine ⟨?_, ?_, ?_, ?_, htaken₅, ?_, ?_, ?_, ?_, hin, ?_, ?_⟩
  · exact hchild₄.congr (copyFrame_ram_of_ne (Ne.symm hfc)) fun _ hx => hx
  · exact hgrown₄.setPage (fun hx => hnf (hg.taken f hx)) hin.not_kernelTable _
  · change m₄.task = m.task
    rw [hquiet.1, hm₂]
    rfl
  · change m₄.bitmaps = m.bitmaps
    rw [hquiet.2, hm₂]
    rfl
  · intro x hx
    have hwalk₂ : m₂.walkFrom c x = m.walkFrom c x := by
      have hsame : m₂.walkFrom c x = (m.copyFrame b g).walkFrom c x := by
        rw [Machine.walkFrom, Machine.walkFrom, hram₂]
      rw [hsame]
      exact walk_setPage _ h.bufNe (fun j hj hodd => (h.tables j hj hodd).2.2.2.2) hx
    rw [Machine.copyFrame, walk_setPage _ hfc hftab hx, hchild₂.walk_added hv hadd hx, hwalk₂]
  · intro w hw
    rw [copyFrame_words hw,
      hadd.ram_eq hv h.bufNe (htaken₂ b h.bufTaken) fun j hj hodd => (hchild₂.tables j hj hodd).2.2.2.2,
      hram₂, copyFrame_words hw]
  · intro x hx hxt
    have hxf : x ≠ f := by
      rintro rfl
      exact hnf hxt
    rw [copyFrame_ram_of_ne hxf, hadd.ram_eq hv (hx.user_ne_kernel h.dirInPool) (htaken₂ x hxt),
      hram₂, copyFrame_ram_of_ne (hx.user_ne_kernel h.bufInPool)]
    intro j hj hodd
    exact (hx.user_ne_kernel (hchild₂.tables j hj hodd).1).symm
  · intro j hj hj'
    have hbounds := kernelTable_bounds hj hj'
    have hjf : kernelTable j ≠ f := fun heq => hin.not_kernelTable (heq ▸ hbounds)
    have hjb : kernelTable j ≠ b := fun heq => h.bufInPool.not_kernelTable (heq ▸ hbounds)
    rw [copyFrame_ram_of_ne hjf, hchild₂.added_kernel hv hadd hj hj', hram₂,
      copyFrame_ram_of_ne hjb]
  · intro hx
    exact hnf (hg.taken f hx)
  · refine hadd.taken ?_
    rw [hm₂]
    exact taken_setPool hi

/-- Loading a page directory changes nothing in memory. -/
theorem Gained.load {v f g x : Nat} (h : Gained p m₀ m m' c b v f g) :
    Gained p m₀ m { m' with cr3 := x } c b v f g :=
  ⟨h.child.congr rfl fun _ hx => hx, ⟨h.grown.taken, h.grown.ram, h.grown.mapped, h.grown.low⟩,
    h.task, h.bitmaps, h.taken, h.walk, h.words, h.pages, h.kernel, h.inPool, h.free, h.frameTaken⟩

theorem Added.quiet {v f : Nat} (hadd : Added p m c (v * 4096) f m') :
    m'.task = m.task ∧ m'.bitmaps = m.bitmaps ∧ m'.cr3 = m.cr3 := by
  cases hadd with
  | entry _ _ => exact ⟨rfl, rfl, rfl⟩
  | table _ _ _ => exact ⟨rfl, rfl, rfl⟩

/-- The five steps of the loop for the page `v`. -/
private theorem wp_copyPage {v : Nat} {Q : Unit → Machine → Prop}
    (hs : Setup p m₀ m₁ child parent u buf)
    (h : Copying p m₀ m₁ parent c b u buf m n) (hv : v < 0xc0000)
    (hQ : ∀ m' f g, Gained p m₀ m m' c b v f g → m.walkFrom m₀.cr3 v = some g →
      m'.cr3 = m₀.cr3 → Q () m') :
    wp (copyPage p child parent (buf * 4096) (v * 4096)) Any Q m := by
  have hP := hs.process
  have hdirP : m.Directory m.cr3 := by
    rw [h.cr3]
    exact hP.directory.grown h.grown hP.dirTaken hP.not_kernelTable
  rw [copyPage, wp_bind]
  apply wp_memcpy_page
  intro d g hd hg
  rw [walk_kernel hdirP hs.bufAbove hs.bufBelow h.buf] at hd
  cases hd
  rw [h.cr3] at hg
  -- the child's directory
  have hkernel : ∀ i, 768 ≤ i → i < 1023 →
      (m.copyFrame b g).ram (kernelTable i) = m.ram (kernelTable i) := by
    intro i hi hi'
    apply copyFrame_ram_of_ne
    intro heq
    exact h.child.bufInPool.not_kernelTable (heq ▸ kernelTable_bounds hi hi')
  have hdirP₁ : (m.copyFrame b g).Directory (m.copyFrame b g).cr3 := by
    have hgrown : Grown p m₀ (m.copyFrame b g) :=
      h.grown.setPage h.child.bufFree h.child.bufInPool.not_kernelTable _
    change (m.copyFrame b g).Directory m.cr3
    rw [h.cr3]
    exact hP.directory.grown hgrown hP.dirTaken hP.not_kernelTable
  rw [wp_bind]
  change wp (pageDirActivate child) Any _ (m.copyFrame b g)
  have hpgdir : ((m.copyFrame b g).task child).pgdir = u * 4096 := by
    change (m.task child).pgdir = _
    rw [h.task]
    exact hs.pgdir
  apply wp_pageDirActivate hdirP₁ hs.pgdirAbove hs.pgdirBelow hpgdir
    ((kernelEntry_congr hs.pgdirAbove hs.pgdirBelow hkernel).trans h.pgdir)
  rw [wp_bind, getAPageWithoutOpvaddrbitmap, wp_bind]
  apply wp_palloc
  intro i hi hclear
  set m₂ := ({ m.copyFrame b g with cr3 := c } : Machine).setPool true i true with hm₂
  have hdirC : m₂.Directory c := by
    have hram : m₂.ram c = m.ram c := copyFrame_ram_of_ne (Ne.symm h.child.bufNe)
    refine ⟨?_, ?_⟩
    · rw [Machine.Window, hram]
      exact h.child.directory.window
    · rw [hram]
      exact h.child.directory.kernel
  apply wp_pageTableAdd (m := m₂) hdirC.window (Taken.setPool h.child.dirTaken) (by omega) (by omega)
  intro m₄ hadd
  obtain ⟨htask, hbitmaps, hcr3⟩ := hadd.quiet
  have hgain := gained h.child h.grown hv hi hclear hm₂ hadd ⟨htask, hbitmaps⟩
  rw [wp_bind]
  apply wp_memcpy_page
  intro d s hd hsrc
  obtain ⟨hchild₂, hgrown₂⟩ := h.child.loaded h.grown hm₂
  have hdirC₄ : m₄.Directory c := (hchild₂.added hv hgrown₂ hadd).directory
  have hcr3₄ : m₄.cr3 = c := hcr3
  have hbuf₄ : m₄.kernelEntry buf = b * 4096 + 7 := by
    rw [kernelEntry_congr hs.bufAbove hs.bufBelow fun i hi hi' => hchild₂.added_kernel hv hadd hi hi']
    exact (kernelEntry_congr hs.bufAbove hs.bufBelow hkernel).trans h.buf
  rw [hcr3₄, hchild₂.walk_added hv hadd hv, if_pos rfl] at hd
  cases hd
  rw [hcr3₄, walk_kernel hdirC₄ hs.bufAbove hs.bufBelow hbuf₄] at hsrc
  cases hsrc
  -- back to the parent's directory
  change wp (pageDirActivate parent) Any Q (m₄.copyFrame (p.start true + i) b)
  obtain ⟨w, hw, hw', hpd, hentry⟩ := hP.pgdir
  have htask₅ : (m₄.copyFrame (p.start true + i) b).task parent = m₀.task parent := by
    rw [hgain.task, h.task]
    exact hs.task
  have hdir₅ : (m₄.copyFrame (p.start true + i) b).Directory
      (m₄.copyFrame (p.start true + i) b).cr3 := by
    change Machine.Directory _ m₄.cr3
    rw [hcr3₄]
    exact hgain.child.directory
  apply wp_pageDirActivate hdir₅ hw hw' (by rw [htask₅]; exact hpd)
    (hgain.grown.kernelEntry hw hw' hentry)
  refine hQ _ (p.start true + i) g ?_ hg rfl
  exact hgain.load

private theorem Copying.gain {f g : Nat} (hs : Setup p m₀ m₁ child parent u buf)
    (h : Copying p m₀ m₁ parent c b u buf m n) (hv : m₀.userPage parent n < 0xc0000)
    (hbit : m₀.bitmaps (m₀.task parent).bits n = true)
    (hgain : Gained p m₀ m m' c b (m₀.userPage parent n) f g)
    (hwalk : m.walkFrom m₀.cr3 (m₀.userPage parent n) = some g) (hcr3 : m'.cr3 = m₀.cr3) :
    Copying p m₀ m₁ parent c b u buf m' (n + 1) := by
  have hold : m₀.walkFrom m₀.cr3 (m₀.userPage parent n) = some g := by
    rw [← hwalk]
    exact (hs.process.walk_grown h.grown hv).symm
  refine ⟨hcr3, hgain.task.trans h.task, hgain.bitmaps.trans h.bitmaps, hgain.grown, hgain.child,
    ?_, ?_, ?_, ?_⟩
  · rw [kernelEntry_congr hs.pgdirAbove hs.pgdirBelow hgain.kernel]
    exact h.pgdir
  · rw [kernelEntry_congr hs.bufAbove hs.bufBelow hgain.kernel]
    exact h.buf
  · intro x hx f' hf'
    rw [hgain.walk x hx] at hf'
    split at hf'
    · rename_i heq
      cases hf'
      subst heq
      refine ⟨⟨n, by omega, hbit, rfl⟩, hgain.inPool, hgain.free, hgain.frameTaken, g, hold, ?_⟩
      intro w hw
      rw [hgain.words w hw, hs.process.ram_grown h.grown hx hold]
    · obtain ⟨⟨k, hk, hkbit, hkeq⟩, hpage⟩ := h.pages x hx f' hf'
      obtain ⟨g', hg', hwords⟩ := hpage.words
      refine ⟨⟨k, by omega, hkbit, hkeq⟩, hpage.inPool, hpage.free, hgain.taken f' hpage.taken, g',
        hg', ?_⟩
      intro w hw
      rw [hgain.pages f' hpage.inPool hpage.taken]
      exact hwords w hw
  · intro k hk hkbit
    rw [hgain.walk _ (by rw [Machine.userPage] at hv ⊢; omega)]
    by_cases hkn : k = n
    · subst hkn
      exact ⟨f, if_pos rfl⟩
    · have hne : m₀.userPage parent k ≠ m₀.userPage parent n := by
        rw [Machine.userPage, Machine.userPage]
        omega
      rw [if_neg hne]
      exact h.done k (by omega) hkbit

theorem Copying.skip (h : Copying p m₀ m₁ parent c b u buf m n)
    (hbit : m₀.bitmaps (m₀.task parent).bits n = false) :
    Copying p m₀ m₁ parent c b u buf m (n + 1) := by
  refine ⟨h.cr3, h.task, h.bitmaps, h.grown, h.child, h.pgdir, h.buf, ?_, ?_⟩
  · intro v hv f hf
    obtain ⟨⟨k, hk, hkbit, hkeq⟩, hpage⟩ := h.pages v hv f hf
    exact ⟨⟨k, by omega, hkbit, hkeq⟩, hpage⟩
  · intro k hk hkbit
    have hkn : k ≠ n := by
      rintro rfl
      rw [hbit] at hkbit
      cases hkbit
    exact h.done k (by omega) hkbit

theorem Copying.bit (hs : Setup p m₀ m₁ child parent u buf)
    (h : Copying p m₀ m₁ parent c b u buf m n) (k : Nat) :
    m.bitmaps (m₀.task parent).bits k = m₀.bitmaps (m₀.task parent).bits k := by
  rw [h.bitmaps, hs.bits]

private theorem wp_copyBits (hs : Setup p m₀ m₁ child parent u buf) (j : Nat) :
    ∀ {m : Machine} {i k : Nat}
    {Q : Unit → Machine → Prop}, Copying p m₀ m₁ parent c b u buf m (i * 8 + k) →
    m₀.userPage parent (i * 8 + k + j) ≤ 0xc0000 →
    (∀ m', Copying p m₀ m₁ parent c b u buf m' (i * 8 + k + j) → Q () m') →
    wp (copyBits p child parent (buf * 4096) (m₀.task parent).bits (m₀.task parent).vaddrStart i k j)
      Any Q m := by
  induction j with
  | zero =>
      intro m i k Q h _ hQ
      exact hQ m h
  | succ j ih =>
      intro m i k Q h hbelow hQ
      have haligned := hs.process.aligned
      have haddr : (i * 8 + k) * 4096 + (m₀.task parent).vaddrStart =
          m₀.userPage parent (i * 8 + k) * 4096 := by
        rw [Machine.userPage]
        omega
      have hlt : m₀.userPage parent (i * 8 + k) < 0xc0000 := by
        rw [Machine.userPage] at hbelow ⊢
        omega
      have hrest : ∀ m', Copying p m₀ m₁ parent c b u buf m' (i * 8 + k + 1) →
          wp (copyBits p child parent (buf * 4096) (m₀.task parent).bits
            (m₀.task parent).vaddrStart i (k + 1) j) Any Q m' := by
        intro m' h'
        refine ih (k := k + 1) h' ?_ ?_
        · rw [show i * 8 + (k + 1) + j = i * 8 + k + (j + 1) by omega]
          exact hbelow
        · intro m'' h''
          apply hQ
          rw [show i * 8 + k + (j + 1) = i * 8 + (k + 1) + j by omega]
          exact h''
      rw [copyBits, wp_bind, wp_get, h.bit hs, haddr]
      cases hbit : m₀.bitmaps (m₀.task parent).bits (i * 8 + k) with
      | false =>
          rw [if_neg (by simp)]
          exact hrest m (h.skip hbit)
      | true =>
          rw [if_pos rfl, wp_bind]
          apply wp_copyPage hs h hlt
          intro m' f g hgain hwalk hcr3
          exact hrest m' (h.gain hs hlt hbit hgain hwalk hcr3)

private theorem wp_copyBytes (hs : Setup p m₀ m₁ child parent u buf) (j : Nat) :
    ∀ {m : Machine} {i : Nat}
    {Q : Unit → Machine → Prop}, Copying p m₀ m₁ parent c b u buf m (i * 8) →
    m₀.userPage parent ((i + j) * 8) ≤ 0xc0000 →
    (∀ m', Copying p m₀ m₁ parent c b u buf m' ((i + j) * 8) → Q () m') →
    wp (copyBytes p child parent (buf * 4096) (m₀.task parent).bits (m₀.task parent).vaddrStart i j)
      Any Q m := by
  induction j with
  | zero =>
      intro m i Q h _ hQ
      exact hQ m h
  | succ j ih =>
      intro m i Q h hbelow hQ
      have hrest : ∀ m', Copying p m₀ m₁ parent c b u buf m' ((i + 1) * 8) →
          wp (copyBytes p child parent (buf * 4096) (m₀.task parent).bits
            (m₀.task parent).vaddrStart (i + 1) j) Any Q m' := by
        intro m' h'
        refine ih h' ?_ ?_
        · rw [show i + 1 + j = i + (j + 1) by omega]
          exact hbelow
        · intro m'' h''
          apply hQ
          rw [show i + (j + 1) = i + 1 + j by omega]
          exact h''
      rw [copyBytes, wp_bind, wp_get]
      split
      · rw [wp_bind]
        refine wp_copyBits hs 8 (k := 0) h ?_ ?_
        · rw [Machine.userPage] at hbelow ⊢
          omega
        · intro m' h'
          refine hrest m' ?_
          rw [show (i + 1) * 8 = i * 8 + 0 + 8 by omega]
          exact h'
      · -- a byte of zeroes: all its bits are clear
        rename_i hzero
        have hclear : ∀ k < 8, m₀.bitmaps (m₀.task parent).bits (i * 8 + k) = false := by
          intro k hk
          rw [← h.bit hs]
          by_contra hset
          apply hzero
          rw [List.any_eq_true]
          exact ⟨k, List.mem_range.mpr hk, by simpa using hset⟩
        have hskip : ∀ k ≤ 8, Copying p m₀ m₁ parent c b u buf m (i * 8 + k) := by
          intro k
          induction k with
          | zero =>
              intro _
              exact h
          | succ k ihk =>
              intro hk
              exact (ihk (by omega)).skip (hclear k (by omega))
        refine hrest m ?_
        rw [show (i + 1) * 8 = i * 8 + 8 by omega]
        exact hskip 8 le_rfl

end Step

section Start

variable {p : Pools} {m m₀ : Machine} {t : Nat}

theorem Grown.congr {m' : Machine} (h : Grown p m₀ m) (hram : m'.ram = m.ram)
    (hpool : m'.pool = m.pool) : Grown p m₀ m' := by
  obtain ⟨ram, cr3, pool, kernelBitmap, bitmaps, task⟩ := m'
  cases hram
  cases hpool
  exact ⟨h.taken, h.ram, h.mapped, h.low⟩

private theorem Process.wp_pages {n : Nat} {Q : Option Nat → Machine → Prop} (h : Process p m₀ t)
    (hg : Grown p m₀ m) (hcr3 : m.cr3 = m₀.cr3) (hnone : Q none m)
    (hQ : ∀ v m', 0xc0100 ≤ v → v + n ≤ 0xffc00 → Quiet m m' → Grown p m₀ m' → Grown p m m' →
      (∀ q < n, ∃ f, Fresh p m m' (v + q) f ∧ m'.ram f = fun _ => 0) → Q (some (v * 4096)) m') :
    wp (getKernelPages p n) Any Q m := by
  have hd : m.Directory m.cr3 := by
    rw [hcr3]
    exact h.directory.grown hg h.dirTaken h.not_kernelTable
  have ht : Taken p m m.cr3 := by
    rw [hcr3]
    exact hg.taken _ h.dirTaken
  apply wp_getKernelPages hd ht (by rw [hcr3]; exact h.not_kernelTable) hnone
  intro v m' hv hv' hq hg' hf
  exact hQ v m' hv hv' hq (hg.trans hg') hg' hf

end Start

section Finish

variable {p : Pools} {m m₀ : Machine} {t : Nat}

/-- The first entries are the parent's kernel half, the last names the new directory. -/
def newDirectory (m : Machine) (c : Nat) (i : Nat) : Nat :=
  if i = 1023 then c * 4096 + 7 else if 768 ≤ i ∧ i < 1024 then m.ram m.cr3 i else 0

private theorem Process.wp_createPageDir {Q : Option Nat → Machine → Prop} (h : Process p m₀ t)
    (hg : Grown p m₀ m) (hcr3 : m.cr3 = m₀.cr3) (hnone : Q none m)
    (hQ : ∀ v c m', 0xc0100 ≤ v → v < 0xffc00 → Quiet m m' → Grown p m m' →
      Fresh p m m' v c → m'.ram c = newDirectory m c → Q (some (v * 4096)) m') :
    wp (createPageDir p) Any Q m := by
  have hd : m.Directory m.cr3 := by
    rw [hcr3]
    exact h.directory.grown hg h.dirTaken h.not_kernelTable
  have ht : Taken p m m.cr3 := by
    rw [hcr3]
    exact hg.taken _ h.dirTaken
  have hk : ¬ (0x101 ≤ m.cr3 ∧ m.cr3 < 0x200) := by
    rw [hcr3]
    exact h.not_kernelTable
  rw [createPageDir, wp_bind]
  refine h.wp_pages hg hcr3 ?_ ?_
  · exact hnone
  intro v m₁ hv hv' hq₁ hg₁ hgm₁ hfresh
  obtain ⟨c, hc, hzero⟩ := hfresh 0 (by omega)
  rw [Nat.add_zero] at hc
  have hd₁ : m₁.Directory m.cr3 := hd.grown hgm₁ ht hk
  have hram₁ : m₁.ram m.cr3 = m.ram m.cr3 := hgm₁.ram _ ht hk
  -- the kernel half of the loaded directory
  dsimp only
  rw [wp_bind, memcpy, wp_bind]
  apply wp_translate
  intro d hdst
  rw [wp_bind]
  apply wp_translate
  intro s hsrc
  rw [show (v * 4096 + 0x300 * 4) / 4096 = v by omega, hq₁.cr3,
    walk_kernel hd₁ (by omega) (by omega) hc.entry] at hdst
  cases hdst
  have hwin := walk_pdePtr hd₁.window (show 0 < 2 ^ 32 by omega)
  rw [pdePtr_eq (by omega)] at hwin
  rw [hq₁.cr3] at hsrc
  change m₁.walkFrom m.cr3 0xfffff = some s at hsrc
  change m₁.walkFrom m.cr3 0xfffff = some m.cr3 at hwin
  rw [hwin] at hsrc
  cases hsrc
  rw [show (v * 4096 + 0x300 * 4) % 4096 / 4 = 768 by omega,
    show (0xfffff000 + 0x300 * 4) % 4096 / 4 = 768 by rfl, wp_modify]
  set m₂ := m₁.setPage c fun w =>
    if 768 ≤ w ∧ w < 768 + 256 then m₁.ram m.cr3 (768 + (w - 768)) else m₁.ram c w with hm₂
  have hwrote₂ : Wrote p m m₁ m₂ := wrote_setPage hc.free _
  have hd₂ : m₂.Directory m₂.cr3 := by
    rw [hwrote₂.quiet.cr3, hq₁.cr3]
    exact hwrote₂.directory ht hd₁
  have hc₂ := hwrote₂.fresh hc (by omega) (by omega)
  rw [wp_bind]
  apply wp_addrV2p hd₂ (by omega) (by omega) hc₂.entry
  rw [wp_bind]
  apply wp_store
  intro f hf
  rw [show (v * 4096 + 1023 * 4) / 4096 = v by omega,
    walk_kernel hd₂ (by omega) (by omega) hc₂.entry] at hf
  cases hf
  rw [show (v * 4096 + 1023 * 4) % 4096 / 4 = 1023 by omega, wp_pure]
  have hwrote₃ : Wrote p m m₂ (m₂.setWord c 1023 (c * 4096 + 7)) := wrote_setPage hc.free _
  have hwrote := hwrote₂.trans hwrote₃
  refine hQ v c _ hv (by omega) (hq₁.trans hwrote.quiet) (hwrote.grown hgm₁)
    (hwrote.fresh hc (by omega) (by omega)) ?_
  rw [setWord_ram_self, hm₂, setPage_ram_self]
  funext i
  rw [newDirectory, Function.update_apply, hram₁, hzero]
  split
  · rfl
  · split
    · rename_i hi
      rw [Nat.add_sub_cancel' hi.1]
    · rfl

/-- What `copy_pcb_vaddrbitmap_stack0` leaves: the child's copy of the task, with a bitmap of its
own. -/
structure PcbCopied (p : Pools) (m m' : Machine) (child parent : Nat) : Prop where
  cr3 : m'.cr3 = m.cr3
  grown : Grown p m m'
  parentTask : m'.task parent = m.task parent
  bytesLen : (m'.task child).btmpBytesLen = (m.task parent).btmpBytesLen
  vaddrStart : (m'.task child).vaddrStart = (m.task parent).vaddrStart
  childBits : m'.bitmaps (m'.task child).bits = m.bitmaps (m.task parent).bits
  parentBits : m'.bitmaps (m.task parent).bits = m.bitmaps (m.task parent).bits

private theorem Process.wp_copyPcb {child parent : Nat} {Q : Unit → Machine → Prop}
    (h : Process p m₀ parent) (hg : Grown p m₀ m) (hcr3 : m.cr3 = m₀.cr3)
    (htask : m.task parent = m₀.task parent) (hne : child ≠ parent)
    (hQ : ∀ m', PcbCopied p m m' child parent → Q () m') :
    wp (copyPcbVaddrbitmapStack0 p child parent) Any Q m := by
  set m₁ := m.setTask child (m.task parent) with hm₁
  have hg₁ : Grown p m₀ m₁ := hg.congr rfl rfl
  have hchild₁ : m₁.task child = m.task parent := Function.update_self ..
  have hparent₁ : m₁.task parent = m.task parent := Function.update_of_ne (Ne.symm hne) _ _
  rw [copyPcbVaddrbitmapStack0, wp_bind, wp_modify, wp_bind]
  refine h.wp_pages hg₁ hcr3 ?_ ?_
  · exact trivial
  intro v m₂ hv hv' hq₂ hg₂ hgm₂ hfresh
  obtain ⟨f, hf, -⟩ := hfresh 0 (by decide)
  rw [Nat.add_zero] at hf
  have hpages : bitmapPgCnt = 23 := by decide
  have hbits : (m.task parent).bits ≠ v * 4096 := by
    obtain ⟨u, hu, hu', hub, hmapped⟩ := h.bits
    have huv := h.fresh_ne hg₂ (hf.before hg₁) (by omega) (by omega) hmapped
    rw [htask, hub]
    omega
  dsimp only
  rw [wp_bind, wp_modify, wp_bind, wp_get]
  have hchild₂ : m₂.task child = m.task parent := by
    rw [hq₂.task, hchild₁]
  split
  · exact trivial
  · rw [wp_modify]
    apply hQ
    refine ⟨hq₂.cr3, ?_, ?_, ?_, ?_, ?_, ?_⟩
    · have hset : Grown p m (m.setTask child (m.task parent)) := (Grown.refl p m).congr rfl rfl
      exact (hset.trans hgm₂).congr rfl rfl
    · simp only [Machine.setTask, Function.update_of_ne (Ne.symm hne)]
      rw [hq₂.task, hparent₁]
    · simp only [Machine.setTask, Function.update_self]
      rw [hchild₂]
    · simp only [Machine.setTask, Function.update_self]
      rw [hchild₂]
    · simp only [Machine.setTask, Function.update_self]
      rw [hchild₂, hq₂.bitmaps]
      rfl
    · simp only [Machine.setTask]
      rw [Function.update_of_ne hbits, hq₂.bitmaps]
      rfl

end Finish

/-- What `copy_process` makes of the machine `m`, with the child's page directory in frame `c`. -/
structure Forked (m m' : Machine) (child parent c : Nat) : Prop where
  bytesLen : (m'.task child).btmpBytesLen = (m.task parent).btmpBytesLen
  vaddrStart : (m'.task child).vaddrStart = (m.task parent).vaddrStart
  /-- the two bitmaps agree, and the parent's is as it was -/
  childBits : m'.bitmaps (m'.task child).bits = m.bitmaps (m.task parent).bits
  parentTask : m'.task parent = m.task parent
  parentBits : m'.bitmaps (m.task parent).bits = m.bitmaps (m.task parent).bits
  /-- the child's `pgdir` is the frame `c` -/
  pgdir : ∃ u, 0xc0000 ≤ u ∧ u < 0xffc00 ∧ (m'.task child).pgdir = u * 4096 ∧
    m'.kernelEntry u = c * 4096 + 7
  directory : m'.Directory c
  /-- a set bit: the same words in a frame that the parent does not map -/
  copied : ∀ k < 8 * (m.task parent).btmpBytesLen, m.bitmaps (m.task parent).bits k = true →
    ∃ f g, m'.walkFrom c (m.userPage parent k) = some f ∧
      m.walkFrom m.cr3 (m.userPage parent k) = some g ∧ (∀ w < 1024, m'.ram f w = m.ram g w) ∧
      ∀ v < 0x100000, m'.walkFrom m.cr3 v ≠ some f
  /-- no set bit: not mapped -/
  unmapped : ∀ v < 0xc0000, (∀ k < 8 * (m.task parent).btmpBytesLen,
    m.bitmaps (m.task parent).bits k = true → v ≠ m.userPage parent k) → m'.walkFrom c v = none
  /-- the parent runs on, with the same pages and the same words in them -/
  cr3 : m'.cr3 = m.cr3
  walk : ∀ v < 0xc0000, m'.walkFrom m.cr3 v = m.walkFrom m.cr3 v
  words : ∀ v < 0xc0000, ∀ g, m.walkFrom m.cr3 v = some g → m'.ram g = m.ram g

section Whole

variable {p : Pools} {m m' m₀ m₁ : Machine} {child parent c b u buf n : Nat}

/-- Only frames of the kernel pool and below are named by the tables of the kernel half, by the
directory and by its tables. -/
theorem Process.walk_low {v f : Nat} (h : Process p m₀ parent) (hg : Grown p m₀ m)
    (hv : 0xc0000 ≤ v) (hv' : v < 0x100000) (hw : m.walkFrom m₀.cr3 v = some f) :
    f < p.start true := by
  have hram := hg.ram _ h.dirTaken h.not_kernelTable
  have hd := h.directory.grown hg h.dirTaken h.not_kernelTable
  have hstart : 0x200 + p.len false ≤ p.start true := p.kernelFits
  have hpool : ∀ x, InPool p false x → x < p.start true := by
    intro x hx
    have hlt := hx.2
    have hzero : p.start false = 0x200 := rfl
    omega
  by_cases hwin : v / 1024 = 1023
  · -- the window: the entries of the directory itself
    rw [Machine.walkFrom, hwin, hd.window, if_pos (entry_odd _), entry_frame] at hw
    dsimp only at hw
    split at hw
    · rename_i hodd
      cases hw
      by_cases huser : v % 1024 < 768
      · rw [hram] at hodd ⊢
        exact hpool _ (h.tables _ huser hodd).1
      · by_cases hlast : v % 1024 = 1023
        · rw [hlast, hd.window, entry_frame]
          exact hpool _ h.dirInPool
        · have hk := hd.kernel (v % 1024) (by omega) (by omega)
          have hb := kernelTable_bounds (show 768 ≤ v % 1024 by omega) (by omega)
          rw [hk, entry_frame]
          omega
    · cases hw
  · have hi : 768 ≤ v / 1024 := by omega
    have hi' : v / 1024 < 1023 := by omega
    rw [Machine.walkFrom, hd.kernel _ hi hi', if_pos (entry_odd _), entry_frame] at hw
    dsimp only at hw
    split at hw
    · rename_i hodd
      cases hw
      rcases hg.low _ hi hi' _ hodd with hold | hlow
      · rw [hg.mapped _ hi hi' _ hold]
        exact (h.kernelPages _ hi hi' _ hold).1
      · exact hlow
    · cases hw

private theorem Copying.wp_mfreePage {Q : Unit → Machine → Prop}
    (hs : Setup p m₀ m₁ child parent u buf)
    (h : Copying p m₀ m₁ parent c b u buf m n)
    (hQ : ∀ m', m'.cr3 = m.cr3 → m'.task = m.task → m'.bitmaps = m.bitmaps →
      (∀ f, ¬ (0x101 ≤ f ∧ f < 0x200) → m'.ram f = m.ram f) →
      (∀ v, 0xc0000 ≤ v → v < 0xffc00 → v ≠ buf → m'.kernelEntry v = m.kernelEntry v) →
      (∀ i, 768 ≤ i → i < 1023 → ∀ w, m'.ram (kernelTable i) w % 2 = 1 →
        m'.ram (kernelTable i) w = m.ram (kernelTable i) w) → Q () m') :
    wp (mfreePage p (buf * 4096)) Any Q m := by
  have hP := hs.process
  have hd : m.Directory m.cr3 := by
    rw [h.cr3]
    exact hP.directory.grown h.grown hP.dirTaken hP.not_kernelTable
  have hdir : buf * 4096 / 2 ^ 22 = buf / 1024 := by
    have := hs.bufBelow
    omega
  have htab : buf * 4096 / 4096 % 1024 = buf % 1024 := by omega
  have hi : 768 ≤ buf / 1024 := by
    have := hs.bufAbove
    omega
  have hi' : buf / 1024 < 1023 := by
    have := hs.bufBelow
    omega
  have hpde := hd.kernel _ hi hi'
  rw [mfreePage, if_neg (by omega), wp_bind]
  apply wp_addrV2p hd hs.bufAbove hs.bufBelow h.buf
  have hb := h.child.bufInPool
  have hlow : 0x200 ≤ b := hb.1
  have hhigh : b < p.start true := by
    have hlt := hb.2
    have hfits : 0x200 + p.len false ≤ p.start true := p.kernelFits
    have hzero : p.start false = 0x200 := rfl
    omega
  have hstart : p.start false * 4096 ≤ b * 4096 := Nat.mul_le_mul_right _ hlow
  rw [if_neg (by omega), if_pos (by omega), if_neg (by omega), wp_bind, pfree, wp_modify, wp_bind,
    pteRemove]
  apply wp_store_pte
  · exact hd.window
  · have := hs.bufBelow
    omega
  intro _
  rw [wp_modify]
  set m₂ := m.setPool (decide (p.start true * 4096 ≤ b * 4096)) _ false with hm₂
  have hframe : m₂.ram m₂.cr3 (buf * 4096 / 2 ^ 22) / 4096 = kernelTable (buf / 1024) := by
    change m.ram m.cr3 _ / 4096 = _
    rw [hdir, hpde, entry_frame]
  rw [hframe, htab]
  have hbounds := kernelTable_bounds hi hi'
  have hram : ∀ f, f ≠ kernelTable (buf / 1024) →
      (m₂.setWord (kernelTable (buf / 1024)) (buf % 1024) 0).ram f = m.ram f :=
    fun f hf => setWord_ram_of_ne hf
  have hself : (m₂.setWord (kernelTable (buf / 1024)) (buf % 1024) 0).ram
      (kernelTable (buf / 1024)) = Function.update (m.ram (kernelTable (buf / 1024))) (buf % 1024) 0 :=
    setWord_ram_self
  refine hQ _ rfl rfl rfl ?_ ?_ ?_
  · intro f hf
    apply hram
    rintro rfl
    exact hf hbounds
  · intro v hv hv' hne
    change (m₂.setWord _ _ 0).ram (kernelTable (v / 1024)) (v % 1024) = _
    by_cases hsame : kernelTable (v / 1024) = kernelTable (buf / 1024)
    · have hdirs : v / 1024 = buf / 1024 := by
        unfold kernelTable at hsame
        omega
      have hwords : v % 1024 ≠ buf % 1024 := by omega
      rw [hsame, hself, Function.update_of_ne hwords, ← hsame]
      rfl
    · rw [hram _ hsame]
      rfl
  · intro i hj hj' w hw
    change (m₂.setWord _ _ 0).ram (kernelTable i) w % 2 = 1 at hw
    change (m₂.setWord _ _ 0).ram (kernelTable i) w = _
    by_cases hsame : kernelTable i = kernelTable (buf / 1024)
    · rw [hsame, hself] at hw ⊢
      by_cases hword : w = buf % 1024
      · rw [hword, Function.update_self] at hw
        cases hw
      · rw [Function.update_of_ne hword]
    · rw [hram _ hsame]

private theorem Process.child_start {v : Nat} (h : Process p m₀ parent) (hg : Grown p m₀ m)
    (hcr3 : m.cr3 = m₀.cr3) (hgm : Grown p m m') (hc : Fresh p m m' v c)
    (hram : m'.ram c = newDirectory m c) (hb : InPool p false b) (hbfree : ¬ Taken p m₀ b)
    (hbtaken : Taken p m b) :
    Child p m₀ m' c b ∧ ∀ v < 0xc0000, m'.walkFrom c v = none := by
  have hd : m.Directory m.cr3 := by
    rw [hcr3]
    exact h.directory.grown hg h.dirTaken h.not_kernelTable
  have huser : ∀ i < 768, m'.ram c i = 0 := by
    intro i hi
    rw [hram, newDirectory, if_neg (by omega), if_neg (by omega)]
  refine ⟨⟨⟨?_, ?_⟩, hc.inPool, fun ht => hc.free (hg.taken c ht), hc.taken, hb, hbfree,
    hgm.taken b hbtaken, ?_, ?_, ?_⟩, ?_⟩
  · rw [Machine.Window, hram, newDirectory, if_pos rfl]
  · intro i hi hi'
    rw [hram, newDirectory, if_neg (by omega), if_pos (by omega)]
    exact hd.kernel i hi hi'
  · rintro rfl
    exact hc.free hbtaken
  · intro i hi hodd
    rw [huser i hi] at hodd
    cases hodd
  · intro i hi j _ hodd
    rw [huser i hi] at hodd
    cases hodd
  · intro v hv
    rw [Machine.walkFrom, huser _ (by omega), if_neg (by decide)]

theorem Copying.forked (hs : Setup p m₀ m₁ child parent u buf)
    (h : Copying p m₀ m₁ parent c b u buf m (8 * (m₀.task parent).btmpBytesLen))
    (hpcb : PcbCopied p m₀ m₁ child parent) (hub : u ≠ buf) (hcr3 : m'.cr3 = m.cr3)
    (htask : m'.task = m.task) (hbitmaps : m'.bitmaps = m.bitmaps)
    (hram : ∀ f, ¬ (0x101 ≤ f ∧ f < 0x200) → m'.ram f = m.ram f)
    (hentry : ∀ v, 0xc0000 ≤ v → v < 0xffc00 → v ≠ buf → m'.kernelEntry v = m.kernelEntry v)
    (hkernel : ∀ i, 768 ≤ i → i < 1023 → ∀ w, m'.ram (kernelTable i) w % 2 = 1 →
        m'.ram (kernelTable i) w = m.ram (kernelTable i) w) :
    Forked m₀ m' child parent c := by
  have hP := hs.process
  have hramC : m'.ram c = m.ram c := hram c h.child.dirInPool.not_kernelTable
  have hwalkC : ∀ v < 0xc0000, m'.walkFrom c v = m.walkFrom c v := by
    intro v hv
    refine walkFrom_congr hramC ?_
    intro hodd
    exact hram _ (h.child.tables _ (by omega) hodd).1.not_kernelTable
  have hramP : m'.ram m₀.cr3 = m.ram m₀.cr3 := hram _ hP.not_kernelTable
  have hdirP : m.ram m₀.cr3 = m₀.ram m₀.cr3 := h.grown.ram _ hP.dirTaken hP.not_kernelTable
  have hwalkP : ∀ v < 0xc0000, m'.walkFrom m₀.cr3 v = m₀.walkFrom m₀.cr3 v := by
    intro v hv
    rw [← hP.walk_grown h.grown hv]
    refine walkFrom_congr hramP ?_
    intro hodd
    rw [hdirP] at hodd ⊢
    exact hram _ (hP.tables _ (by omega) hodd).1.not_kernelTable
  refine ⟨?_, ?_, ?_, ?_, ?_, ?_, ?_, ?_, ?_, hcr3.trans h.cr3, hwalkP, ?_⟩
  · rw [htask, h.task, hpcb.bytesLen]
  · rw [htask, h.task, hpcb.vaddrStart]
  · rw [htask, hbitmaps, h.task, h.bitmaps, hpcb.childBits]
  · rw [htask, h.task, hpcb.parentTask]
  · rw [hbitmaps, h.bitmaps, hpcb.parentBits]
  · refine ⟨u, hs.pgdirAbove, hs.pgdirBelow, ?_, ?_⟩
    · rw [htask, h.task, hs.pgdir]
    · rw [hentry u hs.pgdirAbove hs.pgdirBelow hub, h.pgdir]
  · refine ⟨?_, ?_⟩
    · rw [Machine.Window, hramC]
      exact h.child.directory.window
    · rw [hramC]
      exact h.child.directory.kernel
  · intro k hk hbit
    have hbelow := hP.below
    have hv : m₀.userPage parent k < 0xc0000 := by
      rw [Machine.userPage]
      omega
    obtain ⟨f, hf⟩ := h.done k hk hbit
    obtain ⟨-, hpage⟩ := h.pages _ hv f hf
    obtain ⟨g, hg, hwords⟩ := hpage.words
    refine ⟨f, g, by rw [hwalkC _ hv]; exact hf, hg, ?_, ?_⟩
    · intro w hw
      rw [hram f hpage.inPool.not_kernelTable]
      exact hwords w hw
    · intro v hv' hsome
      by_cases huser : v < 0xc0000
      · rw [hwalkP v huser] at hsome
        exact hpage.free (hP.pages v huser f hsome).2
      · -- a kernel page: below the user pool
        have hmold : m.walkFrom m₀.cr3 v = some f := by
          rw [Machine.walkFrom, hramP] at hsome
          rw [Machine.walkFrom]
          have hd := hP.directory.grown h.grown hP.dirTaken hP.not_kernelTable
          by_cases hwin : v / 1024 = 1023
          · rw [hwin, hd.window, if_pos (entry_odd _), entry_frame] at hsome ⊢
            rw [hramP] at hsome
            exact hsome
          · have hi : 768 ≤ v / 1024 := by omega
            have hi' : v / 1024 < 1023 := by omega
            rw [hd.kernel _ hi hi', if_pos (entry_odd _), entry_frame] at hsome ⊢
            dsimp only at hsome ⊢
            split at hsome
            · rename_i hodd
              have hsame := hkernel _ hi hi' _ hodd
              rw [hsame] at hodd hsome
              rw [if_pos hodd]
              exact hsome
            · cases hsome
        have hlow := hP.walk_low h.grown (by omega) hv' hmold
        have := hpage.inPool.1
        omega
  · intro v hv hnone
    rw [hwalkC v hv]
    cases hw : m.walkFrom c v with
    | none => rfl
    | some f =>
        obtain ⟨⟨k, hk, hbit, heq⟩, -⟩ := h.pages v hv f hw
        exact absurd heq (hnone k hk hbit)
  · intro v hv g hg
    rw [hram g (hP.pages v hv g hg).1.not_kernelTable]
    exact hP.ram_grown h.grown hv hg

private theorem Process.wp_copyProcess (h : Process p m₀ parent) (hne : child ≠ parent) :
    wp (copyProcess p child parent) Any
      (fun r m' => r = 0 → ∃ c, Forked m₀ m' child parent c) m₀ := by
  rw [copyProcess, wp_bind]
  refine h.wp_pages (.refl p m₀) rfl ?_ ?_
  · intro hr
    cases hr
  intro buf ma hbuf hbuf' hqa hga _ hfresh
  obtain ⟨b, hb, -⟩ := hfresh 0 (by omega)
  rw [Nat.add_zero] at hb
  dsimp only
  rw [wp_bind]
  apply h.wp_copyPcb hga hqa.cr3 (by rw [hqa.task]) hne
  intro mb hpcb
  have hgb : Grown p m₀ mb := hga.trans hpcb.grown
  have hcr3b : mb.cr3 = m₀.cr3 := hpcb.cr3.trans hqa.cr3
  have hbb := hb.grown hpcb.grown (by omega) (by omega)
  rw [wp_bind]
  refine h.wp_createPageDir hgb hcr3b ?_ ?_
  · dsimp only
    rw [wp_bind, wp_modify]
    intro hr
    cases hr
  intro u c mc hu hu' hqc hgc hc hram
  obtain ⟨hchild, hnone⟩ := h.child_start hgb hcr3b hgc hc hram hb.inPool hb.free hbb.taken
  dsimp only
  rw [wp_bind, wp_modify, wp_bind, copyBodyStack3, wp_bind, wp_get]
  set m₁ := mc.setTask child { mc.task child with pgdir := u * 4096 } with hm₁
  have hchild₁ : m₁.task child = { mc.task child with pgdir := u * 4096 } := Function.update_self ..
  have hparent₁ : m₁.task parent = m₀.task parent := by
    have hkeep : m₁.task parent = mc.task parent := Function.update_of_ne (Ne.symm hne) _ _
    rw [hkeep, hqc.task, hpcb.parentTask, hqa.task]
  have hpcb₁ : PcbCopied p m₀ m₁ child parent := by
    refine ⟨hqc.cr3.trans hcr3b, (hgb.trans hgc).congr rfl rfl, hparent₁, ?_, ?_, ?_, ?_⟩
    · rw [hchild₁, hqc.task, hpcb.bytesLen, hqa.task]
    · rw [hchild₁, hqc.task, hpcb.vaddrStart, hqa.task]
    · rw [hchild₁, hqc.task]
      change mc.bitmaps _ = _
      rw [hqc.bitmaps, hpcb.childBits, hqa.task, hqa.bitmaps]
    · change mc.bitmaps _ = _
      have hkept := hpcb.parentBits
      rw [hqa.task, hqa.bitmaps] at hkept
      rw [hqc.bitmaps, hkept]
  have hs : Setup p m₀ m₁ child parent u buf :=
    ⟨h, hparent₁, by rw [hchild₁], hpcb₁.parentBits, by omega, by omega, by omega, by omega⟩
  have hentryb : mc.kernelEntry buf = b * 4096 + 7 :=
    hgc.kernelEntry (by omega) (by omega) hbb.entry
  have hstart : Copying p m₀ m₁ parent c b u buf m₁ (0 * 8) := by
    refine ⟨hpcb₁.cr3, rfl, rfl, hpcb₁.grown, hchild.congr rfl fun _ hx => hx, hc.entry, hentryb,
      ?_, ?_⟩
    · intro v hv f hf
      have hnone' : m₁.walkFrom c v = none := hnone v hv
      rw [hnone'] at hf
      cases hf
    · intro k hk
      omega
  have hub : u ≠ buf := by
    rintro rfl
    have hframe : c * 4096 + 7 = b * 4096 + 7 := hc.entry.symm.trans hentryb
    have hcb : c = b := by omega
    exact hchild.bufNe hcb.symm
  rw [hparent₁]
  refine wp_copyBytes hs _ hstart ?_ ?_
  · have hbelow := h.below
    rw [Machine.userPage]
    omega
  intro md hd
  rw [Nat.zero_add, Nat.mul_comm] at hd
  rw [wp_bind]
  apply hd.wp_mfreePage hs
  intro me hcr3 htask hbitmaps hram' hentry hkernel _
  exact ⟨c, hd.forked hs hpcb₁ hub hcr3 htask hbitmaps hram' hentry hkernel⟩

end Whole

/-- After `copy_process` returns 0 the child has the parent's bitmap and, for every set bit, the
page with the same words in a frame of its own; nothing else is mapped for it, and the parent's
memory is what it was. -/
theorem fork_copies_pages {p : Pools} {m m' : Machine} {child parent : Nat}
    (hP : Process p m parent) (hne : child ≠ parent)
    (h : copyProcess p child parent m = .ok (0, m')) : ∃ c, Forked m m' child parent c :=
  wp_ok (hP.wp_copyProcess hne) h rfl

/-- A process with one page, at its first address. -/
def onePage : Machine where
  ram f w :=
    if f = 0x200 then
      if w = 1023 then 0x200 * 4096 + 7
      else if 768 ≤ w ∧ w < 1023 then kernelTable w * 4096 + 7
      else if w = 32 then 0x201 * 4096 + 7 else 0
    else if f = 0x201 then if w = 72 then 0x300 * 4096 + 7 else 0
    else if f = 0x101 then
      if w = 256 then 0x200 * 4096 + 7 else if w = 257 then 0x202 * 4096 + 7 else 0
    else if f = 0x300 then w else 0
  cr3 := 0x200
  pool user i := if user then i = 0 else i < 3
  kernelBitmap i := i < 2
  bitmaps _ i := i = 0
  task _ := ⟨4, 0xc0100000, 0xc0101000, 1, 0x8048000⟩

instance (p : Pools) (user : Bool) (f : Nat) : Decidable (InPool p user f) :=
  inferInstanceAs (Decidable (_ ∧ _))

def smallPools : Pools := ⟨fun user => if user then 4 else 40, 0x300, by decide, by decide⟩

private theorem onePage_taken {f : Nat} (hf : f ∈ [0x200, 0x201, 0x202, 0x300]) :
    Taken smallPools onePage f := by
  intro user i hi heq
  simp only [List.mem_cons, List.not_mem_nil, or_false] at hf
  cases user with
  | false =>
      have hstart : smallPools.start false = 0x200 := rfl
      have hlen : smallPools.len false = 40 := rfl
      simp only [onePage, Bool.false_eq_true, if_false, decide_eq_true_eq]
      omega
  | true =>
      have hstart : smallPools.start true = 0x300 := rfl
      simp only [onePage, if_true, decide_eq_true_eq]
      omega

private theorem onePage_process : Process smallPools onePage 1 where
  directory := by
    refine ⟨rfl, ?_⟩
    intro i hi hi'
    change (if i = 1023 then _ else if 768 ≤ i ∧ i < 1023 then _ else _) = _
    rw [if_neg (by omega), if_pos ⟨hi, hi'⟩]
  dirInPool := by decide
  dirTaken := onePage_taken (by decide)
  tables := by
    intro i hi hodd
    have hentry : onePage.ram onePage.cr3 i = if i = 32 then 0x201 * 4096 + 7 else 0 := by
      change (if i = 1023 then _ else if 768 ≤ i ∧ i < 1023 then _ else _) = _
      rw [if_neg (by omega), if_neg (by omega)]
    rw [hentry] at hodd ⊢
    split at hodd
    · rename_i heq
      rw [if_pos heq]
      exact ⟨by decide, onePage_taken (by decide)⟩
    · cases hodd
  pages := by
    intro v hv f hf
    have hentry : onePage.ram onePage.cr3 (v / 1024) =
        if v / 1024 = 32 then 0x201 * 4096 + 7 else 0 := by
      change (if v / 1024 = 1023 then _ else if 768 ≤ v / 1024 ∧ v / 1024 < 1023 then _ else _) = _
      rw [if_neg (by omega), if_neg (by omega)]
    rw [Machine.walkFrom, hentry] at hf
    by_cases hdir : v / 1024 = 32
    · have hpte : onePage.ram 0x201 (v % 1024) = if v % 1024 = 72 then 0x300 * 4096 + 7 else 0 := rfl
      rw [if_pos hdir, if_pos (entry_odd _), entry_frame] at hf
      dsimp only at hf
      by_cases hword : v % 1024 = 72
      · rw [if_pos hword] at hpte
        rw [hpte, if_pos (entry_odd _), entry_frame] at hf
        cases hf
        exact ⟨by decide, onePage_taken (by decide)⟩
      · rw [if_neg hword] at hpte
        rw [hpte] at hf
        cases hf
    · rw [if_neg hdir] at hf
      cases hf
  kernelPages := by
    intro i hi hi' w hodd
    have hbounds := kernelTable_bounds hi hi'
    have hentry : onePage.ram (kernelTable i) w = if kernelTable i = 0x101 then
        if w = 256 then 0x200 * 4096 + 7 else if w = 257 then 0x202 * 4096 + 7 else 0 else 0 := by
      simp only [onePage]
      rw [if_neg (by omega), if_neg (by omega), if_neg (show kernelTable i ≠ 0x300 by omega)]
    rw [hentry] at hodd ⊢
    split at hodd
    · rename_i htable
      rw [if_pos htable]
      split at hodd
      · rename_i hword
        rw [if_pos hword]
        exact ⟨by decide, onePage_taken (by decide)⟩
      · rename_i hword
        rw [if_neg hword]
        split at hodd
        · rename_i hword'
          rw [if_pos hword']
          exact ⟨by decide, onePage_taken (by decide)⟩
        · cases hodd
    · cases hodd
  pgdir := ⟨0xc0100, by decide, by decide, rfl, by decide +kernel⟩
  bits := ⟨0xc0101, by decide, by decide, rfl, by decide +kernel⟩
  aligned := by decide
  below := by decide

theorem fork_copies_pages_one : ∃ m' c, copyProcess smallPools 2 1 onePage = .ok (0, m') ∧
    Forked onePage m' 2 1 c := by
  have hrun : (copyProcess smallPools 2 1 onePage).toOption.map (fun out => out.1) = some 0 := by
    decide +kernel
  obtain ⟨⟨r, m'⟩, hout, hr⟩ := Option.map_eq_some_iff.mp hrun
  change r = 0 at hr
  subst hr
  have hok : copyProcess smallPools 2 1 onePage = .ok (0, m') := by
    cases h : copyProcess smallPools 2 1 onePage with
    | error e =>
        rw [h] at hout
        cases hout
    | ok out =>
        rw [h] at hout
        cases hout
        rfl
  obtain ⟨c, hc⟩ := fork_copies_pages onePage_process (by decide) hok
  exact ⟨m', c, hok, hc⟩

end Aitos.Proc.Fork
