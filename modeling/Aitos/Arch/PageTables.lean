import Aitos.Framework.Bytes

/-!
# The boot page tables

The loader builds five tables at `PAGE_TABLE_BASE` with counted string stores and 32-bit moves,
before it enters long mode.  The processor's four-level walk is stated as it is documented, with
its reserved bits; what it reads on the way is kept beside the result.

`rep stosd` with a count of 512 clears half a table, so the upper entries of every table are what
memory held before.
-/

namespace Aitos.Arch

open Framework

def kernelBinBaseAddr : Nat := 0x70000

def kernelVma : Nat := 0xffffffff80000000

def pageTableBase : Nat := 0x90000

def pagePresent : UInt32 := 0x1

def pageWrite : UInt32 := 0x2

def pageSize2M : UInt32 := 0x80

/-! ### The loader -/

def movDword (a : Nat) (v : UInt32) (m : Bytes) : Bytes := m.blit a 4 (Bytes.ofWord v)

/-- `rep stosd` with `ecx = n`. -/
def repStosd : Nat → Nat → UInt32 → Bytes → Bytes
  | 0, _, _, m => m
  | n + 1, edi, eax, m => repStosd n (edi + 4) eax (movDword edi eax m)

/-- The stores of `pm_start` between the stack setup and the switch to PAE. -/
def pageTableSetup (m : Bytes) : Bytes :=
  let m := repStosd 512 pageTableBase 0 m
  let m := repStosd 512 (pageTableBase + 0x1000) 0 m
  let m := repStosd 512 (pageTableBase + 0x2000) 0 m
  let m := repStosd 512 (pageTableBase + 0x3000) 0 m
  let m := repStosd 512 (pageTableBase + 0x4000) 0 m
  let m := movDword pageTableBase
    (UInt32.ofNat (pageTableBase + 0x1000) ||| (pagePresent ||| pageWrite)) m
  let m := movDword (pageTableBase + 0x1000)
    (UInt32.ofNat (pageTableBase + 0x2000) ||| (pagePresent ||| pageWrite)) m
  let m := movDword (pageTableBase + 0x2000) (pagePresent ||| pageWrite ||| pageSize2M) m
  let m := movDword (pageTableBase + 511 * 8)
    (UInt32.ofNat (pageTableBase + 0x3000) ||| (pagePresent ||| pageWrite)) m
  let m := movDword (pageTableBase + 0x3000 + 510 * 8)
    (UInt32.ofNat (pageTableBase + 0x4000) ||| (pagePresent ||| pageWrite)) m
  movDword (pageTableBase + 0x4000)
    (UInt32.ofNat kernelBinBaseAddr ||| (pagePresent ||| pageWrite ||| pageSize2M)) m

/-! ### The walk -/

/-- What a long-mode processor may choose: the width of physical addresses, whether bit 63 of an
entry is defined, and whether 1 GiB pages exist. -/
structure Paging where
  maxPhyAddr : Nat
  nxe : Bool
  gbPages : Bool
  addr_ge : 32 ≤ maxPhyAddr
  addr_le : maxPhyAddr ≤ 52

def entry (m : Bytes) (table i : Nat) : Nat :=
  (m.word (table + 8 * i)).toNat + 2 ^ 32 * (m.word (table + 8 * i + 4)).toNat

namespace Paging

variable (c : Paging)

/-- A present entry whose bits above the physical address width are zero. -/
def usable (e : Nat) : Bool :=
  e % 2 = 1 && e / 2 ^ c.maxPhyAddr % 2 ^ (52 - c.maxPhyAddr) = 0 && (c.nxe || e / 2 ^ 63 = 0)

/-- Bits 51 to 12. -/
def frame (e : Nat) : Nat := e / 2 ^ 12 % 2 ^ 40 * 2 ^ 12

def isLarge (e : Nat) : Bool := e / 2 ^ 7 % 2 = 1

/-- A page that a PDPT entry maps: bits 29 to 13 are reserved. -/
def largePage1G (e va : Nat) : Option Nat :=
  if c.gbPages ∧ e / 2 ^ 13 % 2 ^ 17 = 0 then some (e / 2 ^ 30 % 2 ^ 22 * 2 ^ 30 + va % 2 ^ 30)
  else none

/-- A page that a PD entry maps: bits 20 to 13 are reserved. -/
def largePage2M (e va : Nat) : Option Nat :=
  if e / 2 ^ 13 % 2 ^ 8 = 0 then some (e / 2 ^ 21 % 2 ^ 31 * 2 ^ 21 + va % 2 ^ 21) else none

def walkPt (m : Bytes) (table va : Nat) : List Nat × Option Nat :=
  let e := entry m table (va / 2 ^ 12 % 512)
  ([e], if c.usable e then some (frame e + va % 2 ^ 12) else none)

def walkPd (m : Bytes) (table va : Nat) : List Nat × Option Nat :=
  let e := entry m table (va / 2 ^ 21 % 512)
  if c.usable e = false then ([e], none)
  else if isLarge e then ([e], largePage2M e va)
  else (e :: (c.walkPt m (frame e) va).1, (c.walkPt m (frame e) va).2)

def walkPdpt (m : Bytes) (table va : Nat) : List Nat × Option Nat :=
  let e := entry m table (va / 2 ^ 30 % 512)
  if c.usable e = false then ([e], none)
  else if isLarge e then ([e], c.largePage1G e va)
  else (e :: (c.walkPd m (frame e) va).1, (c.walkPd m (frame e) va).2)

/-- The walk from the PML4 at `cr3`: the entries it reads, and the physical address if it finds
one.  Bit 7 of a PML4 entry is reserved. -/
def walk (m : Bytes) (cr3 va : Nat) : List Nat × Option Nat :=
  let e := entry m cr3 (va / 2 ^ 39 % 512)
  if c.usable e = false ∨ isLarge e then ([e], none)
  else (e :: (c.walkPdpt m (frame e) va).1, (c.walkPdpt m (frame e) va).2)

end Paging

/-- Bits 63 to 47 are equal. -/
def Canonical (va : Nat) : Prop := va < 2 ^ 47 ∨ 2 ^ 64 - 2 ^ 47 ≤ va ∧ va < 2 ^ 64

/-- The intended effect of the setup on a machine whose memory held `m`: the first 2 MiB at their
own address, the kernel's 2 MiB at its link address, no other translation, and no entry read that
is not the loader's. -/
structure MapsKernel (c : Paging) (m : Bytes) : Prop where
  identity : ∀ a < 2 ^ 21, (c.walk (pageTableSetup m) pageTableBase a).2 = some a
  kernel : ∀ off < 2 ^ 21,
    (c.walk (pageTableSetup m) pageTableBase (kernelVma + off)).2 = some (kernelBinBaseAddr + off)
  nothingElse : ∀ va, Canonical va → ¬ va < 2 ^ 21 →
    ¬ (kernelVma ≤ va ∧ va < kernelVma + 2 ^ 21) →
    (c.walk (pageTableSetup m) pageTableBase va).2 = none
  independent : ∀ m' va, Canonical va →
    (c.walk (pageTableSetup m) pageTableBase va).1 =
      (c.walk (pageTableSetup m') pageTableBase va).1

/-! ### What the setup leaves in memory -/

section Words

variable (m : Bytes)

theorem word_movDword (j k : Nat) (v : UInt32) :
    (movDword (4 * j) v m).word (4 * k) = if k = j then v else m.word (4 * k) := by
  by_cases h : k = j
  · subst h
    rw [if_pos rfl, ← Bytes.word_ofWord v]
    apply Bytes.word_congr
    intro i hi
    rw [movDword, Bytes.blit_add _ _ _ _ hi, Nat.zero_add, Bytes.word_ofWord]
  · rw [if_neg h]
    apply Bytes.word_congr
    intro i hi
    exact Bytes.blit_of_outside _ _ _ _ (by omega)

private theorem word_repStosd (n j k : Nat) (v : UInt32) :
    (repStosd n (4 * j) v m).word (4 * k) =
      if j ≤ k ∧ k < j + n then v else m.word (4 * k) := by
  induction n generalizing m j with
  | zero => rw [if_neg (by omega), repStosd]
  | succ n ih =>
      rw [repStosd, show 4 * j + 4 = 4 * (j + 1) by omega, ih, word_movDword]
      by_cases h : j ≤ k ∧ k < j + (n + 1)
      · rw [if_pos h]
        by_cases hj : k = j
        · rw [if_neg (by omega), if_pos hj]
        · rw [if_pos (by omega)]
      · rw [if_neg h, if_neg (by omega), if_neg (by omega)]

-- from here on only `word_repStosd` says what the string store does
attribute [local irreducible] repStosd

/-- The double word `r` of table `t` that the loader stores or clears. -/
def loaderWord (t r : Nat) : Option UInt32 :=
  if t = 4 ∧ r = 0 then some 0x70083
  else if t = 3 ∧ r = 1020 then some 0x94003
  else if t = 0 ∧ r = 1022 then some 0x93003
  else if t = 2 ∧ r = 0 then some 0x83
  else if t = 1 ∧ r = 0 then some 0x92003
  else if t = 0 ∧ r = 0 then some 0x91003
  else if r < 512 then some 0
  else none

/-- Double word `r` of table `t`. -/
def tableWord (t r : Nat) : UInt32 := m.word (4 * (0x24000 + 0x400 * t + r))

private theorem tableWord_movDword {t r u q : Nat} (hr : r < 1024) (hq : q < 1024) (v : UInt32) :
    tableWord (movDword (pageTableBase + 0x1000 * u + 4 * q) v m) t r =
      if t = u ∧ r = q then v else tableWord m t r := by
  have haddr : pageTableBase + 0x1000 * u + 4 * q = 4 * (0x24000 + 0x400 * u + q) := by
    rw [pageTableBase]
    omega
  rw [haddr, tableWord, word_movDword]
  by_cases h : t = u ∧ r = q
  · rw [if_pos h, if_pos (by omega)]
  · rw [if_neg h, if_neg (by omega), tableWord]

private theorem tableWord_repStosd {t r u : Nat} (hr : r < 1024) :
    tableWord (repStosd 512 (pageTableBase + 0x1000 * u) 0 m) t r =
      if t = u ∧ r < 512 then 0 else tableWord m t r := by
  have haddr : pageTableBase + 0x1000 * u = 4 * (0x24000 + 0x400 * u) := by
    rw [pageTableBase]
    omega
  rw [haddr, tableWord, word_repStosd]
  by_cases h : t = u ∧ r < 512
  · rw [if_pos h, if_pos (by omega)]
  · rw [if_neg h, if_neg (by omega), tableWord]

private theorem tableWord_setup {t r : Nat} (ht : t < 5) (hr : r < 1024) :
    tableWord (pageTableSetup m) t r = (loaderWord t r).getD (tableWord m t r) := by
  have hstore : ∀ (m : Bytes) (u q a : Nat) (v : UInt32), q < 1024 →
      a = pageTableBase + 0x1000 * u + 4 * q →
      tableWord (movDword a v m) t r = if t = u ∧ r = q then v else tableWord m t r := by
    intro m u q a v hq ha
    rw [ha]
    exact tableWord_movDword m hr hq v
  have hclear : ∀ (m : Bytes) (u a : Nat), a = pageTableBase + 0x1000 * u →
      tableWord (repStosd 512 a 0 m) t r = if t = u ∧ r < 512 then 0 else tableWord m t r := by
    intro m u a ha
    rw [ha]
    exact tableWord_repStosd m hr
  rw [pageTableSetup, hstore _ 4 0 _ _ (by omega) rfl, hstore _ 3 1020 _ _ (by omega) rfl,
    hstore _ 0 1022 _ _ (by omega) rfl, hstore _ 2 0 _ _ (by omega) rfl,
    hstore _ 1 0 _ _ (by omega) rfl, hstore _ 0 0 pageTableBase _ (by omega) rfl,
    hclear _ 4 _ rfl, hclear _ 3 _ rfl, hclear _ 2 _ rfl, hclear _ 1 _ rfl, hclear _ 0 pageTableBase rfl, loaderWord]
  have hcases : t = 0 ∨ t = 1 ∨ t = 2 ∨ t = 3 ∨ t = 4 := by omega
  rcases hcases with rfl | rfl | rfl | rfl | rfl
  all_goals
    simp only [OfNat.ofNat_ne_zero, OfNat.zero_ne_ofNat, OfNat.one_ne_ofNat, OfNat.ofNat_ne_one,
      Nat.reduceEqDiff, one_ne_zero, zero_ne_one, false_and, true_and, if_false]
    split_ifs <;> rfl

private theorem entry_eq (t i : Nat) : entry m (pageTableBase + 0x1000 * t) i =
    (tableWord m t (2 * i)).toNat + 2 ^ 32 * (tableWord m t (2 * i + 1)).toNat := by
  have hlow : pageTableBase + 0x1000 * t + 8 * i = 4 * (0x24000 + 0x400 * t + 2 * i) := by
    rw [pageTableBase]
    omega
  have hhigh : pageTableBase + 0x1000 * t + 8 * i + 4 =
      4 * (0x24000 + 0x400 * t + (2 * i + 1)) := by
    omega
  rw [entry, hhigh, hlow, tableWord, tableWord]

/-- The entry the loader means to be at index `i` of table `t`. -/
def loaderEntry (t i : Nat) : Nat := ((loaderWord t (2 * i)).getD 0).toNat

/-- The upper halves of the tables hold zeros before the setup. -/
def Clean : Prop := ∀ t r, t < 5 → 512 ≤ r → r < 1024 → tableWord m t r = 0

/-- The loader never stores the upper double word of an entry. -/
private theorem loaderWord_odd (t i : Nat) : (loaderWord t (2 * i + 1)).getD 0 = 0 := by
  have h : ∀ q, ¬ 2 * i + 1 = 2 * q := by omega
  rw [loaderWord, if_neg fun hc => h 0 hc.2, if_neg fun hc => h 510 hc.2,
    if_neg fun hc => h 511 hc.2, if_neg fun hc => h 0 hc.2, if_neg fun hc => h 0 hc.2,
    if_neg fun hc => h 0 hc.2]
  split <;> rfl

private theorem entry_setup {t i : Nat} (ht : t < 5) (hi : i < 512)
    (hstale : ∀ r, 512 ≤ r → 2 * i ≤ r → r ≤ 2 * i + 1 → tableWord m t r = 0) :
    entry (pageTableSetup m) (pageTableBase + 0x1000 * t) i = loaderEntry t i := by
  have hword : ∀ r, r < 1024 → 2 * i ≤ r → r ≤ 2 * i + 1 →
      tableWord (pageTableSetup m) t r = (loaderWord t r).getD 0 := by
    intro r hr h₁ h₂
    rw [tableWord_setup m ht hr]
    by_cases hlow : r < 512
    · have hsome : (loaderWord t r).isSome := by
        rw [loaderWord]
        split_ifs <;> rfl
      obtain ⟨w, hw⟩ := Option.isSome_iff_exists.mp hsome
      rw [hw, Option.getD_some, Option.getD_some]
    · rw [hstale r (by omega) h₁ h₂]
  rw [entry_eq, hword _ (by omega) (by omega) (by omega), hword _ (by omega) (by omega) (by omega),
    loaderWord_odd]
  simp [loaderEntry]

/-- Entries in the lower half of a table are the loader's, whatever memory held. -/
private theorem entry_low {t i : Nat} (ht : t < 5) (hi : i < 256) :
    entry (pageTableSetup m) (pageTableBase + 0x1000 * t) i = loaderEntry t i :=
  entry_setup m ht (by omega) fun r _ _ _ => by omega

variable {m}

theorem Clean.entry (h : Clean m) {t i : Nat} (ht : t < 5) (hi : i < 512) :
    entry (pageTableSetup m) (pageTableBase + 0x1000 * t) i = loaderEntry t i :=
  entry_setup m ht hi fun r _ _ _ => h t r ht (by omega) (by omega)

end Words

/-! ### Walks -/

section Walks

variable (c : Paging) {m : Bytes} {table va e : Nat}

private theorem usable_zero : c.usable 0 = false := by
  simp [Paging.usable]

private theorem usable_of_lt (hp : e % 2 = 1) (he : e < 2 ^ 32) : c.usable e = true := by
  have hphy : e / 2 ^ c.maxPhyAddr = 0 := by
    apply Nat.div_eq_of_lt
    exact he.trans_le (Nat.pow_le_pow_right (by decide) c.addr_ge)
  have hnx : e / 2 ^ 63 = 0 := Nat.div_eq_of_lt (he.trans (by decide))
  rw [Paging.usable, hp, hphy, hnx]
  simp

variable {c}

private theorem walk_absent (he : entry m table (va / 2 ^ 39 % 512) = 0) :
    c.walk m table va = ([0], none) := by
  rw [Paging.walk, he, if_pos (Or.inl (usable_zero c))]

private theorem walk_table (he : entry m table (va / 2 ^ 39 % 512) = e) (hp : e % 2 = 1)
    (hlt : e < 2 ^ 32) (hl : Paging.isLarge e = false) :
    c.walk m table va = (e :: (c.walkPdpt m (Paging.frame e) va).1,
      (c.walkPdpt m (Paging.frame e) va).2) := by
  rw [Paging.walk, he, if_neg]
  simp [usable_of_lt c hp hlt, hl]

private theorem walkPdpt_absent (he : entry m table (va / 2 ^ 30 % 512) = 0) :
    c.walkPdpt m table va = ([0], none) := by
  rw [Paging.walkPdpt, he, if_pos (usable_zero c)]

private theorem walkPdpt_table (he : entry m table (va / 2 ^ 30 % 512) = e) (hp : e % 2 = 1)
    (hlt : e < 2 ^ 32) (hl : Paging.isLarge e = false) :
    c.walkPdpt m table va = (e :: (c.walkPd m (Paging.frame e) va).1,
      (c.walkPd m (Paging.frame e) va).2) := by
  rw [Paging.walkPdpt, he, if_neg (by simp [usable_of_lt c hp hlt]), if_neg (by simp [hl])]

private theorem walkPd_absent (he : entry m table (va / 2 ^ 21 % 512) = 0) :
    c.walkPd m table va = ([0], none) := by
  rw [Paging.walkPd, he, if_pos (usable_zero c)]

private theorem walkPd_large (he : entry m table (va / 2 ^ 21 % 512) = e) (hp : e % 2 = 1)
    (hlt : e < 2 ^ 32) (hl : Paging.isLarge e = true) :
    c.walkPd m table va = ([e], Paging.largePage2M e va) := by
  rw [Paging.walkPd, he, if_neg (by simp [usable_of_lt c hp hlt]), if_pos hl]

theorem walk_low (m : Bytes) (h₄ : va / 2 ^ 39 % 512 = 0) (h₃ : va / 2 ^ 30 % 512 = 0) :
    c.walk (pageTableSetup m) pageTableBase va =
      (0x91003 :: 0x92003 :: (c.walkPd (pageTableSetup m) 0x92000 va).1,
        (c.walkPd (pageTableSetup m) 0x92000 va).2) := by
  have he₄ : entry (pageTableSetup m) pageTableBase (va / 2 ^ 39 % 512) = 0x91003 := by
    rw [h₄]
    exact entry_low m (t := 0) (by decide) (by decide)
  have he₃ : entry (pageTableSetup m) 0x91000 (va / 2 ^ 30 % 512) = 0x92003 := by
    rw [h₃]
    exact entry_low m (t := 1) (by decide) (by decide)
  have hpdpt := walkPdpt_table (c := c) he₃ (by decide) (by decide) (by decide)
  rw [walk_table he₄ (by decide) (by decide) (by decide),
    show Paging.frame 0x91003 = 0x91000 from rfl, hpdpt,
    show Paging.frame 0x92003 = 0x92000 from rfl]

private theorem walk_identity (m : Bytes) {a : Nat} (ha : a < 2 ^ 21) :
    c.walk (pageTableSetup m) pageTableBase a = ([0x91003, 0x92003, 0x83], some a) := by
  have he₂ : entry (pageTableSetup m) 0x92000 (a / 2 ^ 21 % 512) = 0x83 := by
    rw [show a / 2 ^ 21 % 512 = 0 by omega]
    exact entry_low m (t := 2) (by decide) (by decide)
  have hpage : Paging.largePage2M 0x83 a = some a := by
    rw [Paging.largePage2M, if_pos (by decide), show 0x83 / 2 ^ 21 % 2 ^ 31 * 2 ^ 21 = 0 from rfl,
      Nat.mod_eq_of_lt ha, Nat.zero_add]
  rw [walk_low m (by omega) (by omega), walkPd_large he₂ (by decide) (by decide) (by decide), hpage]

private theorem loaderEntry_zero {t i : Nat}
    (h : ¬ (t = 4 ∧ i = 0) ∧ ¬ (t = 3 ∧ i = 510) ∧ ¬ (t = 0 ∧ i = 511) ∧ ¬ (t = 2 ∧ i = 0) ∧
      ¬ (t = 1 ∧ i = 0) ∧ ¬ (t = 0 ∧ i = 0)) : loaderEntry t i = 0 := by
  obtain ⟨h₁, h₂, h₃, h₄, h₅, h₆⟩ := h
  rw [loaderEntry, loaderWord, if_neg (by omega), if_neg (by omega), if_neg (by omega),
    if_neg (by omega), if_neg (by omega), if_neg (by omega)]
  split <;> rfl

/-- With clean memory the setup maps the first 2 MiB and nothing else: the entry for the kernel's
page has reserved bits set, since its frame is not aligned to 2 MiB. -/
private theorem walk_of_clean (h : Clean m) (hva : Canonical va) :
    (c.walk (pageTableSetup m) pageTableBase va).2 = if va < 2 ^ 21 then some va else none := by
  by_cases hlow : va < 2 ^ 21
  · rw [walk_identity m hlow, if_pos hlow]
  rw [if_neg hlow]
  have hmod : ∀ k, va / k % 512 < 512 := fun k => Nat.mod_lt _ (by decide)
  by_cases h₀ : va / 2 ^ 39 % 512 = 0
  · by_cases h₃ : va / 2 ^ 30 % 512 = 0
    · have hne : va / 2 ^ 21 % 512 ≠ 0 := by
        rw [Canonical] at hva
        omega
      have he₂ : entry (pageTableSetup m) 0x92000 (va / 2 ^ 21 % 512) = 0 :=
        (h.entry (t := 2) (by decide) (hmod _)).trans (loaderEntry_zero (by omega))
      rw [walk_low m h₀ h₃, walkPd_absent he₂]
    · have he₄ : entry (pageTableSetup m) pageTableBase (va / 2 ^ 39 % 512) = 0x91003 := by
        rw [h₀]
        exact entry_low m (t := 0) (by decide) (by decide)
      have he₃ : entry (pageTableSetup m) 0x91000 (va / 2 ^ 30 % 512) = 0 :=
        (h.entry (t := 1) (by decide) (hmod _)).trans (loaderEntry_zero (by omega))
      rw [walk_table he₄ (by decide) (by decide) (by decide)]
      exact congrArg Prod.snd (walkPdpt_absent he₃)
  by_cases h₅ : va / 2 ^ 39 % 512 = 511
  · have he₄ : entry (pageTableSetup m) pageTableBase (va / 2 ^ 39 % 512) = 0x93003 := by
      rw [h₅]
      exact h.entry (t := 0) (by decide) (by decide)
    rw [walk_table he₄ (by decide) (by decide) (by decide)]
    change (c.walkPdpt (pageTableSetup m) 0x93000 va).2 = none
    by_cases h₃ : va / 2 ^ 30 % 512 = 510
    · have he₃ : entry (pageTableSetup m) 0x93000 (va / 2 ^ 30 % 512) = 0x94003 := by
        rw [h₃]
        exact h.entry (t := 3) (by decide) (by decide)
      rw [walkPdpt_table he₃ (by decide) (by decide) (by decide)]
      change (c.walkPd (pageTableSetup m) 0x94000 va).2 = none
      by_cases h₂ : va / 2 ^ 21 % 512 = 0
      · have he₂ : entry (pageTableSetup m) 0x94000 (va / 2 ^ 21 % 512) = 0x70083 := by
          rw [h₂]
          exact entry_low m (t := 4) (by decide) (by decide)
        rw [walkPd_large he₂ (by decide) (by decide) (by decide), Paging.largePage2M,
          if_neg (by decide)]
      · have he₂ : entry (pageTableSetup m) 0x94000 (va / 2 ^ 21 % 512) = 0 :=
          (h.entry (t := 4) (by decide) (hmod _)).trans (loaderEntry_zero (by omega))
        rw [walkPd_absent he₂]
    · have he₃ : entry (pageTableSetup m) 0x93000 (va / 2 ^ 30 % 512) = 0 :=
        (h.entry (t := 3) (by decide) (hmod _)).trans (loaderEntry_zero (by omega))
      rw [walkPdpt_absent he₃]
  · have he₄ : entry (pageTableSetup m) pageTableBase (va / 2 ^ 39 % 512) = 0 :=
      (h.entry (t := 0) (by decide) (hmod _)).trans (loaderEntry_zero (by omega))
    rw [walk_absent he₄]

private theorem head_walk (c : Paging) (m : Bytes) (table va : Nat) :
    (c.walk m table va).1.head? = some (entry m table (va / 2 ^ 39 % 512)) := by
  rw [Paging.walk]
  split <;> rfl

/-- Memory that is zero but for the lower double word of entry 256 of the first table. -/
def staleMemory (v : UInt32) : Bytes :=
  movDword (pageTableBase + 0x1000 * 0 + 4 * 512) v Bytes.zero

private theorem clean_zero : Clean Bytes.zero := by
  intro t r _ _ _
  rfl

private theorem entry_stale (v : UInt32) :
    entry (pageTableSetup (staleMemory v)) pageTableBase 256 = v.toNat := by
  have hlow : tableWord (staleMemory v) 0 512 = v := by
    rw [staleMemory, tableWord_movDword _ (by decide) (by decide), if_pos ⟨rfl, rfl⟩]
  have hhigh : tableWord (staleMemory v) 0 513 = 0 := by
    rw [staleMemory, tableWord_movDword _ (by decide) (by decide), if_neg (by decide),
      clean_zero 0 513 (by decide) (by decide) (by decide)]
  have hlow' : tableWord (pageTableSetup (staleMemory v)) 0 (2 * 256) = v := by
    rw [tableWord_setup _ (by decide) (by decide), show loaderWord 0 (2 * 256) = none from rfl,
      Option.getD_none, hlow]
  have hhigh' : tableWord (pageTableSetup (staleMemory v)) 0 (2 * 256 + 1) = 0 := by
    rw [tableWord_setup _ (by decide) (by decide), show loaderWord 0 (2 * 256 + 1) = none from rfl,
      Option.getD_none, hhigh]
  have he := entry_eq (pageTableSetup (staleMemory v)) 0 256
  rw [hlow', hhigh'] at he
  exact he

/-- A stale entry that points at the low PDPT maps its addresses like the first 2 MiB. -/
private theorem walk_stale (h₄ : va / 2 ^ 39 % 512 = 256) (h₃ : va / 2 ^ 30 % 512 = 0)
    (h₂ : va / 2 ^ 21 % 512 = 0) :
    (c.walk (pageTableSetup (staleMemory 0x91003)) pageTableBase va).2 = some (va % 2 ^ 21) := by
  have he₄ : entry (pageTableSetup (staleMemory 0x91003)) pageTableBase (va / 2 ^ 39 % 512) =
      0x91003 := by
    rw [h₄]
    exact entry_stale 0x91003
  have he₃ : entry (pageTableSetup (staleMemory 0x91003)) 0x91000 (va / 2 ^ 30 % 512) =
      0x92003 := by
    rw [h₃]
    exact entry_low _ (t := 1) (by decide) (by decide)
  have he₂ : entry (pageTableSetup (staleMemory 0x91003)) 0x92000 (va / 2 ^ 21 % 512) = 0x83 := by
    rw [h₂]
    exact entry_low _ (t := 2) (by decide) (by decide)
  rw [walk_table he₄ (by decide) (by decide) (by decide)]
  change (c.walkPdpt (pageTableSetup (staleMemory 0x91003)) 0x91000 va).2 = _
  rw [walkPdpt_table he₃ (by decide) (by decide) (by decide)]
  change (c.walkPd (pageTableSetup (staleMemory 0x91003)) 0x92000 va).2 = _
  rw [walkPd_large he₂ (by decide) (by decide) (by decide), Paging.largePage2M,
    if_pos (by decide), show 0x83 / 2 ^ 21 % 2 ^ 31 * 2 ^ 21 = 0 from rfl, Nat.zero_add]

private theorem reads_stale (c : Paging) (m : Bytes) :
    ¬ ∀ m' va, Canonical va → (c.walk (pageTableSetup m) pageTableBase va).1 =
      (c.walk (pageTableSetup m') pageTableBase va).1 := by
  intro h
  have hread : ∀ v : UInt32, entry (pageTableSetup m) pageTableBase 256 = v.toNat := by
    intro v
    have hv := congrArg List.head?
      (h (staleMemory v) (2 ^ 64 - 2 ^ 47) (Or.inr ⟨le_refl _, by decide⟩))
    rw [head_walk, head_walk, Option.some_inj] at hv
    exact hv.trans (entry_stale v)
  have h₀ := hread 0
  rw [hread 1] at h₀
  exact absurd h₀ (by decide)

/-- The setup has its intended effect on no machine.  What it does do: it always maps the first
2 MiB to themselves, and where memory was clean it maps nothing else, the kernel's window
included. -/
theorem setup_never_mapsKernel (c : Paging) (m : Bytes) :
    ¬ MapsKernel c m ∧
      (∀ a < 2 ^ 21, (c.walk (pageTableSetup m) pageTableBase a).2 = some a) ∧
      (Clean m → ∀ va, Canonical va → ¬ va < 2 ^ 21 →
        (c.walk (pageTableSetup m) pageTableBase va).2 = none) := by
  refine ⟨fun h => reads_stale c m h.independent, fun a ha => ?_, fun hm va hva hlow => ?_⟩
  · rw [walk_identity m ha]
  · rw [walk_of_clean hm hva, if_neg hlow]

/-- Both defects at concrete memories: with all zeros the kernel's link address has no
translation, and a stale entry in the upper half of the first table maps an address that should
have none. -/
theorem kernel_window_unmapped :
    let c : Paging := ⟨36, false, true, by decide, by decide⟩
    (c.walk (pageTableSetup Bytes.zero) pageTableBase kernelVma).2 = none ∧
      ¬ MapsKernel c Bytes.zero ∧
      (c.walk (pageTableSetup (staleMemory 0x91003)) pageTableBase 0xffff800000000000).2 =
        some 0 := by
  intro c
  have hkernel : (c.walk (pageTableSetup Bytes.zero) pageTableBase kernelVma).2 = none := by
    rw [walk_of_clean clean_zero (Or.inr ⟨by decide, by decide⟩), if_neg (by decide)]
  refine ⟨hkernel, ?_, ?_⟩
  · intro h
    have hmapped := h.kernel 0 (by decide)
    rw [Nat.add_zero, hkernel] at hmapped
    exact Option.some_ne_none _ hmapped.symm
  · rw [walk_stale (by norm_num) (by norm_num) (by norm_num),
      show 0xffff800000000000 % 2 ^ 21 = 0 by norm_num]

end Walks

end Aitos.Arch
