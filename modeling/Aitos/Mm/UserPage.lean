import Aitos.Mm.PageOwnership

/-!
# A page of a user process

`create_user_vaddr_bitmap` of `proc/process.c` lays the bits of a process out from
`USER_VADDR_START` to the kernel's addresses, and `get_a_page` takes one page of that range.  The
range begins with a page that `get_a_page` refuses.
-/

namespace Aitos.Paging

open Framework Proc.Fork

def userVaddrStart : Nat := 0x8048000

/-- The bytes of the bitmap of a process -/
def bitmapBytesLen : Nat := (0xc0000000 - userVaddrStart) / 4096 / 8

/-- The running thread is a user process. -/
structure UserProcess (m : Machine) (cur : Nat) : Prop where
  pgdir : (m.task cur).pgdir ≠ 0
  start : (m.task cur).vaddrStart = userVaddrStart
  len : (m.task cur).btmpBytesLen = bitmapBytesLen

/-- Page `v` of the process is mapped to frame `i` of the user pool, and at most one new page
table has been taken for it. -/
structure PageGot (p : Pools) (cur v i : Nat) (m m' : Machine) : Prop where
  bits : vaddrBits cur m' true =
    Function.update (vaddrBits cur m true) (v - userVaddrStart / 4096) true
  otherBits : ∀ a ≠ (m.task cur).bits, m'.bitmaps a = m.bitmaps a
  kernelBits : m'.kernelBitmap = m.kernelBitmap
  frame : i < p.len true ∧ m.pool true i = false
  mapped : frameOf m' v = some (p.start true + i)
  others : ∀ w < 0xffc00, w ≠ v → frameOf m' w = frameOf m w
  table : ∀ T, tableOf m (v / 1024) = some T → tableOf m' (v / 1024) = some T
  otherTables : ∀ t < 1024, t ≠ v / 1024 → tableOf m' t = tableOf m t
  pool : ∀ u j, m'.pool u j = true ↔ m.pool u j = true ∨ (u = true ∧ j = i) ∨
    (u = false ∧ tableOf m (v / 1024) = none ∧ tableOf m' (v / 1024) = some (p.start false + j))
  cr3 : m'.cr3 = m.cr3
  task : m'.task = m.task

section Total

variable {p : Pools} {m : Machine} {a f v : Nat}

private theorem translate_of_walk (h : m.walkFrom m.cr3 (a / 4096) = some f) :
    Proc.Fork.translate a m = .ok (f, m) := by
  rw [Proc.Fork.translate, Code.get_bind, Code.get_bind, h]
  rfl

theorem load_of_walk (h : m.walkFrom m.cr3 (a / 4096) = some f) :
    load a m = .ok (m.ram f (a % 4096 / 4), m) := by
  rw [load, Code.bind_of_ok (translate_of_walk h), Code.get_bind]
  rfl

private theorem store_of_walk (h : m.walkFrom m.cr3 (a / 4096) = some f) (x : Nat) :
    store a x m = .ok ((), m.setWord f (a % 4096 / 4) x) := by
  rw [store, Code.bind_of_ok (translate_of_walk h)]
  rfl

private theorem memset_of_walk (h : m.walkFrom m.cr3 (a / 4096) = some f) :
    memset a 1 m = .ok ((), m.setPage f fun _ => 0) := by
  rw [memset, Code.bind_of_ok (translate_of_walk h), Code.modify_bind]
  rfl

private theorem palloc_of_free {user : Bool} (h : ∃ j < p.len user, m.pool user j = false) :
    ∃ i < p.len user, m.pool user i = false ∧
      Proc.Fork.palloc p user m = .ok (p.start user + i, m.setPool user i true) := by
  obtain ⟨j, hj, hclear⟩ := h
  obtain ⟨i, hi⟩ := firstClear_of_clear (p.len user) (Nat.zero_le j) (by omega) hclear
  obtain ⟨-, hlt, hfree⟩ := firstClear_some hi
  refine ⟨i, by omega, hfree, ?_⟩
  rw [Proc.Fork.palloc, Code.get_bind, hi]
  rfl

private theorem palloc_found {user : Bool} (h : ∃ j < p.len user, m.pool user j = false) :
    ∃ i < p.len user, m.pool user i = false ∧
      palloc p false user m = .ok (some (p.start user + i), m.setPool user i true) := by
  obtain ⟨j, hj, hclear⟩ := h
  obtain ⟨i, hi⟩ := firstClear_of_clear (p.len user) (Nat.zero_le j) (by omega) hclear
  obtain ⟨-, hlt, hfree⟩ := firstClear_some hi
  have hscan : bitmapScan false (m.pool user) (p.len user) 1 m = .ok (some i, m) := by
    rw [bitmapScan, findRun, hi]
    rfl
  refine ⟨i, by omega, hfree, ?_⟩
  rw [palloc, Code.get_bind, Code.bind_of_ok hscan]
  rfl

private theorem pageTableAdd_returns (frame : Nat) (ht : Tables p m) (hv : v < 0xffc00)
    (hun : frameOf m v = none) (hfree : ∃ j < p.len false, m.pool false j = false) :
    ∃ m', pageTableAdd p false (v * 4096) frame m = .ok ((), m') := by
  have ha : v * 4096 < 2 ^ 32 := by omega
  have hdir : v * 4096 / 2 ^ 22 = v / 1024 := by omega
  have hword : v * 4096 / 4096 % 1024 = v % 1024 := by omega
  rw [pageTableAdd_eq, Proc.Fork.pageTableAdd,
    Code.bind_of_ok (load_of_walk (walk_pdePtr ht.window ha)), pdePtr_word ha, hdir]
  cases hT : tableOf m (v / 1024) with
  | some T =>
      have hodd : m.ram m.cr3 (v / 1024) % 2 = 1 := by
        by_contra heven
        rw [tableOf, entry, if_neg heven] at hT
        cases hT
      have hwalk := walk_ptePtr ht.window ha
      rw [hdir, if_pos hodd] at hwalk
      have hTeq : m.ram m.cr3 (v / 1024) / 4096 = T := by
        rw [tableOf, entry, if_pos hodd] at hT
        exact Option.some.inj hT
      have hpte : ¬ m.ram T (v % 1024) % 2 = 1 := by
        rw [frameOf_of_table hT, entry_none] at hun
        exact hun
      rw [if_pos hodd, Code.bind_of_ok (load_of_walk hwalk), ptePtr_word ha, hword, hTeq,
        if_neg hpte]
      exact ⟨_, store_of_walk hwalk _⟩
  | none =>
      have heven : ¬ m.ram m.cr3 (v / 1024) % 2 = 1 := entry_none.mp hT
      obtain ⟨j, hj, hclear, hpalloc⟩ := palloc_of_free hfree
      have hne : p.start false + j ≠ m.cr3 := by
        intro heq
        exact not_taken hj hclear (heq ▸ ht.takenSelf)
      -- the directory names the new table, and through it the table is cleared and written
      set m₁ := m.setPool false j true with hm₁
      set m₂ := m₁.setWord m.cr3 (v / 1024) ((p.start false + j) * 4096 + 7) with hm₂
      set m₃ := m₂.setPage (p.start false + j) fun _ => 0 with hm₃
      have hpde : store (pdePtr (v * 4096)) ((p.start false + j) * 4096 + 7) m₁ = .ok ((), m₂) := by
        have hstore := store_of_walk (m := m₁) (walk_pdePtr (m := m₁) ht.window ha)
          ((p.start false + j) * 4096 + 7)
        rw [pdePtr_word ha, hdir] at hstore
        exact hstore
      have hpde₂ : m₂.ram m.cr3 (v / 1024) = (p.start false + j) * 4096 + 7 := by
        rw [hm₂, setWord_ram_self, Function.update_self]
      have hw₂ : m₂.Window m₂.cr3 := by
        change m₂.ram m.cr3 1023 = _
        rw [hm₂, setWord_ram_self, Function.update_of_ne (by omega)]
        exact ht.window
      have hwalk₂ : m₂.walkFrom m₂.cr3 (ptePtr (v * 4096) / 4096) = some (p.start false + j) := by
        have hwalk := walk_ptePtr hw₂ ha
        change m₂.walkFrom m₂.cr3 _ = if m₂.ram m.cr3 _ % 2 = 1 then some (m₂.ram m.cr3 _ / 4096)
          else none at hwalk
        rw [hdir, hpde₂, if_pos (entry_odd _), entry_frame] at hwalk
        exact hwalk
      have hclear : memset (ptePtr (v * 4096) / 4096 * 4096) 1 m₂ = .ok ((), m₃) := by
        apply memset_of_walk
        rw [Nat.mul_div_cancel _ (by decide)]
        exact hwalk₂
      have hdir₃ : m₃.ram m.cr3 = m₂.ram m.cr3 := setPage_ram_of_ne (Ne.symm hne)
      have hwalk₃ : m₃.walkFrom m₃.cr3 (ptePtr (v * 4096) / 4096) = some (p.start false + j) := by
        have hw₃ : m₃.Window m₃.cr3 := by
          change m₃.ram m.cr3 1023 = _
          rw [hdir₃]
          exact hw₂
        have hwalk := walk_ptePtr hw₃ ha
        change m₃.walkFrom m₃.cr3 _ = if m₃.ram m.cr3 _ % 2 = 1 then some (m₃.ram m.cr3 _ / 4096)
          else none at hwalk
        rw [hdir, hdir₃, hpde₂, if_pos (entry_odd _), entry_frame] at hwalk
        exact hwalk
      have hzero : ¬ m₃.ram (p.start false + j) (ptePtr (v * 4096) % 4096 / 4) % 2 = 1 := by
        rw [hm₃, setPage_ram_self]
        decide
      rw [if_neg heven, Code.bind_of_ok hpalloc, Code.bind_of_ok hpde, Code.bind_of_ok hclear,
        Code.bind_of_ok (load_of_walk hwalk₃), if_neg hzero]
      exact ⟨_, store_of_walk hwalk₃ _⟩

end Total

section Get

variable {p : Pools} {cur v i frame : Nat} {m m' : Machine}

private theorem Tables.added_others (ht : Tables p m) (hv : v < 0xffc00)
    (h : Added p m m.cr3 (v * 4096) frame m') {t : Nat} (hne : t ≠ v / 1024) :
    tableOf m' t = tableOf m t := by
  have hdir : v * 4096 / 2 ^ 22 = v / 1024 := by omega
  cases h with
  | entry hpde hpte =>
      rw [hdir] at hpde ⊢
      have hT : tableOf m (v / 1024) = some (m.ram m.cr3 (v / 1024) / 4096) := by
        rw [tableOf, entry, if_pos hpde]
      exact tableOf_setWord (ht.ne_cr3 (by omega) hT) _ _
  | @table j hpde hj hclear =>
      have hcr3 : m.cr3 ≠ p.start false + j := not_taken_ne hj hclear ht.takenSelf
      rw [tableOf, tableOf]
      change entry ((Machine.setPage _ _ _).ram m.cr3 t) = _
      rw [setPage_ram_of_ne hcr3, setWord_ram_self, hdir, Function.update_of_ne hne]
      rfl

private theorem pageGot_of_mapping (hv : v < 0xffc00)
    (hmap : Mapping p true v 1 (fun _ => i) (setVaddrBits cur m true (Function.update
      (vaddrBits cur m true) (v - userVaddrStart / 4096) true)) m') (ht' : Tables p m')
    (hothers : ∀ t < 1024, t ≠ v / 1024 → tableOf m' t = tableOf m t) : PageGot p cur v i m m' where
  bits := by
    rw [vaddrBits_grows hmap.grows, vaddrBits_setVaddrBits]
  otherBits := by
    intro a ha
    rw [hmap.grows.bitmaps]
    exact Function.update_of_ne ha _ _
  kernelBits := hmap.grows.kernelBitmap
  frame := ⟨hmap.frame 0 (by omega), hmap.clear 0 (by omega)⟩
  mapped := hmap.mapped 0 (by omega)
  others := fun w hw hne => hmap.others w hw (by omega)
  table := fun T hT => hmap.table _ T hT
  otherTables := hothers
  pool := by
    intro u j
    constructor
    · intro hj
      rcases hmap.pool u j hj with hold | ⟨rfl, k, -, rfl⟩ | ⟨rfl, t, ht, hnone, hsome⟩
      · exact .inl hold
      · exact .inr (.inl ⟨rfl, rfl⟩)
      · refine .inr (.inr ⟨rfl, ?_⟩)
        by_cases htv : t = v / 1024
        · subst htv
          exact ⟨hnone, hsome⟩
        · have hsame := hothers t (by omega) htv
          have hmid : tableOf m t = none := hnone
          rw [hsome, hmid] at hsame
          cases hsame
    · rintro (hold | ⟨rfl, rfl⟩ | ⟨rfl, hnone, hsome⟩)
      · exact hmap.grows.pool u j hold
      · exact hmap.set 0 (by omega)
      · rcases hmap.newTable _ (by omega) _ hsome with hold | ⟨-, -, ⟨k, hk, hfk, -⟩, -⟩
        · have hmid : tableOf m (v / 1024) = some (p.start false + j) := hold
          rw [hnone] at hmid
          cases hmid
        · exact ht'.taken _ (by omega) _ hsome false j (by omega) rfl
  cr3 := hmap.grows.cr3
  task := hmap.grows.task

private theorem getAPage_user (huser : UserProcess m cur) (ht : Tables p m)
    (hlo : userVaddrStart / 4096 < v) (hhi : v < 0xc0000) (hun : frameOf m v = none)
    (hframe : ∃ i < p.len true, m.pool true i = false)
    (htable : ∃ j < p.len false, m.pool false j = false) :
    ∃ m' i, getAPage p false cur true (v * 4096) m = .ok (v * 4096, m') ∧
      PageGot p cur v i m m' ∧ Tables p m' := by
  have hstart : userVaddrStart = 0x8048000 := rfl
  have hbit : bitOf cur m true (v * 4096) = v - userVaddrStart / 4096 := by
    rw [bitOf, vaddrStart, huser.start]
    omega
  have hlen : vaddrLen p cur m true = 753592 := by
    rw [vaddrLen, huser.len]
    rfl
  set m₁ := setVaddrBits cur m true (Function.update (vaddrBits cur m true)
    (v - userVaddrStart / 4096) true) with hm₁
  have ht₁ : Tables p m₁ := ht.setVaddrBits _
  obtain ⟨i, hi, hclear, halloc⟩ := palloc_found (m := m₁) hframe
  have htable₂ : ∃ j < p.len false, (m₁.setPool true i true).pool false j = false := htable
  obtain ⟨m', hadd⟩ := pageTableAdd_returns (p.start true + i) ht₁.setPool (by omega) hun
    htable₂
  obtain ⟨k, hmap, ht'⟩ := mapping_one ht₁ (by omega) halloc rfl hadd
  have hothers : ∀ t < 1024, t ≠ v / 1024 → tableOf m' t = tableOf m t := fun t _ hne =>
    (ht₁.setPool.added_others (by omega) (pageTableAdd_ok ht₁.setPool (by omega) hadd) hne)
  refine ⟨m', k, ?_, pageGot_of_mapping (by omega) hmap ht' hothers, ht'⟩
  have huserFlag : ¬ true ≠ decide ((m.task cur).pgdir ≠ 0) := by
    simp [huser.pgdir]
  have hassert : assert false (0 < v - userVaddrStart / 4096) m = .ok ((), m) := by
    rw [assert, if_pos (.inr (by omega))]
    rfl
  rw [getAPage, Code.get_bind]
  dsimp only
  rw [if_neg huserFlag, hbit, Code.bind_of_ok hassert, if_neg (by omega), Code.modify_bind,
    Code.bind_of_ok halloc]
  dsimp only
  rw [Code.bind_of_ok hadd]
  rfl

/-- The first page of the range has bit 0, which `get_a_page` takes for an error. -/
private theorem getAPage_start (huser : UserProcess m cur) :
    getAPage p false cur true userVaddrStart m = .error .assertion := by
  have huserFlag : ¬ true ≠ decide ((m.task cur).pgdir ≠ 0) := by
    simp [huser.pgdir]
  have hbit : bitOf cur m true userVaddrStart = 0 := by
    rw [bitOf, vaddrStart, huser.start]
    rfl
  rw [getAPage, Code.get_bind]
  dsimp only
  rw [if_neg huserFlag, hbit]
  rfl

/-- A user process asks for an unmapped page of its range: it gets it unless it is the first. -/
theorem get_a_page_user_iff (p : Pools) (cur v : Nat) (m : Machine) (huser : UserProcess m cur)
    (ht : Tables p m) (hv : v % 4096 = 0) (hlo : userVaddrStart ≤ v) (hhi : v < 0xc0000000)
    (hun : frameOf m (v / 4096) = none) (hframe : ∃ i < p.len true, m.pool true i = false)
    (htable : ∃ j < p.len false, m.pool false j = false) :
    (∃ m' i, getAPage p false cur true v m = .ok (v, m') ∧ PageGot p cur (v / 4096) i m m') ↔
      v ≠ userVaddrStart := by
  have hstart : userVaddrStart = 0x8048000 := rfl
  constructor
  · rintro ⟨m', i, hget, -⟩ rfl
    rw [getAPage_start huser] at hget
    cases hget
  · intro hne
    obtain ⟨m', i, hget, hgot, -⟩ := getAPage_user huser ht (v := v / 4096) (by omega) (by omega) hun
      hframe htable
    rw [show v / 4096 * 4096 = v by omega] at hget
    exact ⟨m', i, hget, hgot⟩

theorem Maps.run_getAPage {user : Bool} {b r : Nat} (hI : Maps p cur m)
    (hb : b < vaddrLen p cur m user) (hun : frameOf m (page cur m user b) = none)
    (h : getAPage p false cur user (page cur m user b * 4096) m = .ok (r, m')) (hr : r ≠ 0) :
    ∃ i, Run p cur user 1 b (fun _ => i) m m' := by
  have hpage := hI.page_lt hb
  have hbit : bitOf cur m user (page cur m user b * 4096) = b := by
    rw [bitOf, hI.start_eq, page_zero_add cur m user b]
    rw [page_zero_add] at hpage
    omega
  have hclear : vaddrBits cur m user b = false := by
    by_contra hset
    have hmapped := (hI.bits user b hb).mp (by simpa using hset)
    rw [hun] at hmapped
    cases hmapped
  have hset : setBits (vaddrBits cur m user) b 1 true =
      Function.update (vaddrBits cur m user) b true := by
    funext j
    rw [setBits, Function.update_apply]
    by_cases hj : j = b
    · rw [if_pos hj, if_pos (by omega)]
    · rw [if_neg hj, if_neg (by omega)]
  rw [getAPage, Code.get_bind] at h
  dsimp only at h
  split at h
  · cases h
  obtain ⟨_, m₀, hassert, h⟩ := Code.bind_ok.mp h
  obtain rfl := assert_ok hassert
  rw [hbit, if_neg (by omega), Code.modify_bind] at h
  obtain ⟨frame, m₁, halloc, h⟩ := Code.bind_ok.mp h
  cases frame with
  | none => exact absurd (Code.pure_ok.mp h).1 hr
  | some frame =>
      obtain ⟨_, m₂, hadd, hret⟩ := Code.bind_ok.mp h
      obtain ⟨-, rfl⟩ := Code.pure_ok.mp hret
      obtain ⟨i, hmap, ht⟩ := mapping_one (hI.tables.setVaddrBits _) hpage halloc rfl hadd
      refine ⟨i, by omega, ?_, ?_, ht⟩
      · intro k hk
        rw [show b + k = b by omega]
        exact hclear
      · rw [hset]
        exact hmap

/-- A process without pages, with all frames free. -/
def userMachine : Machine :=
  { pagedMachine 0x101 with
    task := fun _ =>
      { nameLen := 4
        pgdir := 0xc0101000
        bits := 0xc0102000
        btmpBytesLen := bitmapBytesLen
        vaddrStart := userVaddrStart } }

theorem userMachine_user : UserProcess userMachine 0 := ⟨by decide, rfl, rfl⟩

private theorem userMachine_tables : Tables smallPools userMachine :=
  pagedMachine_maps.tables.of_same rfl rfl fun _ _ _ _ hf => hf

theorem userMachine_maps : Maps smallPools 0 userMachine := by
  have hlt : ∀ user, ∀ i < vaddrLen smallPools 0 userMachine user,
      page 0 userMachine user i < 0xffc00 := by
    intro user i hi
    cases user with
    | true =>
        change i < 753592 at hi
        change 0x8048000 / 4096 + i < _
        omega
    | false =>
        change i < 8 at hi
        rw [kernel_page_eq]
        omega
  have hnone : ∀ v, Managed smallPools 0 userMachine v → frameOf userMachine v = none := by
    rintro v ⟨user, i, hi, rfl⟩
    exact pagedMachine_frameOf (T := 0x101) (by decide) (hlt user i hi)
  refine ⟨⟨?_, ?_, ?_, ?_⟩, userMachine_tables, by decide, le_rfl⟩
  · intro user i hi
    rw [hnone _ ⟨user, i, hi, rfl⟩]
    cases user <;> simp [vaddrBits, userMachine, pagedMachine]
  · intro v f hv hf
    rw [hnone v hv] at hf
    cases hf
  · intro v w f hv _ hf
    rw [hnone v hv] at hf
    cases hf
  · intro v f hv hf
    rw [hnone v hv] at hf
    cases hf

/-- The page of the stack is the last one of the range. -/
theorem get_a_page_user_stack : ∃ m' i,
    getAPage smallPools false 0 true 0xbffff000 userMachine = .ok (0xbffff000, m') ∧
      PageGot smallPools 0 0xbffff i userMachine m' :=
  (get_a_page_user_iff smallPools 0 0xbffff000 userMachine userMachine_user userMachine_tables
    (by decide) (by decide) (by decide) rfl ⟨0, by decide, rfl⟩ ⟨0, by decide, rfl⟩).mpr (by decide)

/-- A process cannot get its first page. -/
theorem get_a_page_user_start : ¬ ∀ (p : Pools) (cur v : Nat) (m : Machine), UserProcess m cur →
    Tables p m → v % 4096 = 0 → userVaddrStart ≤ v → v < 0xc0000000 → frameOf m (v / 4096) = none →
    (∃ i < p.len true, m.pool true i = false) → (∃ j < p.len false, m.pool false j = false) →
    ∃ m' i, getAPage p false cur true v m = .ok (v, m') ∧ PageGot p cur (v / 4096) i m m' := by
  intro h
  obtain ⟨m', i, hget, -⟩ := h smallPools 0 userVaddrStart userMachine userMachine_user
    userMachine_tables (by decide) le_rfl (by decide) rfl ⟨0, by decide, rfl⟩ ⟨0, by decide, rfl⟩
  rw [getAPage_start userMachine_user] at hget
  cases hget

end Get

end Aitos.Paging
