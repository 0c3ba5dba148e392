import Aitos.Proc.PageWindow

/-!
# Giving out and taking back pages

`malloc_page`, `get_a_page` and `mfree_page` of `mm/memory.c` for both pools, on page tables that
lie in memory and are reached through their window.  `ndebug` says whether `ASSERT` is compiled
out: a search that finds nothing then returns, and the caller has to cope.  The pool locks are
left out.
-/

namespace Aitos.Paging

open Framework Proc.Fork

section Code

variable (p : Pools) (ndebug : Bool) (cur : Nat)

/-- `ASSERT` -/
def assert (c : Prop) [Decidable c] : PgM Unit :=
  if ndebug = true ∨ c then return else throw .assertion

/-- The bits of the virtual bitmap of `PF_USER`, which is that of the running thread `cur`, or of
`PF_KERNEL`. -/
def vaddrBits (m : Machine) : Bool → Nat → Bool
  | true => m.bitmaps (m.task cur).bits
  | false => m.kernelBitmap

/-- `btmp_bytes_len` in bits -/
def vaddrLen (m : Machine) : Bool → Nat
  | true => (m.task cur).btmpBytesLen * 8
  | false => p.len false

def vaddrStart (m : Machine) : Bool → Nat
  | true => (m.task cur).vaddrStart
  | false => 0xc0100000

def setVaddrBits (m : Machine) (user : Bool) (bits : Nat → Bool) : Machine :=
  match user with
  | true => { m with bitmaps := Function.update m.bitmaps (m.task cur).bits bits }
  | false => { m with kernelBitmap := bits }

/-- What `bitmap_scan` finds among `len` bits: the first clear bit, or a run of clear bits that a
count from there on meets. -/
def findRun (bits : Nat → Bool) (len cnt : Nat) : Option Nat :=
  match firstClear bits 0 len with
  | none => none
  | some first => if cnt = 1 then some first else scanRun bits cnt (len - first) (first + 1) 1

/-- `bitmap_scan`; only a bitmap without a clear bit trips its `ASSERT`. -/
def bitmapScan (bits : Nat → Bool) (len cnt : Nat) : PgM (Option Nat) :=
  match firstClear bits 0 len with
  | none => if ndebug then return none else throw .noPages
  | some _ => return findRun bits len cnt

/-- `vaddr_get`; a run that takes the bit behind the last one would write past the bitmap. -/
def vaddrGet (user : Bool) (pgCnt : Nat) : PgM Nat := do
  let m ← get
  match ← bitmapScan ndebug (vaddrBits cur m user) (vaddrLen p cur m user) pgCnt with
  | none => return 0
  | some first =>
      if 0 < pgCnt ∧ vaddrLen p cur m user < first + pgCnt then throw .noPages
      modify fun m => setVaddrBits cur m user (setBits (vaddrBits cur m user) first pgCnt true)
      let vaddr := (vaddrStart cur m user + first * 4096) % 2 ^ 32
      assert ndebug (user = true → vaddr < 0xc0000000 - 4096)
      return vaddr

/-- `palloc`: a frame of the pool. -/
def palloc (user : Bool) : PgM (Option Nat) := do
  match ← bitmapScan ndebug ((← get).pool user) (p.len user) 1 with
  | none => return none
  | some bit =>
      modify fun m => m.setPool user bit true
      return some (p.start user + bit)

/-- `page_table_add`.  A `NULL` from `palloc` goes into the directory like any other address. -/
def pageTableAdd (vaddr frame : Nat) : PgM Unit := do
  if (← load (pdePtr vaddr)) % 2 = 1 then
    if (← load (ptePtr vaddr)) % 2 = 1 then throw .assertion
    store (ptePtr vaddr) (frame * 4096 + 7)
  else
    let table := (← palloc p ndebug false).getD 0
    store (pdePtr vaddr) (table * 4096 + 7)
    memset (ptePtr vaddr / 4096 * 4096) 1
    if ndebug = false then
      if (← load (ptePtr vaddr)) % 2 = 1 then throw .assertion
    store (ptePtr vaddr) (frame * 4096 + 7)

/-- The loop of `malloc_page` -/
def mapPages (user : Bool) (vaddr : Nat) : Nat → PgM Bool
  | 0 => return true
  | cnt + 1 => do
      match ← palloc p ndebug user with
      | none => return false
      | some frame =>
          pageTableAdd p ndebug vaddr frame
          mapPages user ((vaddr + 4096) % 2 ^ 32) cnt

def mallocPage (user : Bool) (pgCnt : Nat) : PgM Nat := do
  assert ndebug (0 < pgCnt ∧ pgCnt < 3840)
  let vaddr ← vaddrGet p ndebug cur user pgCnt
  if vaddr = 0 then return 0
  if ← mapPages p ndebug user vaddr pgCnt then return vaddr else return 0

/-- The bit of `vaddr` in its bitmap. -/
def bitOf (m : Machine) (user : Bool) (vaddr : Nat) : Nat :=
  (vaddr + 2 ^ 32 - vaddrStart cur m user) % 2 ^ 32 / 4096

/-- `get_a_page`; the flag has to fit the running thread. -/
def getAPage (user : Bool) (vaddr : Nat) : PgM Nat := do
  let m ← get
  if user ≠ decide ((m.task cur).pgdir ≠ 0) then throw .assertion
  let bit := bitOf cur m user vaddr
  assert ndebug (0 < bit)
  if vaddrLen p cur m user ≤ bit then throw .noPages
  modify fun m => setVaddrBits cur m user (Function.update (vaddrBits cur m user) bit true)
  match ← palloc p ndebug user with
  | none => return 0
  | some frame =>
      pageTableAdd p ndebug vaddr frame
      return vaddr

/-- The loops of `mfree_page` for the pages of one pool -/
def mfreeLoop (user : Bool) (vaddr : Nat) : Nat → PgM Unit
  | 0 => return
  | cnt + 1 => do
      let phys ← addrV2p vaddr
      assert ndebug (phys % 4096 = 0 ∧ p.start user * 4096 ≤ phys ∧
        (user = false → phys < p.start true * 4096))
      pfree p phys
      pteRemove vaddr
      mfreeLoop user ((vaddr + 4096) % 2 ^ 32) cnt

def vaddrRemove (user : Bool) (vaddr pgCnt : Nat) : PgM Unit :=
  modify fun m => setVaddrBits cur m user
    (setBits (vaddrBits cur m user) (bitOf cur m user vaddr) pgCnt false)

def mfreePage (user : Bool) (vaddr pgCnt : Nat) : PgM Unit := do
  assert ndebug (0 < pgCnt ∧ vaddr % 4096 = 0)
  let phys ← addrV2p vaddr
  assert ndebug (phys % 4096 = 0 ∧ 0x102000 ≤ phys)
  mfreeLoop p ndebug (p.start true * 4096 ≤ phys) vaddr pgCnt
  vaddrRemove cur user vaddr pgCnt

end Code

section Scan

theorem findRun_clear {bits : Nat → Bool} {len cnt i : Nat} (h : findRun bits len cnt = some i) :
    ∀ j, i ≤ j → j < i + cnt → bits j = false := by
  rw [findRun] at h
  cases hfirst : firstClear bits 0 len with
  | none =>
      rw [hfirst] at h
      cases h
  | some first =>
      rw [hfirst] at h
      obtain ⟨-, -, hclear⟩ := firstClear_some hfirst
      have hone : ∀ j, first + 1 - 1 ≤ j → j < first + 1 → bits j = false := by
        intro j hj hj'
        rw [show j = first by omega]
        exact hclear
      dsimp only at h
      split at h
      · rename_i hcnt
        cases h
        intro j hj hj'
        exact hone j (by omega) (by omega)
      · exact scanRun_some _ (by omega) hone h

private theorem findRun_one_lt {bits : Nat → Bool} {len i : Nat} (h : findRun bits len 1 = some i) :
    i < len := by
  rw [findRun] at h
  cases hfirst : firstClear bits 0 len with
  | none =>
      rw [hfirst] at h
      cases h
  | some first =>
      rw [hfirst] at h
      obtain ⟨-, hlt, -⟩ := firstClear_some hfirst
      cases h
      omega

theorem bitmapScan_ok {ndebug : Bool} {bits : Nat → Bool} {len cnt : Nat} {r : Option Nat}
    {m m' : Machine} (h : bitmapScan ndebug bits len cnt m = .ok (r, m')) :
    r = findRun bits len cnt ∧ m' = m := by
  rw [bitmapScan] at h
  cases hfirst : firstClear bits 0 len with
  | none =>
      rw [hfirst] at h
      dsimp only at h
      split at h
      · rw [findRun, hfirst]
        exact Code.pure_ok.mp h
      · exact (Code.throw_ok.mp h).elim
  | some first =>
      rw [hfirst] at h
      exact Code.pure_ok.mp h

end Scan

/-- What the page allocator leaves alone once the virtual pages are chosen: frames are taken and
tables written, but no virtual bitmap changes and no frame is given back. -/
structure Grows (m m' : Machine) : Prop where
  cr3 : m'.cr3 = m.cr3
  task : m'.task = m.task
  kernelBitmap : m'.kernelBitmap = m.kernelBitmap
  bitmaps : m'.bitmaps = m.bitmaps
  pool : ∀ user i, m.pool user i = true → m'.pool user i = true

instance : IsPreorder Machine Grows where
  refl _ := ⟨rfl, rfl, rfl, rfl, fun _ _ h => h⟩
  trans _ _ _ h h' :=
    ⟨h'.cr3.trans h.cr3, h'.task.trans h.task, h'.kernelBitmap.trans h.kernelBitmap,
      h'.bitmaps.trans h.bitmaps, fun user i hi => h'.pool user i (h.pool user i hi)⟩

theorem grows_setPage (m : Machine) (f : Nat) (ws : Nat → Nat) : Grows m (m.setPage f ws) :=
  ⟨rfl, rfl, rfl, rfl, fun _ _ h => h⟩

theorem setPool_true {m : Machine} {user u : Bool} {i j : Nat} :
    (m.setPool user i true).pool u j = true ↔ m.pool u j = true ∨ (u = user ∧ j = i) := by
  simp only [Machine.setPool, Function.update_apply]
  by_cases hu : u = user
  · subst hu
    by_cases hj : j = i
    · simp [hj]
    · simp [hj]
  · simp [hu]

theorem grows_setPool (m : Machine) (user : Bool) (i : Nat) : Grows m (m.setPool user i true) :=
  ⟨rfl, rfl, rfl, rfl, fun _ _ h => setPool_true.mpr (.inl h)⟩

section Grows

variable {p : Pools} {ndebug : Bool}

private theorem grows_translate (a : Nat) : Keeps Grows (translate a) := by
  refine Keeps.get.bind fun m₁ => ?_
  refine Keeps.get.bind fun m₂ => ?_
  cases m₁.walkFrom m₂.cr3 (a / 4096) with
  | none => exact Keeps.throw
  | some f => exact Keeps.pure

private theorem grows_load (a : Nat) : Keeps Grows (load a) := by
  apply (grows_translate a).bind
  intro f
  exact Keeps.get.bind fun _ => Keeps.pure

private theorem grows_store (a v : Nat) : Keeps Grows (store a v) := by
  apply (grows_translate a).bind
  intro f
  exact Keeps.modify fun m => grows_setPage m f _

private theorem grows_memset (n : Nat) : ∀ a, Keeps Grows (memset a n) := by
  induction n with
  | zero =>
      intro a
      exact Keeps.pure
  | succ n ih =>
      intro a
      apply (grows_translate a).bind
      intro f
      apply (Keeps.modify fun m => grows_setPage m f _).bind
      intro _
      exact ih _

private theorem bitmapScan_keeps {bits : Nat → Bool} {len cnt : Nat} :
    Keeps Grows (bitmapScan ndebug bits len cnt) := by
  intro m r m' h
  obtain ⟨-, rfl⟩ := bitmapScan_ok h
  exact refl_of Grows _

private theorem grows_palloc (user : Bool) : Keeps Grows (palloc p ndebug user) := by
  refine Keeps.get.bind fun m => ?_
  apply bitmapScan_keeps.bind
  intro r
  cases r with
  | none => exact Keeps.pure
  | some bit => exact (Keeps.modify fun m => grows_setPool m user bit).bind fun _ => Keeps.pure

theorem grows_pageTableAdd (vaddr frame : Nat) :
    Keeps Grows (pageTableAdd p ndebug vaddr frame) := by
  have hset : Keeps Grows (store (ptePtr vaddr) (frame * 4096 + 7)) := grows_store _ _
  have hcheck : Keeps Grows (do
      if (← load (ptePtr vaddr)) % 2 = 1 then throw .assertion
      store (ptePtr vaddr) (frame * 4096 + 7)) := by
    apply (grows_load _).bind
    intro pte
    exact Keeps.ite (Keeps.throw.bind fun _ => hset) hset
  rw [pageTableAdd]
  apply (grows_load _).bind
  intro pde
  apply Keeps.ite hcheck
  apply (grows_palloc false).bind
  intro table
  apply (grows_store _ _).bind
  intro _
  apply (grows_memset 1 _).bind
  intro _
  exact Keeps.ite hcheck hset

private theorem grows_mapPages (user : Bool) (cnt : Nat) :
    ∀ vaddr, Keeps Grows (mapPages p ndebug user vaddr cnt) := by
  induction cnt with
  | zero =>
      intro vaddr
      exact Keeps.pure
  | succ cnt ih =>
      intro vaddr
      apply (grows_palloc user).bind
      intro frame
      cases frame with
      | none => exact Keeps.pure
      | some frame => exact (grows_pageTableAdd vaddr frame).bind fun _ => ih _

end Grows

section Bits

variable {cur : Nat} {m m' : Machine}

@[simp]
theorem vaddrBits_setVaddrBits (user : Bool) (bits : Nat → Bool) :
    vaddrBits cur (setVaddrBits cur m user bits) user = bits := by
  cases user with
  | true => exact Function.update_self ..
  | false => rfl

theorem vaddrBits_grows (h : Grows m m') (user : Bool) :
    vaddrBits cur m' user = vaddrBits cur m user := by
  cases user with
  | true => rw [vaddrBits, vaddrBits, h.bitmaps, h.task]
  | false => exact h.kernelBitmap

theorem assert_ok {ndebug : Bool} {c : Prop} [Decidable c] {u : Unit}
    (h : assert ndebug c m = .ok (u, m')) : m' = m := by
  rw [assert] at h
  split at h
  · exact (Code.pure_ok.mp h).2
  · exact (Code.throw_ok.mp h).elim

theorem assert_holds {c : Prop} [Decidable c] {u : Unit} (h : assert false c m = .ok (u, m')) :
    c := by
  rw [assert] at h
  split at h
  · rename_i hc
    simpa using hc
  · exact (Code.throw_ok.mp h).elim

private theorem setBits_zero (bits : Nat → Bool) (i : Nat) (v : Bool) :
    setBits bits i 0 v = bits := by
  funext j
  rw [setBits, if_neg (by omega)]

private theorem setVaddrBits_self (user : Bool) :
    setVaddrBits cur m user (vaddrBits cur m user) = m := by
  cases user with
  | true =>
      rw [setVaddrBits, vaddrBits]
      simp only [Function.update_eq_self]
  | false => rfl

end Bits

section Failure

variable {p : Pools} {ndebug user : Bool} {cur n vaddr : Nat} {m m' : Machine}

/-- The virtual bitmaps, the pool bitmaps and memory with its page tables. -/
structure SameMaps (m m' : Machine) : Prop where
  kernelBitmap : m'.kernelBitmap = m.kernelBitmap
  bitmaps : m'.bitmaps = m.bitmaps
  pool : m'.pool = m.pool
  ram : m'.ram = m.ram

theorem SameMaps.refl (m : Machine) : SameMaps m m := ⟨rfl, rfl, rfl, rfl⟩

theorem SameMaps.vaddrBits (h : SameMaps m m') (htask : m'.task = m.task) :
    vaddrBits cur m' user = vaddrBits cur m user := by
  cases user with
  | true => rw [Paging.vaddrBits, Paging.vaddrBits, h.bitmaps, htask]
  | false => exact h.kernelBitmap

theorem vaddrGet_ok {r : Nat} (h : vaddrGet p ndebug cur user n m = .ok (r, m')) :
    (findRun (vaddrBits cur m user) (vaddrLen p cur m user) n = none ∧ r = 0 ∧ m' = m) ∨
    ∃ i, findRun (vaddrBits cur m user) (vaddrLen p cur m user) n = some i ∧
      (0 < n → i + n ≤ vaddrLen p cur m user) ∧
      r = (vaddrStart cur m user + i * 4096) % 2 ^ 32 ∧
      m' = setVaddrBits cur m user (setBits (vaddrBits cur m user) i n true) := by
  rw [vaddrGet, Code.get_bind] at h
  obtain ⟨found, m₁, hscan, hrest⟩ := Code.bind_ok.mp h
  obtain ⟨hfound, rfl⟩ := bitmapScan_ok hscan
  cases hrun : findRun (vaddrBits cur m₁ user) (vaddrLen p cur m₁ user) n with
  | none =>
      rw [hfound, hrun] at hrest
      obtain ⟨hr, hm⟩ := Code.pure_ok.mp hrest
      exact .inl ⟨rfl, hr, hm⟩
  | some i =>
      rw [hfound, hrun] at hrest
      dsimp only at hrest
      split at hrest
      · obtain ⟨_, _, hstop, -⟩ := Code.bind_ok.mp hrest
        exact (Code.throw_ok.mp hstop).elim
      · rename_i hin
        rw [Code.modify_bind] at hrest
        obtain ⟨_, m₂, hassert, hret⟩ := Code.bind_ok.mp hrest
        obtain ⟨hr, rfl⟩ := Code.pure_ok.mp hret
        exact .inr ⟨i, rfl, by omega, hr, assert_ok hassert⟩

theorem palloc_ok {r : Option Nat} (h : palloc p ndebug user m = .ok (r, m')) :
    (findRun (m.pool user) (p.len user) 1 = none ∧ r = none ∧ m' = m) ∨
    ∃ i < p.len user, m.pool user i = false ∧ r = some (p.start user + i) ∧
      findRun (m.pool user) (p.len user) 1 = some i ∧ m' = m.setPool user i true := by
  rw [palloc, Code.get_bind] at h
  obtain ⟨found, m₁, hscan, hrest⟩ := Code.bind_ok.mp h
  obtain ⟨hfound, rfl⟩ := bitmapScan_ok hscan
  cases hrun : findRun (m₁.pool user) (p.len user) 1 with
  | none =>
      rw [hfound, hrun] at hrest
      obtain ⟨hr, hm⟩ := Code.pure_ok.mp hrest
      exact .inl ⟨rfl, hr, hm⟩
  | some i =>
      rw [hfound, hrun] at hrest
      dsimp only at hrest
      rw [Code.modify_bind] at hrest
      obtain ⟨hr, hm⟩ := Code.pure_ok.mp hrest
      exact .inr ⟨i, findRun_one_lt hrun, findRun_clear hrun i le_rfl (by omega), hr, rfl, hm⟩

/-- The pages that `vaddr_get` has marked stay marked when a frame is missing. -/
private theorem mallocPage_null (h : mallocPage p ndebug cur user n m = .ok (0, m')) :
    (findRun (vaddrBits cur m user) (vaddrLen p cur m user) n = none ∧ m' = m) ∨
    ∃ i, findRun (vaddrBits cur m user) (vaddrLen p cur m user) n = some i ∧
      vaddrBits cur m' user = setBits (vaddrBits cur m user) i n true ∧ m'.task = m.task ∧
      (n = 0 → m' = m) := by
  rw [mallocPage] at h
  obtain ⟨_, m₀, hassert, hrest⟩ := Code.bind_ok.mp h
  obtain rfl := assert_ok hassert
  obtain ⟨r, m₁, hget, hmap⟩ := Code.bind_ok.mp hrest
  rcases vaddrGet_ok hget with ⟨hnone, rfl, rfl⟩ | ⟨i, hsome, -, -, rfl⟩
  · rw [if_pos rfl] at hmap
    exact .inl ⟨hnone, (Code.pure_ok.mp hmap).2⟩
  · have htask : ∀ bits, (setVaddrBits cur m₀ user bits).task = m₀.task := by
      intro bits
      cases user <;> rfl
    have hzero : n = 0 →
        setVaddrBits cur m₀ user (setBits (vaddrBits cur m₀ user) i n true) = m₀ := by
      rintro rfl
      rw [setBits_zero, setVaddrBits_self]
    refine .inr ⟨i, hsome, ?_⟩
    split at hmap
    · obtain ⟨-, rfl⟩ := Code.pure_ok.mp hmap
      exact ⟨vaddrBits_setVaddrBits user _, htask _, hzero⟩
    · obtain ⟨done, m₂, hpages, hret⟩ := Code.bind_ok.mp hmap
      have hm : m' = m₂ := by
        cases done <;> exact (Code.pure_ok.mp hret).2
      have hg := grows_mapPages user n r _ _ _ hpages
      refine ⟨?_, ?_, ?_⟩
      · rw [hm, vaddrBits_grows hg, vaddrBits_setVaddrBits]
      · rw [hm, hg.task, htask]
      · intro hn
        rw [hzero hn] at hpages
        subst hn
        rw [hm]
        exact (Code.pure_ok.mp hpages).2

private theorem mallocPage_null_iff (h : mallocPage p ndebug cur user n m = .ok (0, m')) :
    SameMaps m m' ↔ n = 0 ∨ findRun (vaddrBits cur m user) (vaddrLen p cur m user) n = none := by
  rcases mallocPage_null h with ⟨hnone, rfl⟩ | ⟨i, hsome, hbits, htask, hzero⟩
  · exact ⟨fun _ => .inr hnone, fun _ => .refl m'⟩
  · constructor
    · intro hsame
      by_contra hcon
      rw [not_or] at hcon
      have hclear := findRun_clear hsome i le_rfl (by omega)
      rw [← hsame.vaddrBits htask, hbits, setBits, if_pos (by omega)] at hclear
      cases hclear
    · rintro (hn | hnone)
      · rw [hzero hn]
        exact .refl m
      · rw [hnone] at hsome
        cases hsome

/-- A page without a frame keeps its bit, and a frame that was taken stays taken. -/
private theorem getAPage_null (h : getAPage p ndebug cur user vaddr m = .ok (0, m')) :
    vaddrBits cur m' user =
        Function.update (vaddrBits cur m user) (bitOf cur m user vaddr) true ∧
      m'.task = m.task ∧
      ((findRun (m.pool user) (p.len user) 1 = none ∧
        m' = setVaddrBits cur m user (Function.update (vaddrBits cur m user)
          (bitOf cur m user vaddr) true)) ∨
      ∃ i, findRun (m.pool user) (p.len user) 1 = some i ∧ m'.pool user i = true) := by
  have htask : ∀ bits, (setVaddrBits cur m user bits).task = m.task := by
    intro bits
    cases user <;> rfl
  have hpool : ∀ bits, (setVaddrBits cur m user bits).pool = m.pool := by
    intro bits
    cases user <;> rfl
  rw [getAPage, Code.get_bind] at h
  dsimp only at h
  split at h
  · obtain ⟨_, _, hstop, -⟩ := Code.bind_ok.mp h
    exact (Code.throw_ok.mp hstop).elim
  · obtain ⟨_, m₀, hassert, hlen⟩ := Code.bind_ok.mp h
    obtain rfl := assert_ok hassert
    split at hlen
    · obtain ⟨_, _, hstop, -⟩ := Code.bind_ok.mp hlen
      exact (Code.throw_ok.mp hstop).elim
    · rw [Code.modify_bind] at hlen
      obtain ⟨frame, m₁, halloc, hadd⟩ := Code.bind_ok.mp hlen
      rcases palloc_ok halloc with ⟨hnone, rfl, rfl⟩ | ⟨i, -, -, rfl, hsome, rfl⟩
      · obtain ⟨-, rfl⟩ := Code.pure_ok.mp hadd
        rw [hpool] at hnone
        exact ⟨vaddrBits_setVaddrBits user _, htask _, .inl ⟨hnone, rfl⟩⟩
      · obtain ⟨_, m₂, hpage, hret⟩ := Code.bind_ok.mp hadd
        obtain ⟨-, rfl⟩ := Code.pure_ok.mp hret
        have hg := trans_of Grows (grows_setPool _ user i) (grows_pageTableAdd _ _ _ _ _ hpage)
        refine ⟨?_, ?_, .inr ⟨i, ?_, ?_⟩⟩
        · rw [vaddrBits_grows hg, vaddrBits_setVaddrBits]
        · rw [hg.task, htask]
        · rw [← hpool]
          exact hsome
        · have hgrow := grows_pageTableAdd _ _ _ _ _ hpage
          exact hgrow.pool user i (setPool_true.mpr (.inr ⟨rfl, rfl⟩))

private theorem getAPage_null_iff (h : getAPage p ndebug cur user vaddr m = .ok (0, m')) :
    SameMaps m m' ↔ vaddrBits cur m user (bitOf cur m user vaddr) = true ∧
      findRun (m.pool user) (p.len user) 1 = none := by
  obtain ⟨hbits, htask, hframe⟩ := getAPage_null h
  constructor
  · intro hsame
    constructor
    · rw [← hsame.vaddrBits htask, hbits]
      exact Function.update_self ..
    · rcases hframe with ⟨hnone, -⟩ | ⟨i, hsome, hset⟩
      · exact hnone
      · rw [hsame.pool, findRun_clear hsome i le_rfl (by omega)] at hset
        cases hset
  · rintro ⟨hbit, hnone⟩
    rcases hframe with ⟨-, rfl⟩ | ⟨i, hsome, -⟩
    · rw [Function.update_eq_self_iff.mpr hbit.symm, setVaddrBits_self]
      exact .refl m
    · rw [hnone] at hsome
      cases hsome

/-- A call that returns `NULL` has undone what it did only where it had done nothing: `malloc_page`
when its scan of the virtual bitmap fails, `get_a_page` when the page was marked before. -/
theorem null_undone_iff (p : Pools) (ndebug : Bool) (cur : Nat) (user : Bool) (m m' : Machine) :
    (∀ n, mallocPage p ndebug cur user n m = .ok (0, m') →
      (SameMaps m m' ↔
        n = 0 ∨ findRun (vaddrBits cur m user) (vaddrLen p cur m user) n = none)) ∧
    ∀ vaddr, getAPage p ndebug cur user vaddr m = .ok (0, m') →
      (SameMaps m m' ↔ vaddrBits cur m user (bitOf cur m user vaddr) = true ∧
        findRun (m.pool user) (p.len user) 1 = none) :=
  ⟨fun _ h => mallocPage_null_iff h, fun _ h => getAPage_null_iff h⟩

/-- Pools of eight frames each. -/
def smallPools : Pools where
  len := fun _ => 8
  userStart := 0x208
  kernelFits := by decide
  heapFits := by decide

/-- A kernel thread on a machine whose kernel pool is used up. -/
def fullMachine (bits : Nat → Bool) : Machine where
  ram := fun _ _ => 0
  cr3 := 0x100
  pool := fun user _ => !user
  kernelBitmap := bits
  bitmaps := fun _ _ => false
  task := fun _ =>
    { nameLen := 4, pgdir := 0, bits := 0, btmpBytesLen := 0, vaddrStart := 0 }

private theorem mallocPage_fullMachine :
    mallocPage smallPools true 0 false 2 (fullMachine fun _ => false) =
    .ok (0, fullMachine (setBits (fun _ => false) 0 2 true)) := rfl

private theorem mallocPage_noRun :
    mallocPage smallPools true 0 false 2 (fullMachine fun _ => true) =
    .ok (0, fullMachine fun _ => true) := rfl

theorem null_undone_noRun :
    SameMaps (fullMachine fun _ => true) (fullMachine fun _ => true) :=
  ((null_undone_iff smallPools true 0 false _ _).1 2 mallocPage_noRun).mpr (.inr rfl)

/-- Two kernel pages stay marked when there is no frame for them. -/
theorem null_keeps_pages : ¬ ∀ (p : Pools) (cur : Nat) (user : Bool) (n : Nat) (m m' : Machine),
    mallocPage p true cur user n m = .ok (0, m') → SameMaps m m' := by
  intro h
  have hsame := h _ _ _ _ _ _ mallocPage_fullMachine
  have hbit := congrFun hsame.kernelBitmap 0
  exact absurd hbit (by decide)

end Failure

end Aitos.Paging
