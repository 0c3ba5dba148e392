import Aitos.Mm.PageMaps

/-!
# Pages own their frames

The virtual bitmaps, the pool bitmaps and the page tables say the same about every managed page:
its bit is set when it is mapped, and then to a frame of its own whose pool bit is set.
`malloc_page` keeps this and `mfree_page` takes a run of pages back.  Both need that the page
tables are not free frames themselves and that no two entries of the directory share one.
-/

namespace Aitos.Paging

open Framework Proc.Fork

/-- The frame that an entry of the directory or of a table names. -/
def entry (w : Nat) : Option Nat := if w % 2 = 1 then some (w / 4096) else none

@[simp]
theorem entry_zero : entry 0 = none := rfl

@[simp]
theorem entry_frame_flags (f : Nat) : entry (f * 4096 + 7) = some f := by
  rw [entry, if_pos (entry_odd f), entry_frame]

theorem entry_none {w : Nat} : entry w = none ↔ w % 2 ≠ 1 := by
  rw [entry]
  split <;> simp_all

/-- The page table of directory entry `t`, and the frame of page `v`. -/
def tableOf (m : Machine) (t : Nat) : Option Nat := entry (m.ram m.cr3 t)

def frameOf (m : Machine) (v : Nat) : Option Nat := m.walkFrom m.cr3 v

private theorem frameOf_eq (m : Machine) (v : Nat) :
    frameOf m v = (tableOf m (v / 1024)).bind fun T => entry (m.ram T (v % 1024)) := by
  rw [frameOf, Machine.walkFrom, tableOf, entry]
  split <;> rfl

theorem frameOf_of_table {m : Machine} {v T : Nat} (h : tableOf m (v / 1024) = some T) :
    frameOf m v = entry (m.ram T (v % 1024)) := by
  rw [frameOf_eq, h]
  rfl

theorem frameOf_of_noTable {m : Machine} {v : Nat} (h : tableOf m (v / 1024) = none) :
    frameOf m v = none := by
  rw [frameOf_eq, h]
  rfl

/-- The directory names itself last, and every table is a frame of its own that no pool gives
out. -/
structure Tables (p : Pools) (m : Machine) : Prop where
  window : m.Window m.cr3
  taken : ∀ t < 1024, ∀ f, tableOf m t = some f → Taken p m f
  inj : ∀ t < 1024, ∀ u < 1024, ∀ f, tableOf m t = some f → tableOf m u = some f → t = u

section Tables

variable {p : Pools} {m m' : Machine} {v T e : Nat}

theorem Tables.self (h : Tables p m) : tableOf m 1023 = some m.cr3 := by
  rw [tableOf, h.window, entry_frame_flags]

theorem Tables.ne_cr3 (h : Tables p m) {t : Nat} (ht : t < 1023) (hT : tableOf m t = some T) :
    T ≠ m.cr3 := by
  rintro rfl
  have := h.inj t (by omega) 1023 (by omega) _ hT h.self
  omega

theorem Tables.takenSelf (h : Tables p m) : Taken p m m.cr3 := h.taken 1023 (by omega) _ h.self

theorem tableOf_setWord (h : T ≠ m.cr3) (x : Nat) (t : Nat) :
    tableOf (m.setWord T x e) t = tableOf m t := by
  rw [tableOf, tableOf]
  change entry ((m.setWord T x e).ram m.cr3 t) = _
  rw [setWord_ram_of_ne (Ne.symm h)]

theorem Tables.frameOf_setWord (h : Tables p m) (hv : v < 0xffc00)
    (hT : tableOf m (v / 1024) = some T) {w : Nat} (hw : w < 0xffc00) :
    frameOf (m.setWord T (v % 1024) e) w = if w = v then entry e else frameOf m w := by
  have hne := h.ne_cr3 (by omega) hT
  by_cases htable : w / 1024 = v / 1024
  · have hTw : tableOf m (w / 1024) = some T := by
      rw [htable, hT]
    rw [frameOf_of_table ((tableOf_setWord hne _ _).trans hTw), setWord_ram_self]
    by_cases hwv : w = v
    · rw [if_pos hwv, hwv, Function.update_self]
    · rw [if_neg hwv, Function.update_of_ne (by omega), frameOf_of_table hTw]
  · rw [if_neg (by rintro rfl; exact htable rfl)]
    cases hU : tableOf m (w / 1024) with
    | none => rw [frameOf_of_noTable hU, frameOf_of_noTable ((tableOf_setWord hne _ _).trans hU)]
    | some U =>
        have hUT : U ≠ T := by
          rintro rfl
          exact htable (h.inj _ (by omega) _ (by omega) _ hU hT)
        rw [frameOf_of_table hU, frameOf_of_table ((tableOf_setWord hne _ _).trans hU),
          setWord_ram_of_ne hUT]

theorem Tables.of_same (h : Tables p m) (hcr3 : m'.cr3 = m.cr3)
    (hdir : m'.ram m.cr3 = m.ram m.cr3)
    (htaken : ∀ t < 1024, ∀ f, tableOf m t = some f → Taken p m f → Taken p m' f) :
    Tables p m' := by
  have htable : ∀ t, tableOf m' t = tableOf m t := by
    intro t
    rw [tableOf, tableOf, hcr3, hdir]
  refine ⟨?_, ?_, ?_⟩
  · rw [Machine.Window, hcr3, hdir]
    exact h.window
  · intro t ht f hf
    rw [htable] at hf
    exact htaken t ht f hf (h.taken t ht f hf)
  · intro t ht u hu f hf hf'
    rw [htable] at hf hf'
    exact h.inj t ht u hu f hf hf'

end Tables

/-- A frame that holds a page table of `m'` and none of `m`. -/
def NewTable (m m' : Machine) (f : Nat) : Prop :=
  ∃ t < 1023, tableOf m t = none ∧ tableOf m' t = some f

/-- From `m` to `m'` the `n` pages from `v` on are mapped to the frames `fr` of a pool. -/
structure Mapping (p : Pools) (user : Bool) (v n : Nat) (fr : Nat → Nat) (m m' : Machine) :
    Prop where
  grows : Grows m m'
  frame : ∀ k < n, fr k < p.len user
  clear : ∀ k < n, m.pool user (fr k) = false
  set : ∀ k < n, m'.pool user (fr k) = true
  distinct : ∀ j < n, ∀ k < n, fr j = fr k → j = k
  unmapped : ∀ k < n, frameOf m (v + k) = none
  mapped : ∀ k < n, frameOf m' (v + k) = some (p.start user + fr k)
  others : ∀ w < 0xffc00, w < v ∨ v + n ≤ w → frameOf m' w = frameOf m w
  table : ∀ t f, tableOf m t = some f → tableOf m' t = some f
  newTable : ∀ t < 1024, ∀ f, tableOf m' t = some f → tableOf m t = some f ∨
    (tableOf m t = none ∧ t < 1023 ∧ (∃ j < p.len false, f = p.start false + j ∧
      m.pool false j = false) ∧ ∀ k < n, f ≠ p.start user + fr k)
  pool : ∀ u j, m'.pool u j = true → m.pool u j = true ∨ (u = user ∧ ∃ k < n, j = fr k) ∨
    (u = false ∧ NewTable m m' (p.start false + j))

section Step

variable {p : Pools} {user : Bool} {v i : Nat} {m m' : Machine}

private theorem palloc_bind {α : Type} (k : Nat → PgM α) :
    (palloc p false user >>= fun frame => k (frame.getD 0)) = Proc.Fork.palloc p user >>= k := by
  funext m
  rw [palloc, Proc.Fork.palloc, bind_assoc, bind_assoc, Code.get_bind, Code.get_bind, bitmapScan]
  cases hfirst : firstClear (m.pool user) 0 (p.len user) with
  | none => rfl
  | some first =>
      rw [findRun, hfirst]
      rfl

theorem pageTableAdd_eq (vaddr frame : Nat) :
    pageTableAdd p false vaddr frame = Proc.Fork.pageTableAdd p vaddr frame := by
  rw [pageTableAdd, Proc.Fork.pageTableAdd]
  simp only [if_true, palloc_bind fun table => do
    store (pdePtr vaddr) (table * 4096 + 7)
    memset (ptePtr vaddr / 4096 * 4096) 1
    if (← load (ptePtr vaddr)) % 2 = 1 then throw .assertion
    store (ptePtr vaddr) (frame * 4096 + 7)]

theorem pageTableAdd_ok {frame : Nat} {u : Unit} (ht : Tables p m) (hv : v < 0xffc00)
    (h : pageTableAdd p false (v * 4096) frame m = .ok (u, m')) :
    Added p m m.cr3 (v * 4096) frame m' := by
  rw [pageTableAdd_eq] at h
  have hwp : wp (Proc.Fork.pageTableAdd p (v * 4096) frame) Any
      (fun _ m' => Added p m m.cr3 (v * 4096) frame m') m :=
    wp_pageTableAdd ht.window ht.takenSelf (by omega) (by omega) fun _ hadd => hadd
  have hadd := wp_ok hwp h
  exact hadd

theorem not_taken_ne {f : Nat} (hi : i < p.len user) (hclear : m.pool user i = false)
    (hf : Taken p m f) : f ≠ p.start user + i := by
  rintro rfl
  exact not_taken hi hclear hf

theorem Tables.setPool (h : Tables p m) : Tables p (m.setPool user i true) :=
  h.of_same rfl rfl fun _ _ _ _ hf => hf.setPool

/-- A new page table in frame `j` of the kernel pool, with the entry `e` for page `v` -/
def withTable (p : Pools) (m : Machine) (v j e : Nat) : Machine :=
  ((m.setPool false j true).setWord m.cr3 (v / 1024) ((p.start false + j) * 4096 + 7)).setPage
    (p.start false + j) (Function.update (fun _ => 0) (v % 1024) e)

private theorem withTable_pool {j e k : Nat} {b : Bool} :
    (withTable p m v j e).pool b k = true ↔ m.pool b k = true ∨ (b = false ∧ k = j) :=
  setPool_true

private theorem grows_withTable (j e : Nat) : Grows m (withTable p m v j e) :=
  trans_of Grows (grows_setPool m false j)
    (trans_of Grows (grows_setPage _ _ _) (grows_setPage _ _ _))

private theorem Tables.dir_withTable (ht : Tables p m) {j : Nat} (hj : j < p.len false)
    (hclear : m.pool false j = false) (e : Nat) : (withTable p m v j e).ram m.cr3 =
      Function.update (m.ram m.cr3) (v / 1024) ((p.start false + j) * 4096 + 7) := by
  have hcr3 : m.cr3 ≠ p.start false + j := not_taken_ne hj hclear ht.takenSelf
  rw [withTable, setPage_ram_of_ne hcr3, setWord_ram_self]
  rfl

theorem Tables.tableOf_withTable (ht : Tables p m) {j : Nat} (hj : j < p.len false)
    (hclear : m.pool false j = false) (e t : Nat) :
    tableOf (withTable p m v j e) t =
      if t = v / 1024 then some (p.start false + j) else tableOf m t := by
  rw [tableOf, tableOf]
  change entry ((withTable p m v j e).ram m.cr3 t) = _
  rw [ht.dir_withTable hj hclear]
  by_cases htv : t = v / 1024
  · rw [if_pos htv, htv, Function.update_self, entry_frame_flags]
  · rw [if_neg htv, Function.update_of_ne htv]

theorem Tables.frameOf_withTable (ht : Tables p m) (hv : v < 0xffc00) {j : Nat}
    (hj : j < p.len false) (hclear : m.pool false j = false) (hT : tableOf m (v / 1024) = none)
    (e : Nat) {w : Nat} (hw : w < 0xffc00) :
    frameOf (withTable p m v j e) w = if w = v then entry e else frameOf m w := by
  have htable := fun t => ht.tableOf_withTable (v := v) hj hclear e t
  by_cases hwt : w / 1024 = v / 1024
  · have hTw : tableOf (withTable p m v j e) (w / 1024) = some (p.start false + j) := by
      rw [htable, if_pos hwt]
    rw [frameOf_of_table hTw, withTable, setPage_ram_self]
    by_cases hwv : w = v
    · rw [if_pos hwv, hwv, Function.update_self]
    · have hTw' : tableOf m (w / 1024) = none := by
        rw [hwt, hT]
      rw [if_neg hwv, Function.update_of_ne (by omega), frameOf_of_noTable hTw', entry_zero]
  · rw [if_neg (by rintro rfl; exact hwt rfl)]
    have hsame : tableOf (withTable p m v j e) (w / 1024) = tableOf m (w / 1024) := by
      rw [htable, if_neg hwt]
    cases hU : tableOf m (w / 1024) with
    | none => rw [frameOf_of_noTable hU, frameOf_of_noTable (hsame.trans hU)]
    | some U =>
        have hnew : U ≠ p.start false + j :=
          not_taken_ne hj hclear (ht.taken _ (by omega) U hU)
        rw [frameOf_of_table hU, frameOf_of_table (hsame.trans hU), withTable,
          setPage_ram_of_ne hnew, setWord_ram_of_ne (ht.ne_cr3 (by omega) hU)]
        rfl

private theorem Tables.withTable (ht : Tables p m) (hv : v < 0xffc00) {j : Nat}
    (hj : j < p.len false) (hclear : m.pool false j = false) (e : Nat) :
    Tables p (withTable p m v j e) := by
  have htable := fun t => ht.tableOf_withTable (v := v) hj hclear e t
  have hold : ∀ t < 1024, ∀ f, tableOf m t = some f → f ≠ p.start false + j :=
    fun t htlt f hf => not_taken_ne hj hclear (ht.taken t htlt f hf)
  refine ⟨?_, ?_, ?_⟩
  · change (Paging.withTable p m v j e).ram m.cr3 1023 = m.cr3 * 4096 + 7
    rw [ht.dir_withTable hj hclear, Function.update_of_ne (by omega)]
    exact ht.window
  · intro t htlt f hf
    rw [htable] at hf
    split at hf
    · cases hf
      intro u k hk heq
      obtain ⟨rfl, rfl⟩ := start_inj hj hk heq
      exact withTable_pool.mpr (.inr ⟨rfl, rfl⟩)
    · intro u k hk heq
      exact (grows_withTable j e).pool u k (ht.taken t htlt f hf u k hk heq)
  · intro t htlt u hult f hf hf'
    rw [htable] at hf hf'
    split at hf
    · split at hf'
      · omega
      · cases hf
        exact absurd rfl (hold u hult _ hf')
    · split at hf'
      · cases hf'
        exact absurd rfl (hold t htlt _ hf)
      · exact ht.inj t htlt u hult f hf hf'

/-- The page table is there already. -/
private theorem mapping_entry (ht : Tables p m) (hv : v < 0xffc00) (hi : i < p.len user)
    (hclear : m.pool user i = false) {T : Nat} (hT : tableOf m (v / 1024) = some T)
    (hfree : entry (m.ram T (v % 1024)) = none)
    (hm : m' = (m.setPool user i true).setWord T (v % 1024) ((p.start user + i) * 4096 + 7)) :
    Mapping p user v 1 (fun _ => i) m m' ∧ Tables p m' := by
  have hne := ht.ne_cr3 (by omega) hT
  have ht₁ : Tables p (m.setPool user i true) := ht.setPool
  have hpool : ∀ u j, m'.pool u j = true ↔ m.pool u j = true ∨ (u = user ∧ j = i) := by
    intro u j
    rw [hm]
    exact setPool_true
  have htable : ∀ t, tableOf m' t = tableOf m t := by
    intro t
    rw [hm]
    exact tableOf_setWord (m := m.setPool user i true) hne _ _
  have hframe : ∀ w < 0xffc00, frameOf m' w =
      if w = v then some (p.start user + i) else frameOf m w := by
    intro w hw
    rw [hm, ht₁.frameOf_setWord hv hT hw, entry_frame_flags]
    rfl
  refine ⟨?_, ?_⟩
  · exact
      { grows := by
          rw [hm]
          exact trans_of Grows (grows_setPool m user i) (grows_setPage _ _ _)
        frame := fun _ _ => hi
        clear := fun _ _ => hclear
        set := fun _ _ => (hpool user i).mpr (.inr ⟨rfl, rfl⟩)
        distinct := fun j hj k hk _ => by omega
        unmapped := by
          intro k hk
          rw [show v + k = v by omega, frameOf_of_table hT, hfree]
        mapped := by
          intro k hk
          rw [show v + k = v by omega, hframe v hv, if_pos rfl]
        others := by
          intro w hw hout
          rw [hframe w hw, if_neg (by omega)]
        table := by
          intro t f hf
          rw [htable, hf]
        newTable := by
          intro t _ f hf
          rw [htable] at hf
          exact .inl hf
        pool := by
          intro u j hj
          rcases (hpool u j).mp hj with hold | ⟨rfl, rfl⟩
          · exact .inl hold
          · exact .inr (.inl ⟨rfl, 0, by omega, rfl⟩) }
  · rw [hm]
    refine ht₁.of_same rfl ?_ fun _ _ _ _ hf => hf
    exact setWord_ram_of_ne (Ne.symm hne)

/-- The page table is missing and comes from the kernel pool. -/
private theorem mapping_table (ht : Tables p m) (hv : v < 0xffc00) (hi : i < p.len user)
    (hclear : m.pool user i = false) {j : Nat} (hT : tableOf m (v / 1024) = none)
    (hj : j < p.len false) (hfree : (m.setPool user i true).pool false j = false)
    (hm : m' = withTable p (m.setPool user i true) v j ((p.start user + i) * 4096 + 7)) :
    Mapping p user v 1 (fun _ => i) m m' ∧ Tables p m' := by
  have ht₁ : Tables p (m.setPool user i true) := ht.setPool
  have htable : ∀ t, tableOf m' t =
      if t = v / 1024 then some (p.start false + j) else tableOf m t := by
    intro t
    rw [hm, ht₁.tableOf_withTable hj hfree]
    rfl
  have hframe : ∀ w < 0xffc00, frameOf m' w =
      if w = v then some (p.start user + i) else frameOf m w := by
    intro w hw
    rw [hm, ht₁.frameOf_withTable hv hj hfree hT _ hw, entry_frame_flags]
    rfl
  have hpool : ∀ u k, m'.pool u k = true ↔
      (m.pool u k = true ∨ (u = user ∧ k = i)) ∨ (u = false ∧ k = j) := by
    intro u k
    rw [hm, ← setPool_true]
    exact setPool_true
  have hne : p.start false + j ≠ p.start user + i :=
    fun heq => not_taken hj hfree (heq ▸ taken_setPool hi)
  have hjclear : m.pool false j = false := by
    by_contra hset
    rw [setPool_true.mpr (.inl (by simpa using hset))] at hfree
    cases hfree
  refine ⟨?_, hm ▸ ht₁.withTable hv hj hfree _⟩
  exact
    { grows := by
        rw [hm]
        exact trans_of Grows (grows_setPool m user i) (grows_withTable _ _)
      frame := fun _ _ => hi
      clear := fun _ _ => hclear
      set := fun _ _ => (hpool user i).mpr (.inl (.inr ⟨rfl, rfl⟩))
      distinct := fun j hj k hk _ => by omega
      unmapped := by
        intro k hk
        rw [show v + k = v by omega, frameOf_of_noTable hT]
      mapped := by
        intro k hk
        rw [show v + k = v by omega, hframe v hv, if_pos rfl]
      others := by
        intro w hw hout
        rw [hframe w hw, if_neg (by omega)]
      table := by
        intro t f hf
        have htv : t ≠ v / 1024 := by
          rintro rfl
          rw [hT] at hf
          cases hf
        rw [htable, if_neg htv, hf]
      newTable := by
        intro t _ f hf
        rw [htable] at hf
        split at hf
        · rename_i htv
          cases hf
          refine .inr ⟨htv ▸ hT, by omega, ⟨j, hj, rfl, hjclear⟩, fun _ _ => hne⟩
        · exact .inl hf
      pool := by
        intro u k hk
        rcases (hpool u k).mp hk with (hset | ⟨rfl, rfl⟩) | ⟨rfl, rfl⟩
        · exact .inl hset
        · exact .inr (.inl ⟨rfl, 0, by omega, rfl⟩)
        · refine .inr (.inr ⟨rfl, v / 1024, by omega, hT, ?_⟩)
          rw [htable, if_pos rfl] }

theorem mapping_one {r : Option Nat} {m₁ : Machine} {u : Unit} {frame : Nat} (ht : Tables p m)
    (hv : v < 0xffc00) (halloc : palloc p false user m = .ok (r, m₁)) (hr : r = some frame)
    (hadd : pageTableAdd p false (v * 4096) frame m₁ = .ok (u, m')) :
    ∃ i, Mapping p user v 1 (fun _ => i) m m' ∧ Tables p m' := by
  rcases palloc_ok halloc with ⟨-, rfl, -⟩ | ⟨i, hi, hclear, hsome, -, rfl⟩
  · cases hr
  · have hframe : frame = p.start user + i := by
      rw [hr] at hsome
      cases hsome
      rfl
    subst hframe
    have hdir : v * 4096 / 2 ^ 22 = v / 1024 := by omega
    have hword : v * 4096 / 4096 % 1024 = v % 1024 := by omega
    refine ⟨i, ?_⟩
    have hcases := pageTableAdd_ok ht.setPool hv hadd
    rw [Machine.setPool] at hcases
    cases hcases with
    | entry hpde hpte =>
        change m.ram m.cr3 _ % 2 = 1 at hpde
        change m.ram (m.ram m.cr3 _ / 4096) _ % 2 ≠ 1 at hpte
        rw [hdir] at hpde
        rw [hdir, hword] at hpte
        have hT : tableOf m (v / 1024) = some (m.ram m.cr3 (v / 1024) / 4096) := by
          rw [tableOf, entry, if_pos hpde]
        refine mapping_entry ht hv hi hclear hT (entry_none.mpr hpte) ?_
        rw [hdir, hword]
        rfl
    | table hpde hj hfree =>
        change m.ram m.cr3 _ % 2 ≠ 1 at hpde
        rw [hdir] at hpde
        refine mapping_table ht hv hi hclear (entry_none.mpr hpde) hj hfree ?_
        rw [hdir, hword]
        rfl

end Step

/-- The frame of the first page before those of the rest. -/
def firstThen (i : Nat) (fr : Nat → Nat) : Nat → Nat
  | 0 => i
  | k + 1 => fr k

section Loop

variable {p : Pools} {user : Bool} {v n i : Nat} {fr : Nat → Nat} {m m₁ m' : Machine}

theorem Grows.clear (h : Grows m m') {u : Bool} {j : Nat} (hj : m'.pool u j = false) :
    m.pool u j = false := by
  by_contra hset
  rw [h.pool u j (by simpa using hset)] at hj
  cases hj

theorem Mapping.noTable (h : Mapping p user v n fr m m') {t : Nat} (ht : tableOf m' t = none) :
    tableOf m t = none := by
  cases hf : tableOf m t with
  | none => rfl
  | some f =>
      rw [h.table t f hf] at ht
      cases ht

theorem Mapping.cons (h : Mapping p user v 1 (fun _ => i) m m₁)
    (h' : Mapping p user (v + 1) n fr m₁ m') (ht : Tables p m₁) (hv : v + 1 + n ≤ 0xffc00) :
    Mapping p user v (n + 1) (firstThen i fr) m m' where
  grows := trans_of Grows h.grows h'.grows
  frame
    | 0, _ => h.frame 0 (by omega)
    | k + 1, hk => h'.frame k (by omega)
  clear
    | 0, _ => h.clear 0 (by omega)
    | k + 1, hk => h.grows.clear (h'.clear k (by omega))
  set
    | 0, _ => h'.grows.pool _ _ (h.set 0 (by omega))
    | k + 1, hk => h'.set k (by omega)
  distinct := by
    have hfirst : ∀ k < n, i ≠ fr k := by
      intro k hk heq
      have hclear := h'.clear k hk
      rw [← heq, h.set 0 (by omega)] at hclear
      cases hclear
    intro j hj k hk heq
    cases j with
    | zero =>
        cases k with
        | zero => rfl
        | succ k => exact absurd heq (hfirst k (by omega))
    | succ j =>
        cases k with
        | zero => exact absurd heq.symm (hfirst j (by omega))
        | succ k => rw [h'.distinct j (by omega) k (by omega) heq]
  unmapped
    | 0, _ => h.unmapped 0 (by omega)
    | k + 1, hk => by
        rw [show v + (k + 1) = v + 1 + k by omega, ← h.others _ (by omega) (by omega)]
        exact h'.unmapped k (by omega)
  mapped
    | 0, _ => by
        rw [h'.others _ (by omega) (by omega)]
        exact h.mapped 0 (by omega)
    | k + 1, hk => by
        rw [show v + (k + 1) = v + 1 + k by omega]
        exact h'.mapped k (by omega)
  others := by
    intro w hw hout
    rw [h'.others w hw (by omega), h.others w hw (by omega)]
  table := fun t f hf => h'.table t f (h.table t f hf)
  newTable := by
    intro t hlt f hf
    rcases h'.newTable t hlt f hf with hmid | ⟨hnone, ht', ⟨j, hj, hfj, hclear⟩, hne⟩
    · rcases h.newTable t hlt f hmid with hold | ⟨hnone, ht', hfree, hne⟩
      · exact .inl hold
      · refine .inr ⟨hnone, ht', hfree, ?_⟩
        intro k hk
        cases k with
        | zero => exact hne 0 (by omega)
        | succ k =>
            -- a table of the first page is taken when the frames of the others are found
            exact not_taken_ne (h'.frame k (by omega)) (h'.clear k (by omega)) (ht.taken t hlt f hmid)
    · refine .inr ⟨h.noTable hnone, ht', ⟨j, hj, hfj, h.grows.clear hclear⟩, ?_⟩
      intro k hk
      cases k with
      | zero =>
          intro heq
          obtain ⟨hu, hji⟩ := start_inj hj (h.frame 0 (by omega)) (hfj.symm.trans heq)
          have hset := h.set 0 (by omega)
          rw [← hu, ← hji, hclear] at hset
          cases hset
      | succ k => exact hne k (by omega)
  pool := by
    intro u j hj
    rcases h'.pool u j hj with hmid | ⟨rfl, k, hk, rfl⟩ | ⟨rfl, t, hlt, hnone, hf⟩
    · rcases h.pool u j hmid with hold | ⟨rfl, k, hk, rfl⟩ | ⟨rfl, t, hlt, hnone, hf⟩
      · exact .inl hold
      · exact .inr (.inl ⟨rfl, 0, by omega, rfl⟩)
      · exact .inr (.inr ⟨rfl, t, hlt, hnone, h'.table t _ hf⟩)
    · exact .inr (.inl ⟨rfl, k + 1, by omega, rfl⟩)
    · exact .inr (.inr ⟨rfl, t, hlt, h.noTable hnone, hf⟩)

private theorem mapping_nil : Mapping p user v 0 fr m m where
  grows := refl_of Grows m
  frame := fun _ h => absurd h (by omega)
  clear := fun _ h => absurd h (by omega)
  set := fun _ h => absurd h (by omega)
  distinct := fun _ h => absurd h (by omega)
  unmapped := fun _ h => absurd h (by omega)
  mapped := fun _ h => absurd h (by omega)
  others := fun _ _ _ => rfl
  table := fun _ _ h => h
  newTable := fun _ _ _ h => .inl h
  pool := fun _ _ h => .inl h

private theorem mapPages_mapping (n : Nat) : ∀ {v : Nat} {m : Machine}, Tables p m →
    v + n ≤ 0xffc00 → mapPages p false user (v * 4096) n m = .ok (true, m') →
    ∃ fr, Mapping p user v n fr m m' ∧ Tables p m' := by
  induction n with
  | zero =>
      intro v m ht _ h
      obtain ⟨-, rfl⟩ := Code.pure_ok.mp h
      exact ⟨fun _ => 0, mapping_nil, ht⟩
  | succ n ih =>
      intro v m ht hv h
      rw [mapPages] at h
      obtain ⟨r, m₁, halloc, hrest⟩ := Code.bind_ok.mp h
      cases r with
      | none =>
          obtain ⟨hfalse, -⟩ := Code.pure_ok.mp hrest
          cases hfalse
      | some frame =>
          obtain ⟨u, m₂, hadd, hloop⟩ := Code.bind_ok.mp hrest
          obtain ⟨i, hone, ht₂⟩ := mapping_one ht (by omega) halloc rfl hadd
          rw [show (v * 4096 + 4096) % 2 ^ 32 = (v + 1) * 4096 by omega] at hloop
          obtain ⟨fr, hmap, ht'⟩ := ih ht₂ (by omega) hloop
          exact ⟨firstThen i fr, hone.cons hmap ht₂ (by omega), ht'⟩

end Loop

/-- From `m` to `m'` the `n` pages from `v` on lose their frames. -/
structure Unmapping (user : Bool) (v n : Nat) (fr : Nat → Nat) (m m' : Machine) : Prop where
  quiet : Quiet m m'
  kernelBitmap : m'.kernelBitmap = m.kernelBitmap
  pool : ∀ u j, m'.pool u j = true ↔ m.pool u j = true ∧ ¬ (u = user ∧ ∃ k < n, j = fr k)
  table : ∀ t, tableOf m' t = tableOf m t
  frame : ∀ w < 0xffc00, frameOf m' w = if v ≤ w ∧ w < v + n then none else frameOf m w

section Free

variable {p : Pools} {user : Bool} {v n i T : Nat} {fr : Nat → Nat} {m m' : Machine}

private theorem translate_ptePtr (ht : Tables p m) (hv : v < 0xffc00)
    (hT : tableOf m (v / 1024) = some T) :
    Proc.Fork.translate (ptePtr (v * 4096)) m = .ok (T, m) := by
  have hdir : v * 4096 / 2 ^ 22 = v / 1024 := by omega
  have hwalk := walk_ptePtr (a := v * 4096) ht.window (by omega)
  rw [hdir] at hwalk
  rw [tableOf, entry] at hT
  rw [hT] at hwalk
  rw [Proc.Fork.translate, Code.get_bind, Code.get_bind, hwalk]
  rfl

private theorem addrV2p_eq (ht : Tables p m) (hv : v < 0xffc00) {f : Nat}
    (hf : frameOf m v = some f) : addrV2p (v * 4096) m = .ok (f * 4096, m) := by
  cases hT : tableOf m (v / 1024) with
  | none =>
      rw [frameOf_of_noTable hT] at hf
      cases hf
  | some T =>
      have hword : ptePtr (v * 4096) % 4096 / 4 = v % 1024 := by
        rw [ptePtr_word (by omega)]
        omega
      have hload : load (ptePtr (v * 4096)) m = .ok (m.ram T (v % 1024), m) := by
        rw [load, Code.bind_of_ok (translate_ptePtr ht hv hT), Code.get_bind, hword]
        rfl
      rw [frameOf_of_table hT, entry] at hf
      split at hf
      · cases hf
        rw [addrV2p, Code.bind_of_ok hload]
        simp only [Nat.mul_mod_left, Nat.add_zero]
        rfl
      · cases hf

private theorem pteRemove_eq (ht : Tables p m) (hv : v < 0xffc00)
    (hT : tableOf m (v / 1024) = some T) :
    pteRemove (v * 4096) m = .ok ((), m.setWord T (v % 1024) 0) := by
  have hword : ptePtr (v * 4096) % 4096 / 4 = v % 1024 := by
    rw [ptePtr_word (by omega)]
    omega
  rw [pteRemove, store, Code.bind_of_ok (translate_ptePtr ht hv hT), hword]
  rfl

private theorem pfree_eq (hi : i < p.len user) :
    pfree p ((p.start user + i) * 4096) m = .ok ((), m.setPool user i false) := by
  have hfits := p.kernelFits
  have huser : (decide (p.start true * 4096 ≤ (p.start user + i) * 4096)) = user := by
    cases user with
    | true =>
        rw [decide_eq_true_eq]
        omega
    | false =>
        rw [decide_eq_false_iff_not]
        change ¬ p.userStart * 4096 ≤ (0x200 + i) * 4096
        omega
  rw [pfree, huser, show ((p.start user + i) * 4096 - p.start user * 4096) / 4096 = i by omega]
  rfl

private theorem setPool_false {u : Bool} {j : Nat} : (m.setPool user i false).pool u j = true ↔
    m.pool u j = true ∧ ¬ (u = user ∧ j = i) := by
  simp only [Machine.setPool, Function.update_apply]
  by_cases hu : u = user
  · subst hu
    by_cases hj : j = i
    · simp [hj]
    · simp [hj]
  · simp [hu]

private theorem Tables.setPool_false (ht : Tables p m)
    (hne : ∀ t < 1024, tableOf m t ≠ some (p.start user + i)) :
    Tables p (m.setPool user i false) := by
  refine ht.of_same rfl rfl ?_
  intro t hlt f hf htaken u j hj heq
  refine Paging.setPool_false.mpr ⟨htaken u j hj heq, ?_⟩
  rintro ⟨rfl, rfl⟩
  exact hne t hlt (heq ▸ hf)

theorem Unmapping.cons {m₁ : Machine} (h : Unmapping user v 1 (fun _ => i) m m₁)
    (h' : Unmapping user (v + 1) n fr m₁ m') :
    Unmapping user v (n + 1) (firstThen i fr) m m' where
  quiet := h.quiet.trans h'.quiet
  kernelBitmap := h'.kernelBitmap.trans h.kernelBitmap
  pool := by
    intro u j
    rw [h'.pool, h.pool, and_assoc]
    refine and_congr_right fun _ => ?_
    constructor
    · rintro ⟨hfirst, hrest⟩ ⟨rfl, k, hk, hj⟩
      cases k with
      | zero => exact hfirst ⟨rfl, 0, by omega, hj⟩
      | succ k => exact hrest ⟨rfl, k, by omega, hj⟩
    · intro hall
      refine ⟨?_, ?_⟩
      · rintro ⟨rfl, k, -, hj⟩
        exact hall ⟨rfl, 0, by omega, hj⟩
      · rintro ⟨rfl, k, hk, hj⟩
        exact hall ⟨rfl, k + 1, by omega, hj⟩
  table := fun t => (h'.table t).trans (h.table t)
  frame := by
    intro w hw
    rw [h'.frame w hw, h.frame w hw]
    by_cases hfirst : w = v
    · rw [if_neg (by omega), if_pos (by omega), if_pos (by omega)]
    · by_cases hin : v + 1 ≤ w ∧ w < v + 1 + n
      · rw [if_pos hin, if_pos (by omega)]
      · rw [if_neg hin, if_neg (by omega), if_neg (by omega)]

private theorem unmapping_one (ht : Tables p m) (hv : v < 0xffc00)
    (hT : tableOf m (v / 1024) = some T) (hne : ∀ t < 1024, tableOf m t ≠ some (p.start user + i)) :
    Unmapping user v 1 (fun _ => i) m ((m.setPool user i false).setWord T (v % 1024) 0) ∧
      Tables p ((m.setPool user i false).setWord T (v % 1024) 0) := by
  have hcr3 := ht.ne_cr3 (by omega) hT
  have ht₁ := ht.setPool_false hne
  refine ⟨⟨⟨rfl, rfl, rfl⟩, rfl, ?_, ?_, ?_⟩, ?_⟩
  · intro u j
    refine setPool_false.trans (and_congr_right fun _ => not_congr (and_congr_right fun _ => ?_))
    constructor
    · intro hj
      exact ⟨0, by omega, hj⟩
    · rintro ⟨-, -, hj⟩
      exact hj
  · intro t
    exact tableOf_setWord (m := m.setPool user i false) hcr3 _ t
  · intro w hw
    rw [ht₁.frameOf_setWord hv hT hw, entry_zero]
    by_cases hwv : w = v
    · rw [if_pos hwv, if_pos (by omega)]
    · rw [if_neg hwv, if_neg (by omega)]
      rfl
  · exact ht₁.of_same rfl (setWord_ram_of_ne (Ne.symm hcr3)) fun _ _ _ _ hf => hf

private theorem mfreeLoop_unmapping (n : Nat) :
    ∀ {v : Nat} {fr : Nat → Nat} {m : Machine}, Tables p m →
    v + n ≤ 0xffc00 → (∀ k < n, fr k < p.len user) →
    (∀ k < n, frameOf m (v + k) = some (p.start user + fr k)) →
    (∀ k < n, ∀ t < 1024, tableOf m t ≠ some (p.start user + fr k)) →
    ∃ m', mfreeLoop p false user (v * 4096) n m = .ok ((), m') ∧ Unmapping user v n fr m m' ∧
      Tables p m' := by
  induction n with
  | zero =>
      intro v fr m ht _ _ _ _
      refine ⟨m, rfl, ⟨⟨rfl, rfl, rfl⟩, rfl, ?_, fun _ => rfl, ?_⟩, ht⟩
      · intro u j
        constructor
        · intro hset
          refine ⟨hset, ?_⟩
          rintro ⟨-, k, hk, -⟩
          exact absurd hk (by omega)
        · exact And.left
      · intro w _
        rw [if_neg (by omega)]
  | succ n ih =>
      intro v fr m ht hv hlt hmap hne
      have hfirst := hmap 0 (by omega)
      rw [Nat.add_zero] at hfirst
      cases hT : tableOf m (v / 1024) with
      | none =>
          rw [frameOf_of_noTable hT] at hfirst
          cases hfirst
      | some T =>
          obtain ⟨hone, ht₁⟩ := unmapping_one ht (by omega) hT (hne 0 (by omega))
          have hrest : ∀ k < n, frameOf ((m.setPool user (fr 0) false).setWord T (v % 1024) 0)
              (v + 1 + k) = some (p.start user + fr (k + 1)) := by
            intro k hk
            rw [hone.frame _ (by omega), if_neg (by omega), ← hmap (k + 1) (by omega)]
            congr 1
            omega
          obtain ⟨m', hloop, hun, ht'⟩ := ih ht₁ (by omega) (fun k hk => hlt (k + 1) (by omega))
            hrest (fun k hk t htlt => by
              rw [hone.table]
              exact hne (k + 1) (by omega) t htlt)
          refine ⟨m', ?_, ?_, ht'⟩
          · have hfits := p.kernelFits
            have hlow := hlt 0 (by omega)
            have hassert : assert false ((p.start user + fr 0) * 4096 % 4096 = 0 ∧
                p.start user * 4096 ≤ (p.start user + fr 0) * 4096 ∧
                (user = false → (p.start user + fr 0) * 4096 < p.start true * 4096)) m =
                  .ok ((), m) := by
              rw [assert, if_pos]
              · rfl
              · refine .inr ⟨by omega, by omega, ?_⟩
                rintro rfl
                simp only [Pools.start]
                omega
            rw [mfreeLoop, Code.bind_of_ok (addrV2p_eq ht (by omega) hfirst),
              Code.bind_of_ok hassert, Code.bind_of_ok (pfree_eq hlow),
              Code.bind_of_ok (pteRemove_eq (ht.setPool_false (hne 0 (by omega))) (by omega) hT),
              show (v * 4096 + 4096) % 2 ^ 32 = (v + 1) * 4096 by omega]
            exact hloop
          · have hcons := hone.cons hun
            have hfr : firstThen (fr 0) (fun k => fr (k + 1)) = fr := by
              funext k
              cases k <;> rfl
            rw [hfr] at hcons
            exact hcons

end Free

/-- The page of bit `i` of a virtual bitmap, and the pages that have a bit. -/
def page (cur : Nat) (m : Machine) (user : Bool) (i : Nat) : Nat :=
  vaddrStart cur m user / 4096 + i

def Managed (p : Pools) (cur : Nat) (m : Machine) (v : Nat) : Prop :=
  ∃ user, ∃ i < vaddrLen p cur m user, v = page cur m user i

/-- The bitmaps and the page tables agree on the managed pages. -/
structure Consistent (p : Pools) (cur : Nat) (m : Machine) : Prop where
  bits : ∀ user, ∀ i < vaddrLen p cur m user,
    (vaddrBits cur m user i = true ↔ (frameOf m (page cur m user i)).isSome)
  pooled : ∀ v f, Managed p cur m v → frameOf m v = some f →
    ∃ user, ∃ i < p.len user, f = p.start user + i ∧ m.pool user i = true
  inj : ∀ v w f, Managed p cur m v → Managed p cur m w → frameOf m v = some f →
    frameOf m w = some f → v = w
  notTable : ∀ v f, Managed p cur m v → frameOf m v = some f → ∀ t < 1024, tableOf m t ≠ some f

/-- Moreover the page tables are frames of their own, and the process has its pages below the
kernel's. -/
structure Maps (p : Pools) (cur : Nat) (m : Machine) : Prop extends Consistent p cur m where
  tables : Tables p m
  aligned : (m.task cur).vaddrStart % 4096 = 0
  below : (m.task cur).vaddrStart + vaddrLen p cur m true * 4096 ≤ 0xc0000000

/-- `malloc_page` has given out the `n` pages from bit `i` on, on the frames `fr`. -/
structure Allocated (p : Pools) (cur : Nat) (user : Bool) (n v i : Nat) (fr : Nat → Nat)
    (m m' : Machine) : Prop where
  addr : v = vaddrStart cur m user + i * 4096
  inside : i + n ≤ vaddrLen p cur m user
  free : ∀ k < n, vaddrBits cur m user (i + k) = false ∧
    frameOf m (page cur m user (i + k)) = none
  frames : ∀ k < n, fr k < p.len user ∧ m.pool user (fr k) = false ∧
    frameOf m' (page cur m user (i + k)) = some (p.start user + fr k)
  distinct : ∀ j < n, ∀ k < n, fr j = fr k → j = k
  bits : vaddrBits cur m' user = setBits (vaddrBits cur m user) i n true
  otherBits : vaddrBits cur m' (!user) = vaddrBits cur m (!user)
  otherTasks : ∀ a ≠ (m.task cur).bits, m'.bitmaps a = m.bitmaps a
  others : ∀ w < 0xffc00, (∀ k < n, w ≠ page cur m user (i + k)) → frameOf m' w = frameOf m w
  pool : ∀ u j, m'.pool u j = true ↔ m.pool u j = true ∨ (u = user ∧ ∃ k < n, j = fr k) ∨
    (u = false ∧ NewTable m m' (p.start false + j))

/-- `mfree_page` has taken them back: the bitmaps of pages and the mappings are those of `m`, and
so are the pool bits of the frames. -/
structure TakenBack (user : Bool) (n : Nat) (fr : Nat → Nat) (m m' m'' : Machine) :
    Prop where
  kernelBitmap : m''.kernelBitmap = m.kernelBitmap
  bitmaps : m''.bitmaps = m.bitmaps
  frames : ∀ k < n, m''.pool user (fr k) = m.pool user (fr k)
  otherFrames : ∀ u j, ¬ (u = user ∧ ∃ k < n, j = fr k) → m''.pool u j = m'.pool u j
  present : ∀ w < 0xffc00, frameOf m'' w = frameOf m w

section Pages

variable {p : Pools} {cur n v i : Nat} {user : Bool} {fr : Nat → Nat} {m m' : Machine}

theorem vaddrLen_of_task (h : m'.task = m.task) (u : Bool) :
    vaddrLen p cur m' u = vaddrLen p cur m u := by
  cases u with
  | true => rw [vaddrLen, vaddrLen, h]
  | false => rfl

private theorem page_of_task (h : m'.task = m.task) (u : Bool) (j : Nat) :
    page cur m' u j = page cur m u j := by
  cases u with
  | true => rw [page, page, vaddrStart, vaddrStart, h]
  | false => rfl

theorem managed_of_task (h : m'.task = m.task) {w : Nat} :
    Managed p cur m' w ↔ Managed p cur m w := by
  simp only [Managed, vaddrLen_of_task h, page_of_task h]

theorem page_zero_add (cur : Nat) (m : Machine) (user : Bool) (i : Nat) :
    page cur m user i = page cur m user 0 + i := by
  rw [page, page]
  omega

private theorem Maps.user_page_lt (h : Maps p cur m) (hi : i < vaddrLen p cur m true) :
    page cur m true i < 0xc0000 := by
  have hbelow := h.below
  change (m.task cur).vaddrStart / 4096 + i < _
  omega

theorem kernel_page_eq (cur : Nat) (m : Machine) (i : Nat) :
    page cur m false i = 0xc0100 + i := by
  rw [page, vaddrStart]

theorem Maps.start_eq (h : Maps p cur m) (user : Bool) :
    vaddrStart cur m user = page cur m user 0 * 4096 := by
  cases user with
  | true =>
      have haligned := h.aligned
      change (m.task cur).vaddrStart = ((m.task cur).vaddrStart / 4096 + 0) * 4096
      omega
  | false => rw [kernel_page_eq, vaddrStart]

theorem Maps.page_le (h : Maps p cur m) (hi : i ≤ vaddrLen p cur m user) :
    page cur m user i ≤ 0xffc00 := by
  cases user with
  | true =>
      have hbelow := h.below
      change (m.task cur).vaddrStart / 4096 + i ≤ _
      omega
  | false =>
      have hfits := p.heapFits
      change i ≤ p.len false at hi
      rw [kernel_page_eq]
      omega

theorem Maps.page_lt (h : Maps p cur m) (hi : i < vaddrLen p cur m user) :
    page cur m user i < 0xffc00 := by
  have hle := h.page_le (i := i + 1) hi
  rw [page] at hle ⊢
  omega

private theorem Maps.page_ne (h : Maps p cur m) {j : Nat} (hi : i < vaddrLen p cur m user)
    (hj : j < vaddrLen p cur m (!user)) : page cur m (!user) j ≠ page cur m user i := by
  cases user with
  | true =>
      have hlow := h.user_page_lt hi
      rw [Bool.not_true, kernel_page_eq]
      omega
  | false =>
      have hlow := h.user_page_lt hj
      rw [kernel_page_eq, Bool.not_false]
      omega

/-- Between the scan and the mapping only the bits of the run are new. -/
structure Run (p : Pools) (cur : Nat) (user : Bool) (n i : Nat) (fr : Nat → Nat)
    (m m' : Machine) : Prop where
  inside : i + n ≤ vaddrLen p cur m user
  clear : ∀ k < n, vaddrBits cur m user (i + k) = false
  mapping : Mapping p user (page cur m user i) n fr
    (setVaddrBits cur m user (setBits (vaddrBits cur m user) i n true)) m'
  tables : Tables p m'

theorem setVaddrBits_task (bits : Nat → Bool) : (setVaddrBits cur m user bits).task = m.task := by
  cases user <;> rfl

theorem setVaddrBits_pool (bits : Nat → Bool) : (setVaddrBits cur m user bits).pool = m.pool := by
  cases user <;> rfl

theorem frameOf_setVaddrBits (bits : Nat → Bool) (w : Nat) :
    frameOf (setVaddrBits cur m user bits) w = frameOf m w := by
  cases user <;> rfl

theorem tableOf_setVaddrBits (bits : Nat → Bool) (t : Nat) :
    tableOf (setVaddrBits cur m user bits) t = tableOf m t := by
  cases user <;> rfl

theorem Tables.setVaddrBits (h : Tables p m) (bits : Nat → Bool) :
    Tables p (setVaddrBits cur m user bits) := by
  cases user with
  | true => exact h.of_same rfl rfl fun _ _ _ _ hf => hf
  | false => exact h.of_same rfl rfl fun _ _ _ _ hf => hf

private theorem vaddrBits_setVaddrBits_other (bits : Nat → Bool) :
    vaddrBits cur (Paging.setVaddrBits cur m user bits) (!user) = vaddrBits cur m (!user) := by
  cases user <;> rfl

theorem Maps.run (hI : Maps p cur m) (h : mallocPage p false cur user n m = .ok (v, m'))
    (hv : v ≠ 0) :
    ∃ i fr, v = page cur m user i * 4096 ∧ 0 < n ∧ Run p cur user n i fr m m' := by
  rw [mallocPage] at h
  obtain ⟨_, m₀, hassert, hrest⟩ := Code.bind_ok.mp h
  have hn := assert_holds hassert
  obtain rfl := assert_ok hassert
  obtain ⟨r, m₁, hget, hmap⟩ := Code.bind_ok.mp hrest
  rcases vaddrGet_ok hget with ⟨-, rfl, rfl⟩ | ⟨i, hsome, hin, hr, rfl⟩
  · rw [if_pos rfl] at hmap
    exact absurd (Code.pure_ok.mp hmap).1 hv
  · have hinside := hin hn.1
    have hclear : ∀ k < n, vaddrBits cur m₀ user (i + k) = false :=
      fun k hk => findRun_clear hsome (i + k) (by omega) (by omega)
    have hend := hI.page_le hinside
    have hpage : r = page cur m₀ user i * 4096 := by
      rw [hr, hI.start_eq, page_zero_add cur m₀ user i]
      rw [page_zero_add] at hend
      omega
    split at hmap
    · exact absurd (Code.pure_ok.mp hmap).1 hv
    · obtain ⟨done, m₂, hpages, hret⟩ := Code.bind_ok.mp hmap
      cases done with
      | false => exact absurd (Code.pure_ok.mp hret).1 hv
      | true =>
          obtain ⟨rfl, rfl⟩ := Code.pure_ok.mp hret
          rw [hpage] at hpages
          obtain ⟨fr, hmapping, htables⟩ := mapPages_mapping n (hI.tables.setVaddrBits _)
            (by rw [page_zero_add] at hend ⊢; omega) hpages
          exact ⟨i, fr, hpage, hn.1, hinside, hclear, hmapping, htables⟩

namespace Run

variable (h : Run p cur user n i fr m m')
include h

theorem task : m'.task = m.task := h.mapping.grows.task.trans (setVaddrBits_task _)

private theorem managed {w : Nat} : Managed p cur m' w ↔ Managed p cur m w := managed_of_task h.task

theorem bits : vaddrBits cur m' user = setBits (vaddrBits cur m user) i n true := by
  rw [vaddrBits_grows h.mapping.grows, vaddrBits_setVaddrBits]

theorem otherBits : vaddrBits cur m' (!user) = vaddrBits cur m (!user) := by
  rw [vaddrBits_grows h.mapping.grows, vaddrBits_setVaddrBits_other]

private theorem clearFrame {k : Nat} (hk : k < n) : m.pool user (fr k) = false := by
  have hclear := h.mapping.clear k hk
  rw [setVaddrBits_pool] at hclear
  exact hclear

theorem mapped {k : Nat} (hk : k < n) :
    frameOf m' (page cur m user (i + k)) = some (p.start user + fr k) := by
  have hmap := h.mapping.mapped k hk
  rw [page_zero_add] at hmap ⊢
  rw [← hmap]
  congr 1
  omega

theorem others {w : Nat} (hw : w < 0xffc00) (hne : ∀ k < n, w ≠ page cur m user (i + k)) :
    frameOf m' w = frameOf m w := by
  have hout : w < page cur m user i ∨ page cur m user i + n ≤ w := by
    by_contra hcon
    have hin := hne (w - page cur m user i) (by omega)
    rw [page_zero_add] at hin
    rw [page_zero_add cur m user i] at hcon hin
    omega
  rw [h.mapping.others w hw hout, frameOf_setVaddrBits]

theorem cases {w : Nat} (hw : w < 0xffc00) :
    (∃ k < n, w = page cur m user (i + k) ∧ frameOf m' w = some (p.start user + fr k)) ∨
    ((∀ k < n, w ≠ page cur m user (i + k)) ∧ frameOf m' w = frameOf m w) := by
  by_cases hin : ∃ k < n, w = page cur m user (i + k)
  · obtain ⟨k, hk, rfl⟩ := hin
    exact .inl ⟨k, hk, rfl, h.mapped hk⟩
  · have hne : ∀ k < n, w ≠ page cur m user (i + k) := fun k hk heq => hin ⟨k, hk, heq⟩
    exact .inr ⟨hne, h.others hw hne⟩

private theorem pool_grows {u : Bool} {j : Nat} (hset : m.pool u j = true) :
    m'.pool u j = true := by
  apply h.mapping.grows.pool
  rw [setVaddrBits_pool]
  exact hset

/-- A table after the call was one before, or lies in a frame that was free. -/
private theorem table_cases {t f : Nat} (ht : t < 1024) (hf : tableOf m' t = some f) :
    tableOf m t = some f ∨ (tableOf m t = none ∧ t < 1023 ∧ (∃ j < p.len false,
      f = p.start false + j ∧ m.pool false j = false) ∧ ∀ k < n, f ≠ p.start user + fr k) := by
  have hcases := h.mapping.newTable t ht f hf
  rw [tableOf_setVaddrBits, setVaddrBits_pool] at hcases
  exact hcases

private theorem frame_notTable (hI : Maps p cur m) {k t : Nat} (hk : k < n) (ht : t < 1024) :
    tableOf m' t ≠ some (p.start user + fr k) := by
  intro hf
  rcases h.table_cases ht hf with hold | ⟨-, -, -, hne⟩
  · exact not_taken_ne (h.mapping.frame k hk) (h.clearFrame hk) (hI.tables.taken t ht _ hold) rfl
  · exact hne k hk rfl

private theorem pooled_notTable {u : Bool} {j t : Nat} (hj : j < p.len u) (hset : m.pool u j = true)
    (hold : ∀ t < 1024, tableOf m t ≠ some (p.start u + j)) (ht : t < 1024) :
    tableOf m' t ≠ some (p.start u + j) := by
  intro hf
  rcases h.table_cases ht hf with htable | ⟨-, -, ⟨j', hj', heq, hclear⟩, -⟩
  · exact hold t ht htable
  · obtain ⟨rfl, rfl⟩ := start_inj hj hj' heq
    rw [hset] at hclear
    cases hclear

private theorem consistent (hI : Maps p cur m) : Consistent p cur m' := by
  have hlt : ∀ {w}, Managed p cur m' w → w < 0xffc00 := by
    intro w hw
    obtain ⟨u, j, hj, rfl⟩ := h.managed.mp hw
    exact hI.page_lt hj
  refine ⟨?_, ?_, ?_, ?_⟩
  · intro u j hj
    rw [vaddrLen_of_task h.task] at hj
    rw [page_of_task h.task]
    by_cases hu : u = user
    · subst hu
      rw [h.bits, setBits]
      by_cases hin : i ≤ j ∧ j < i + n
      · have hmap := h.mapped (k := j - i) (by omega)
        rw [Nat.add_sub_cancel' hin.1] at hmap
        simp [hin, hmap]
      · rw [if_neg hin, h.others (hI.page_lt hj), hI.bits u j hj]
        intro k hk heq
        rw [page, page] at heq
        omega
    · obtain rfl : u = !user := by
        cases u <;> cases user <;> simp_all
      rw [h.otherBits, h.others (hI.page_lt hj), hI.bits _ j hj]
      intro k hk
      exact hI.page_ne (by have := h.inside; omega) hj
  · intro w f hw hf
    rcases h.cases (hlt hw) with ⟨k, hk, -, hmap⟩ | ⟨-, hsame⟩
    · rw [hmap] at hf
      cases hf
      exact ⟨user, fr k, h.mapping.frame k hk, rfl, h.mapping.set k hk⟩
    · rw [hsame] at hf
      obtain ⟨u, j, hj, hfj, hset⟩ := hI.pooled w f (h.managed.mp hw) hf
      exact ⟨u, j, hj, hfj, h.pool_grows hset⟩
  · -- a frame that was free is not the frame of a page that was mapped
    have hfresh : ∀ w k, k < n → Managed p cur m w → frameOf m w ≠ some (p.start user + fr k) := by
      intro w k hk hw hf
      obtain ⟨u, j, hj, heq, hset⟩ := hI.pooled w _ hw hf
      obtain ⟨rfl, rfl⟩ := start_inj (h.mapping.frame k hk) hj heq
      rw [h.clearFrame hk] at hset
      cases hset
    intro w x f hw hx hf hf'
    rcases h.cases (hlt hw) with ⟨k, hk, hwk, hmap⟩ | ⟨-, hsame⟩
    · rw [hmap] at hf
      rcases h.cases (hlt hx) with ⟨k', hk', hxk, hmap'⟩ | ⟨-, hsame'⟩
      · rw [hmap', ← hf] at hf'
        have heq := h.mapping.distinct k' hk' k hk (by simpa using hf')
        rw [hwk, hxk, heq]
      · rw [hsame', ← hf] at hf'
        exact absurd hf' (hfresh x k hk (h.managed.mp hx))
    · rw [hsame] at hf
      rcases h.cases (hlt hx) with ⟨k', hk', -, hmap'⟩ | ⟨-, hsame'⟩
      · rw [hmap'] at hf'
        rw [← hf'] at hf
        exact absurd hf (hfresh w k' hk' (h.managed.mp hw))
      · rw [hsame'] at hf'
        exact hI.inj w x f (h.managed.mp hw) (h.managed.mp hx) hf hf'
  · intro w f hw hf t ht
    rcases h.cases (hlt hw) with ⟨k, hk, -, hmap⟩ | ⟨-, hsame⟩
    · rw [hmap] at hf
      cases hf
      exact h.frame_notTable hI hk ht
    · rw [hsame] at hf
      obtain ⟨u, j, hj, rfl, hset⟩ := hI.pooled w f (h.managed.mp hw) hf
      exact h.pooled_notTable hj hset (hI.notTable w _ (h.managed.mp hw) hf) ht

theorem maps (hI : Maps p cur m) : Maps p cur m' where
  toConsistent := h.consistent hI
  tables := h.tables
  aligned := by
    rw [h.task]
    exact hI.aligned
  below := by
    rw [h.task, vaddrLen_of_task h.task]
    exact hI.below

theorem allocated (hI : Maps p cur m) (hv : v = page cur m user i * 4096) :
    Allocated p cur user n v i fr m m' where
  addr := by
    rw [hv, hI.start_eq, page_zero_add]
    omega
  inside := h.inside
  free := by
    intro k hk
    have hin : i + k < vaddrLen p cur m user := by
      have := h.inside
      omega
    have hbit := hI.bits user (i + k) hin
    rw [h.clear k hk] at hbit
    refine ⟨h.clear k hk, ?_⟩
    simpa using hbit
  frames := fun k hk => ⟨h.mapping.frame k hk, h.clearFrame hk, h.mapped hk⟩
  distinct := h.mapping.distinct
  bits := h.bits
  otherBits := h.otherBits
  otherTasks := by
    intro a ha
    rw [h.mapping.grows.bitmaps]
    cases user with
    | true => exact Function.update_of_ne ha _ _
    | false => rfl
  others := fun w hw hne => h.others hw hne
  pool := by
    intro u j
    constructor
    · intro hset
      have hcases := h.mapping.pool u j hset
      simp only [setVaddrBits_pool, NewTable, tableOf_setVaddrBits] at hcases
      exact hcases
    · rintro (hset | ⟨rfl, k, hk, rfl⟩ | ⟨rfl, t, ht, hnone, hf⟩)
      · exact h.pool_grows hset
      · exact h.mapping.set k hk
      · rcases h.table_cases (by omega) hf with hold | ⟨-, -, ⟨j', hj', heq, -⟩, -⟩
        · rw [hnone] at hold
          cases hold
        · exact h.tables.taken t (by omega) _ hf false j (by omega) rfl

private theorem mfreePage_returns (hI : Maps p cur m) (hn : 0 < n)
    (hv : v = page cur m user i * 4096) :
    ∃ m₁, Unmapping user (page cur m user i) n fr m' m₁ ∧ Tables p m₁ ∧
      mfreePage p false cur user v n m' =
        .ok ((), Paging.setVaddrBits cur m₁ user (vaddrBits cur m user)) := by
  have hend := hI.page_le h.inside
  rw [page_zero_add] at hend
  have hpage := page_zero_add cur m user i
  have hfits := p.kernelFits
  have hmapped : ∀ k < n, frameOf m' (page cur m user i + k) = some (p.start user + fr k) :=
    fun k hk => h.mapping.mapped k hk
  obtain ⟨m₁, hloop, hun, ht₁⟩ := mfreeLoop_unmapping n h.tables (by omega) h.mapping.frame hmapped
    fun k hk t ht => h.frame_notTable hI hk ht
  have hframe := h.mapping.frame 0 hn
  have hfirst : addrV2p v m' = .ok ((p.start user + fr 0) * 4096, m') := by
    rw [hv]
    exact addrV2p_eq h.tables (by omega) (by simpa using hmapped 0 hn)
  have hpositive : assert false (0 < n ∧ v % 4096 = 0) m' = .ok ((), m') := by
    rw [assert, if_pos (.inr ⟨hn, by omega⟩)]
    rfl
  have hhigh : assert false ((p.start user + fr 0) * 4096 % 4096 = 0 ∧
      0x102000 ≤ (p.start user + fr 0) * 4096) m' = .ok ((), m') := by
    rw [assert, if_pos]
    · rfl
    · refine .inr ⟨by omega, ?_⟩
      cases user with
      | true =>
          change _ ≤ (p.userStart + fr 0) * 4096
          omega
      | false =>
          change _ ≤ (0x200 + fr 0) * 4096
          omega
  have huser : decide (p.start true * 4096 ≤ (p.start user + fr 0) * 4096) = user := by
    cases user with
    | true =>
        rw [decide_eq_true_eq]
        omega
    | false =>
        rw [decide_eq_false_iff_not]
        change ¬ p.userStart * 4096 ≤ (0x200 + fr 0) * 4096
        omega
  have hstart : vaddrStart cur m₁ user = page cur m user 0 * 4096 := by
    rw [← hI.start_eq]
    cases user with
    | true => rw [vaddrStart, vaddrStart, hun.quiet.task, h.task]
    | false => rfl
  have hbit : bitOf cur m₁ user v = i := by
    rw [bitOf, hstart, hv, hpage]
    omega
  have hbits : setBits (vaddrBits cur m₁ user) i n false = vaddrBits cur m user := by
    have hsame : vaddrBits cur m₁ user = setBits (vaddrBits cur m user) i n true := by
      rw [← h.bits]
      cases user with
      | true => rw [vaddrBits, vaddrBits, hun.quiet.bitmaps, hun.quiet.task]
      | false => exact hun.kernelBitmap
    rw [hsame]
    funext j
    rw [setBits, setBits]
    by_cases hin : i ≤ j ∧ j < i + n
    · have hclear := h.clear (j - i) (by omega)
      rw [Nat.add_sub_cancel' hin.1] at hclear
      rw [if_pos hin, hclear]
    · rw [if_neg hin, if_neg hin]
  refine ⟨m₁, hun, ht₁, ?_⟩
  rw [mfreePage, Code.bind_of_ok hpositive, Code.bind_of_ok hfirst, Code.bind_of_ok hhigh, huser, hv,
    Code.bind_of_ok hloop, ← hv, vaddrRemove, ← hbits, ← hbit]
  rfl

private theorem takenBack {m₁ : Machine}
    (hun : Unmapping user (page cur m user i) n fr m' m₁) :
    TakenBack user n fr m m' (Paging.setVaddrBits cur m₁ user (vaddrBits cur m user)) := by
  have hk := hun.kernelBitmap.trans h.mapping.grows.kernelBitmap
  have hb := hun.quiet.bitmaps.trans h.mapping.grows.bitmaps
  have htask := hun.quiet.task.trans h.task
  refine ⟨?_, ?_, ?_, ?_, ?_⟩
  · cases user with
    | true => exact hk
    | false => rfl
  · cases user with
    | true =>
        change Function.update m₁.bitmaps (m₁.task cur).bits _ = _
        rw [hb, htask]
        change Function.update (Function.update m.bitmaps _ _) _ (m.bitmaps _) = _
        rw [Function.update_idem, Function.update_eq_self]
    | false => exact hb
  · intro k hk
    rw [setVaddrBits_pool, h.clearFrame hk]
    by_contra hset
    exact ((hun.pool user (fr k)).mp (by simpa using hset)).2 ⟨rfl, k, hk, rfl⟩
  · intro u j hout
    rw [setVaddrBits_pool, Bool.eq_iff_iff, hun.pool]
    exact and_iff_left hout
  · intro w hw
    rw [frameOf_setVaddrBits, hun.frame w hw]
    split
    · rename_i hin
      have hfree := h.mapping.unmapped (w - page cur m user i) (by omega)
      rw [Nat.add_sub_cancel' hin.1, frameOf_setVaddrBits] at hfree
      exact hfree.symm
    · rename_i hout
      rw [h.mapping.others w hw (by omega), frameOf_setVaddrBits]

end Run

theorem Maps.of_same {m'' : Machine} (hI : Maps p cur m) (htask : m''.task = m.task)
    (hk : m''.kernelBitmap = m.kernelBitmap) (hb : m''.bitmaps = m.bitmaps)
    (hframe : ∀ w < 0xffc00, frameOf m'' w = frameOf m w)
    (hpool : ∀ u j, m.pool u j = true → m''.pool u j = true) (ht : Tables p m'')
    (hnew : ∀ u j, j < p.len u → m.pool u j = true →
      (∀ t < 1024, tableOf m t ≠ some (p.start u + j)) →
      ∀ t < 1024, tableOf m'' t ≠ some (p.start u + j)) : Maps p cur m'' := by
  have hbits : ∀ u, vaddrBits cur m'' u = vaddrBits cur m u := by
    intro u
    cases u with
    | true => rw [vaddrBits, vaddrBits, hb, htask]
    | false => exact hk
  have hsame : ∀ w, Managed p cur m w → frameOf m'' w = frameOf m w := by
    rintro w ⟨u, j, hj, rfl⟩
    exact hframe _ (hI.page_lt hj)
  refine ⟨⟨?_, ?_, ?_, ?_⟩, ht, ?_, ?_⟩
  · intro u j hj
    rw [vaddrLen_of_task htask] at hj
    rw [hbits, page_of_task htask, hframe _ (hI.page_lt hj)]
    exact hI.bits u j hj
  · intro w f hw hf
    rw [managed_of_task htask] at hw
    rw [hsame w hw] at hf
    obtain ⟨u, j, hj, hfj, hset⟩ := hI.pooled w f hw hf
    exact ⟨u, j, hj, hfj, hpool u j hset⟩
  · intro w x f hw hx hf hf'
    rw [managed_of_task htask] at hw hx
    rw [hsame w hw] at hf
    rw [hsame x hx] at hf'
    exact hI.inj w x f hw hx hf hf'
  · intro w f hw hf t htlt
    rw [managed_of_task htask] at hw
    rw [hsame w hw] at hf
    obtain ⟨u, j, hj, rfl, hset⟩ := hI.pooled w f hw hf
    exact hnew u j hj hset (hI.notTable w _ hw hf) t htlt
  · rw [htask]
    exact hI.aligned
  · rw [htask, vaddrLen_of_task htask]
    exact hI.below

/-- `malloc_page` maps pages that were free to frames that were free, and `mfree_page` undoes it;
the frames of new page tables stay. -/
theorem malloc_page_mfree_page (hI : Maps p cur m)
    (h : mallocPage p false cur user n m = .ok (v, m')) (hv : v ≠ 0) :
    Maps p cur m' ∧ ∃ i fr, Allocated p cur user n v i fr m m' ∧
      ∃ m'', mfreePage p false cur user v n m' = .ok ((), m'') ∧
        TakenBack user n fr m m' m'' ∧ Maps p cur m'' := by
  obtain ⟨i, fr, haddr, hn, hrun⟩ := hI.run h hv
  obtain ⟨m₁, hun, ht₁, hfree⟩ := hrun.mfreePage_returns hI hn haddr
  have hback := hrun.takenBack hun
  refine ⟨hrun.maps hI, i, fr, hrun.allocated hI haddr, _, hfree, hback, ?_⟩
  apply hI.of_same ((setVaddrBits_task _).trans (hun.quiet.task.trans hrun.task)) hback.kernelBitmap
    hback.bitmaps hback.present
  · intro u j hset
    by_cases hin : u = user ∧ ∃ k < n, j = fr k
    · obtain ⟨rfl, k, hk, rfl⟩ := hin
      rw [hback.frames k hk]
      exact hset
    · rw [hback.otherFrames u j hin]
      exact hrun.pool_grows hset
  · exact ht₁.setVaddrBits _
  · intro u j hj hset hold t ht
    rw [tableOf_setVaddrBits, hun.table]
    exact hrun.pooled_notTable hj hset hold ht

/-- A kernel thread whose directory has one table for the heap, in frame `T`. -/
def pagedMachine (T : Nat) : Machine where
  ram := fun f w =>
    if f = 0x100 ∧ w = 1023 then 0x100 * 4096 + 7
    else if f = 0x100 ∧ w = 768 then T * 4096 + 7 else 0
  cr3 := 0x100
  pool := fun _ _ => false
  kernelBitmap := fun _ => false
  bitmaps := fun _ _ => false
  task := fun _ =>
    { nameLen := 4, pgdir := 0, bits := 0, btmpBytesLen := 0, vaddrStart := 0 }

private theorem pagedMachine_tableOf {T t f : Nat} (h : tableOf (pagedMachine T) t = some f) :
    (t = 1023 ∧ f = 0x100) ∨ (t = 768 ∧ f = T) := by
  change entry (if (0x100 : Nat) = 0x100 ∧ t = 1023 then _ else _) = some f at h
  split at h
  · rename_i ht
    rw [entry_frame_flags] at h
    cases h
    exact .inl ⟨ht.2, rfl⟩
  · split at h
    · rename_i ht
      rw [entry_frame_flags] at h
      cases h
      exact .inr ⟨ht.2, rfl⟩
    · cases h

theorem pagedMachine_frameOf {T v : Nat} (hT : T ≠ 0x100) (hv : v < 0xffc00) :
    frameOf (pagedMachine T) v = none := by
  cases hf : tableOf (pagedMachine T) (v / 1024) with
  | none => exact frameOf_of_noTable hf
  | some f =>
      rcases pagedMachine_tableOf hf with ⟨ht, -⟩ | ⟨-, rfl⟩
      · omega
      · rw [frameOf_of_table hf]
        change entry (if f = 0x100 ∧ _ then _ else if f = 0x100 ∧ _ then _ else 0) = none
        rw [if_neg (fun h => hT h.1), if_neg (fun h => hT h.1), entry_zero]

private theorem pagedMachine_consistent {T : Nat} (hT : T ≠ 0x100) :
    Consistent smallPools 0 (pagedMachine T) := by
  have hnone : ∀ v, Managed smallPools 0 (pagedMachine T) v →
      frameOf (pagedMachine T) v = none := by
    rintro v ⟨user, i, hi, rfl⟩
    cases user with
    | true => exact absurd hi (Nat.not_lt_zero i)
    | false =>
        change i < 8 at hi
        rw [kernel_page_eq]
        exact pagedMachine_frameOf hT (by omega)
  refine ⟨?_, ?_, ?_, ?_⟩
  · intro user i hi
    rw [hnone _ ⟨user, i, hi, rfl⟩]
    cases user <;> simp [vaddrBits, pagedMachine]
  · intro v f hv hf
    rw [hnone v hv] at hf
    cases hf
  · intro v w f hv _ hf
    rw [hnone v hv] at hf
    cases hf
  · intro v f hv hf
    rw [hnone v hv] at hf
    cases hf

theorem pagedMachine_maps : Maps smallPools 0 (pagedMachine 0x101) where
  toConsistent := pagedMachine_consistent (by decide)
  tables := by
    refine ⟨rfl, ?_, ?_⟩
    · intro t _ f hf user i hi heq
      have hpool : smallPools.start user = 0x208 ∨ smallPools.start user = 0x200 := by
        cases user with
        | true => exact .inl rfl
        | false => exact .inr rfl
      rcases pagedMachine_tableOf hf with ⟨-, rfl⟩ | ⟨-, rfl⟩
      · omega
      · omega
    · intro t _ u _ f hf hf'
      rcases pagedMachine_tableOf hf with ⟨rfl, rfl⟩ | ⟨rfl, rfl⟩
      · rcases pagedMachine_tableOf hf' with ⟨rfl, -⟩ | ⟨-, h⟩
        · rfl
        · cases h
      · rcases pagedMachine_tableOf hf' with ⟨-, h⟩ | ⟨rfl, -⟩
        · cases h
        · rfl
  aligned := rfl
  below := by decide

theorem malloc_page_mfree_page_kernel : ∃ m',
    mallocPage smallPools false 0 false 2 (pagedMachine 0x101) = .ok (0xc0100000, m') ∧
    Maps smallPools 0 m' := by
  obtain ⟨m', hm'⟩ : ∃ m',
      mallocPage smallPools false 0 false 2 (pagedMachine 0x101) = .ok (0xc0100000, m') :=
    Code.returns_of_toOption (by decide +kernel)
  exact ⟨m', hm', (malloc_page_mfree_page pagedMachine_maps hm' (by decide)).1⟩

/-- Where the frame of a page table counts as free, it is given out as a page. -/
theorem malloc_page_gives_out_table :
    ¬ ∀ (p : Pools) (cur : Nat) (user : Bool) (n v : Nat) (m m' : Machine), Consistent p cur m →
      m.Window m.cr3 → 0 < n → n < 3840 → mallocPage p false cur user n m = .ok (v, m') →
      v ≠ 0 → Consistent p cur m' := by
  intro h
  obtain ⟨m', hm'⟩ : ∃ m',
      mallocPage smallPools false 0 false 1 (pagedMachine 0x200) = .ok (0xc0100000, m') :=
    Code.returns_of_toOption (by decide +kernel)
  obtain ⟨v, m₁, hm₁, hmaps⟩ : ∃ v m₁,
      mallocPage smallPools false 0 false 1 (pagedMachine 0x200) = .ok (v, m₁) ∧
        (frameOf m₁ 0xc0100, tableOf m₁ 768, vaddrLen smallPools 0 m₁ false) =
          (some 0x200, some 0x200, 8) :=
    Code.exists_of_toOption (by decide +kernel)
  rw [hm'] at hm₁
  cases hm₁
  simp only [Prod.mk.injEq] at hmaps
  have hcon := h _ _ _ _ _ _ _ (pagedMachine_consistent (by decide)) rfl (by decide) (by decide) hm'
    (by decide)
  exact hcon.notTable 0xc0100 0x200 ⟨false, 0, by omega, (kernel_page_eq 0 m' 0).symm⟩ hmaps.1 768
    (by decide) hmaps.2.1

end Pages

end Aitos.Paging
