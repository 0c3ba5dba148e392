import Aitos.Fs.Transfer
import Aitos.Proc.Exec

/-!
# Loading a segment

The loop of `segment_load` tests the same page at every turn, so of all the pages that a segment
touches it can map the first one only.  Storing the bytes of the file through the page tables maps
nothing, and the pages that have frames are none of the tables.
-/

namespace Aitos.Proc.Exec

open Framework Proc.Fork Paging

/-- Page `v` has an address of `[vaddr, vaddr + filesz)`. -/
def Touches (vaddr filesz : UInt32) (v : Nat) : Prop :=
  ∃ a, vaddr.toNat ≤ a ∧ a < vaddr.toNat + filesz.toNat ∧ a / 4096 = v

/-- The range lies above the first page of the user area and below the stack page. -/
structure InUserArea (vaddr filesz : UInt32) : Prop where
  low : userVaddrStart + 4096 ≤ vaddr.toNat
  high : vaddr.toNat + filesz.toNat ≤ 0xbffff000

/-- The touched pages are mapped, the pages that were mapped have kept their frames, and the bits
of the touched pages are set, and no others that were not. -/
structure Loaded (cur : Nat) (vaddr filesz : UInt32) (m m' : Machine) : Prop where
  mapped : ∀ v, Touches vaddr filesz v → (frameOf m' v).isSome
  kept : ∀ v < 0xc0000, ∀ f, frameOf m v = some f → frameOf m' v = some f
  bits : ∀ i < bitmapBytesLen * 8, vaddrBits cur m' true i = true ↔
    vaddrBits cur m true i = true ∨ Touches vaddr filesz (userVaddrStart / 4096 + i)

/-- The first page is the only one that has to be mapped, and there is something to put into it. -/
structure FirstSuffices (vaddr filesz : UInt32) (m : Machine) : Prop where
  others : ∀ v, Touches vaddr filesz v → v ≠ vaddr.toNat / 4096 → (frameOf m v).isSome
  empty : filesz = 0 → (frameOf m (vaddr.toNat / 4096)).isSome

/-- What `segment_load` does to the pages: the first one is mapped. -/
structure FirstMapped (cur v : Nat) (m m' : Machine) : Prop where
  first : (frameOf m' v).isSome
  kept : ∀ f, frameOf m v = some f → frameOf m' v = some f
  others : ∀ w < 0xffc00, w ≠ v → frameOf m' w = frameOf m w
  bits : ∀ i < bitmapBytesLen * 8, vaddrBits cur m' true i = true ↔
    vaddrBits cur m true i = true ∨ userVaddrStart / 4096 + i = v

section Store

variable {p : Pools} {cur : Nat} {m m' : Machine}

/-- Everything but what lies in memory, and the page tables -/
structure SamePages (m m' : Machine) : Prop where
  cr3 : m'.cr3 = m.cr3
  task : m'.task = m.task
  pool : m'.pool = m.pool
  kernelBitmap : m'.kernelBitmap = m.kernelBitmap
  bitmaps : m'.bitmaps = m.bitmaps
  table : ∀ t < 1024, tableOf m' t = tableOf m t
  frame : ∀ w < 0xffc00, frameOf m' w = frameOf m w

instance : IsPreorder Machine SamePages where
  refl _ := ⟨rfl, rfl, rfl, rfl, rfl, fun _ _ => rfl, fun _ _ => rfl⟩
  trans _ _ _ h h' := ⟨h'.cr3.trans h.cr3, h'.task.trans h.task, h'.pool.trans h.pool,
    h'.kernelBitmap.trans h.kernelBitmap, h'.bitmaps.trans h.bitmaps,
    fun t ht => (h'.table t ht).trans (h.table t ht),
    fun w hw => (h'.frame w hw).trans (h.frame w hw)⟩

theorem SamePages.vaddrBits (h : SamePages m m') :
    vaddrBits cur m' true = vaddrBits cur m true := by
  rw [Paging.vaddrBits, Paging.vaddrBits, h.bitmaps, h.task]

/-- The frame of a page is no page table, so that a word of the page can be written. -/
private theorem samePages_setWord {v f : Nat} (hI : Maps p cur m) (hv : Managed p cur m v)
    (hf : frameOf m v = some f) (k x : Nat) : SamePages m (m.setWord f k x) := by
  have hnot := hI.notTable v f hv hf
  have hne : m.cr3 ≠ f := by
    rintro rfl
    exact hnot 1023 (by omega) hI.tables.self
  have hram : ∀ g, g ≠ f → (m.setWord f k x).ram g = m.ram g := fun g hg => setWord_ram_of_ne hg
  have htable : ∀ t, tableOf (m.setWord f k x) t = tableOf m t := by
    intro t
    rw [tableOf, tableOf]
    exact congrArg (fun ws : Nat → Nat => entry (ws t)) (hram _ hne)
  refine ⟨rfl, rfl, rfl, rfl, rfl, fun t _ => htable t, ?_⟩
  intro w hw
  cases hT : tableOf m (w / 1024) with
  | none => rw [frameOf_of_noTable hT, frameOf_of_noTable ((htable _).trans hT)]
  | some T =>
      have hTf : T ≠ f := by
        rintro rfl
        exact hnot _ (by omega) hT
      rw [frameOf_of_table hT, frameOf_of_table ((htable _).trans hT), hram T hTf]

private theorem Maps.samePages (hI : Maps p cur m) (h : SamePages m m')
    (hdir : m'.ram m.cr3 = m.ram m.cr3) : Maps p cur m' := by
  have htaken : ∀ f, Taken p m f → Taken p m' f := by
    intro f hf u i hi heq
    rw [h.pool]
    exact hf u i hi heq
  apply hI.of_same h.task h.kernelBitmap h.bitmaps h.frame
  · intro u j hset
    rw [h.pool]
    exact hset
  · exact hI.tables.of_same h.cr3 hdir fun _ _ f _ hf => htaken f hf
  · intro u j _ _ hold t ht
    rw [h.table t ht]
    exact hold t ht

private theorem storeByte_ok {a : Nat} {b : UInt8} {u : Unit} (h : storeByte a b m = .ok (u, m')) :
    ∃ f, frameOf m (a / 4096) = some f ∧ ∃ x, m' = m.setWord f (a % 4096 / 4) x := by
  rw [storeByte] at h
  obtain ⟨f, m₁, htr, hset⟩ := Code.bind_ok.mp h
  rw [Proc.Fork.translate, Code.get_bind, Code.get_bind] at htr
  cases hwalk : m.walkFrom m.cr3 (a / 4096) with
  | none =>
      rw [hwalk] at htr
      cases htr
  | some g =>
      rw [hwalk] at htr
      obtain ⟨rfl, rfl⟩ := Code.pure_ok.mp htr
      exact ⟨f, hwalk, _, Code.modify_ok.mp hset⟩

private theorem storeBytes_same (bs : List UInt8) :
    ∀ {a : Nat} {m : Machine} {u : Unit}, Maps p cur m →
    (∀ k < bs.length, Managed p cur m ((a + k) / 4096)) → a + bs.length < 2 ^ 32 →
    storeBytes a bs m = .ok (u, m') → SamePages m m' := by
  induction bs with
  | nil =>
      intro a m u _ _ _ h
      obtain ⟨-, rfl⟩ := Code.pure_ok.mp h
      exact refl_of SamePages _
  | cons b bs ih =>
      intro a m u hI hman hlt h
      rw [List.length_cons] at hman hlt
      rw [storeBytes] at h
      obtain ⟨_, m₁, hbyte, hrest⟩ := Code.bind_ok.mp h
      obtain ⟨f, hf, x, rfl⟩ := storeByte_ok hbyte
      have hfirst := hman 0 (by omega)
      have hsame := samePages_setWord hI hfirst hf (a % 4096 / 4) x
      have hne : m.cr3 ≠ f := by
        rintro rfl
        exact hI.notTable _ _ hfirst hf 1023 (by omega) hI.tables.self
      have hI₁ := Maps.samePages hI hsame (setWord_ram_of_ne hne)
      rw [Nat.mod_eq_of_lt (show a + 1 < 2 ^ 32 by omega)] at hrest
      refine trans_of SamePages hsame (ih hI₁ ?_ (by omega) hrest)
      intro k hk
      rw [managed_of_task hsame.task, show a + 1 + k = a + (k + 1) by omega]
      exact hman (k + 1) (by omega)

end Store

section Alloc

variable {p : Pools} {cur : Nat} {vaddr : UInt32}

private theorem pageAbsent_eq {m : Machine} (ht : Tables p m) (vaddr : UInt32) :
    pageAbsent vaddr m = .ok (decide (frameOf m (vaddr.toNat / 4096) = none), m) := by
  have ha := vaddr.toNat_lt
  have hdir : vaddr.toNat / 4096 / 1024 = vaddr.toNat / 2 ^ 22 := by omega
  have hpde := load_of_walk (walk_pdePtr ht.window ha)
  rw [pdePtr_word ha] at hpde
  rw [pageAbsent, Code.bind_of_ok hpde]
  by_cases hodd : m.ram m.cr3 (vaddr.toNat / 2 ^ 22) % 2 = 1
  · have hT : tableOf m (vaddr.toNat / 4096 / 1024) =
        some (m.ram m.cr3 (vaddr.toNat / 2 ^ 22) / 4096) := by
      rw [hdir, tableOf, entry, if_pos hodd]
    have hwalk := walk_ptePtr ht.window ha
    rw [if_pos hodd] at hwalk
    have hpte := load_of_walk hwalk
    rw [ptePtr_word ha] at hpte
    rw [if_pos hodd, Code.bind_of_ok hpte]
    simp only [frameOf_of_table hT, entry_none]
    rfl
  · have hT : tableOf m (vaddr.toNat / 4096 / 1024) = none := by
      rw [hdir]
      exact entry_none.mpr hodd
    rw [if_neg hodd]
    simp only [frameOf_of_noTable hT, decide_true]
    rfl

theorem onMem_of_ok {α : Type} {c : PgM α} {s : State} {x : α} {m : Machine}
    (h : c s.mem = .ok (x, m)) : onMem c s = .ok (x, { s with mem := m }) := by
  rw [onMem, h]

theorem onMem_ok {α : Type} {c : PgM α} {s s' : State} {x : α} (h : onMem c s = .ok (x, s')) :
    ∃ m, c s.mem = .ok (x, m) ∧ s' = { s with mem := m } := by
  rw [onMem] at h
  split at h
  · rename_i y m hc
    cases h
    exact ⟨m, hc, rfl⟩
  · cases h

theorem onFs_ok {α : Type} {c : Fs.FsM α} {s s' : State} {x : α} (h : onFs c s = .ok (x, s')) :
    ∃ t, c s.fs = .ok (x, t) ∧ s' = { s with fs := t } := by
  rw [onFs] at h
  split at h
  · rename_i y t hc
    cases h
    exact ⟨t, hc, rfl⟩
  · cases h

private theorem allocPages_mapped {s : State} (ht : Tables p s.mem)
    (hmap : frameOf s.mem (vaddr.toNat / 4096) ≠ none) (n : Nat) :
    ∀ x, allocPages p cur vaddr n x s = .ok (true, s) := by
  have habsent := onMem_of_ok (s := s) (pageAbsent_eq ht vaddr)
  rw [decide_eq_false hmap] at habsent
  induction n with
  | zero => exact fun _ => rfl
  | succ n ih =>
      intro x
      rw [allocPages, Code.bind_of_ok habsent]
      exact ih _

private theorem allocPages_ok {s s' : State} {n b : Nat} {x : UInt32} (hI : Maps p cur s.mem)
    (hb : b < vaddrLen p cur s.mem true) (hpage : page cur s.mem true b = vaddr.toNat / 4096)
    (hx : x.toNat = vaddr.toNat / 4096 * 4096)
    (h : allocPages p cur vaddr (n + 1) x s = .ok (true, s')) :
    (frameOf s.mem (vaddr.toNat / 4096) ≠ none ∧ s' = s) ∨
    (frameOf s.mem (vaddr.toNat / 4096) = none ∧
      ∃ i, Run p cur true 1 b (fun _ => i) s.mem s'.mem) := by
  by_cases hmap : frameOf s.mem (vaddr.toNat / 4096) = none
  · refine .inr ⟨hmap, ?_⟩
    have habsent := onMem_of_ok (s := s) (pageAbsent_eq hI.tables vaddr)
    rw [decide_eq_true hmap] at habsent
    rw [allocPages, Code.bind_of_ok habsent, if_pos rfl] at h
    obtain ⟨r, s₁, hcall, h⟩ := Code.bind_ok.mp h
    obtain ⟨m₁, hget, rfl⟩ := onMem_ok hcall
    split at h
    · cases (Code.pure_ok.mp h).1
    · rename_i hr
      rw [hx, ← hpage] at hget
      obtain ⟨i, hrun⟩ := hI.run_getAPage hb (hpage ▸ hmap) hget hr
      have hmapped := hrun.mapped (k := 0) (by omega)
      rw [Nat.add_zero, hpage] at hmapped
      have hrest : allocPages p cur vaddr n (x + 4096) { s with mem := m₁ } =
          .ok (true, { s with mem := m₁ }) :=
        allocPages_mapped hrun.tables (by rw [hmapped]; exact Option.some_ne_none _) n (x + 4096)
      rw [hrest] at h
      cases h
      exact ⟨i, hrun⟩
  · rw [allocPages_mapped hI.tables hmap] at h
    cases h
    exact .inl ⟨hmap, rfl⟩

private theorem occupyPages_pos (filesz vaddr : UInt32) :
    ∃ n, (occupyPages filesz vaddr).toNat = n + 1 := by
  have hne : (occupyPages filesz vaddr).toNat ≠ 0 := by
    rw [occupyPages]
    split
    · have hdiv : ∀ x : UInt32, (x / 4096 + 1).toNat = x.toNat / 4096 + 1 := by
        intro x
        have hx := x.toNat_lt
        rw [UInt32.toNat_add, UInt32.toNat_div]
        change (x.toNat / 4096 + 1) % 2 ^ 32 = _
        omega
      rw [hdiv]
      omega
    · decide
  exact Nat.exists_eq_succ_of_ne_zero hne

private theorem segmentLoad_ok {s s' : State} {typed : Nat → UInt8} {fd : Int}
    {offset filesz : UInt32}
    (h : segmentLoad p cur typed fd offset filesz vaddr s = .ok (true, s')) :
    ∃ n s₁ bs, allocPages p cur vaddr (n + 1) (vaddr &&& 0xfffff000) s = .ok (true, s₁) ∧
      bs.length ≤ filesz.toNat ∧ storeBytes vaddr.toNat bs s₁.mem = .ok ((), s'.mem) := by
  obtain ⟨n, hn⟩ := occupyPages_pos filesz vaddr
  rw [segmentLoad, hn] at h
  obtain ⟨done, s₁, halloc, h⟩ := Code.bind_ok.mp h
  cases done with
  | false => cases (Code.pure_ok.mp h).1
  | true =>
      obtain ⟨_, s₂, hseek, h⟩ := Code.bind_ok.mp h
      obtain ⟨_, s₃, huser, h⟩ := Code.bind_ok.mp h
      obtain ⟨-, rfl⟩ := Code.pure_ok.mp h
      obtain ⟨t₂, -, rfl⟩ := onFs_ok hseek
      rw [readUser] at huser
      obtain ⟨r, s₅, hcall, huser⟩ := Code.bind_ok.mp huser
      obtain ⟨t₅, hread, rfl⟩ := onFs_ok hcall
      obtain ⟨_, s₆, hmem, huser⟩ := Code.bind_ok.mp huser
      obtain ⟨-, rfl⟩ := Code.pure_ok.mp huser
      obtain ⟨m₆, hstore, rfl⟩ := onMem_ok hmem
      exact ⟨n, s₁, r.2, halloc, Fs.sysRead_length hread, hstore⟩

end Alloc

section Effect

variable {p : Pools} {cur v : Nat} {m m₁ m' : Machine} {vaddr filesz : UInt32} {s s' : State}

private theorem user_page (huser : UserProcess m cur) (hlo : userVaddrStart / 4096 ≤ v)
    (hhi : v < 0xc0000) : v - userVaddrStart / 4096 < vaddrLen p cur m true ∧
      page cur m true (v - userVaddrStart / 4096) = v := by
  have hstart : userVaddrStart = 0x8048000 := rfl
  have hlen : vaddrLen p cur m true = 753592 := by
    rw [vaddrLen, huser.len]
    rfl
  refine ⟨by omega, ?_⟩
  rw [page, vaddrStart, huser.start]
  omega

theorem InUserArea.first (hin : InUserArea vaddr filesz) :
    userVaddrStart / 4096 ≤ vaddr.toNat / 4096 ∧ vaddr.toNat / 4096 < 0xc0000 := by
  have hlow := hin.low
  have hhigh := hin.high
  omega

private theorem InUserArea.touches (hin : InUserArea vaddr filesz) (h : Touches vaddr filesz v) :
    userVaddrStart / 4096 ≤ v ∧ v < 0xc0000 := by
  obtain ⟨a, hlo, hhi, rfl⟩ := h
  have hlow := hin.low
  have hhigh := hin.high
  omega

private theorem user_bit (hI : Maps p cur m) (huser : UserProcess m cur)
    (hlo : userVaddrStart / 4096 ≤ v) (hhi : v < 0xc0000) :
    vaddrBits cur m true (v - userVaddrStart / 4096) = true ↔ (frameOf m v).isSome := by
  obtain ⟨hlt, hpage⟩ := user_page (p := p) huser hlo hhi
  rw [hI.bits true _ hlt, hpage]

private theorem firstMapped_of_mapped (hI : Maps p cur m) (huser : UserProcess m cur)
    (hlo : userVaddrStart / 4096 ≤ v) (hhi : v < 0xc0000) (hmap : (frameOf m v).isSome) :
    FirstMapped cur v m m where
  first := hmap
  kept _ hf := hf
  others _ _ _ := rfl
  bits i hi := by
    refine ⟨.inl, ?_⟩
    rintro (hset | rfl)
    · exact hset
    · have hbit := (user_bit hI huser hlo hhi).mpr hmap
      rw [Nat.add_sub_cancel_left] at hbit
      exact hbit

private theorem firstMapped_of_run {i : Nat} (huser : UserProcess m cur)
    (hlo : userVaddrStart / 4096 ≤ v) (hhi : v < 0xc0000) (hun : frameOf m v = none)
    (hrun : Run p cur true 1 (v - userVaddrStart / 4096) (fun _ => i) m m') :
    FirstMapped cur v m m' where
  first := by
    have hmapped := hrun.mapped (k := 0) (by omega)
    rw [Nat.add_zero, (user_page (p := p) huser hlo hhi).2] at hmapped
    rw [hmapped]
    rfl
  kept f hf := by
    rw [hun] at hf
    cases hf
  others w hw hne := by
    apply hrun.others hw
    intro k hk
    rw [show v - userVaddrStart / 4096 + k = v - userVaddrStart / 4096 by omega,
      (user_page (p := p) huser hlo hhi).2]
    exact hne
  bits j hj := by
    rw [hrun.bits, setBits]
    split
    · exact iff_of_true rfl (.inr (by omega))
    · exact (or_iff_left (by omega)).symm

private theorem FirstMapped.samePages (h : FirstMapped cur v m m₁) (hs : SamePages m₁ m')
    (hhi : v < 0xc0000) : FirstMapped cur v m m' where
  first := by
    rw [hs.frame v (by omega)]
    exact h.first
  kept f hf := by
    rw [hs.frame v (by omega)]
    exact h.kept f hf
  others w hw hne := (hs.frame w hw).trans (h.others w hw hne)
  bits i hi := by
    rw [hs.vaddrBits]
    exact h.bits i hi

private theorem segmentLoad_firstMapped {typed : Nat → UInt8} {fd : Int} {offset : UInt32}
    (hI : Maps p cur s.mem) (huser : UserProcess s.mem cur) (hin : InUserArea vaddr filesz)
    (h : segmentLoad p cur typed fd offset filesz vaddr s = .ok (true, s')) :
    FirstMapped cur (vaddr.toNat / 4096) s.mem s'.mem := by
  obtain ⟨n, s₁, bs, halloc, hlen, hstore⟩ := segmentLoad_ok h
  obtain ⟨hlo, hhi⟩ := hin.first
  obtain ⟨hb, hpage⟩ := user_page (p := p) huser hlo hhi
  have hx : (vaddr &&& 0xfffff000).toNat = vaddr.toNat / 4096 * 4096 := by
    rw [UInt32.toNat_and]
    exact and_page vaddr.toNat_lt
  -- the loop
  have hmid : Maps p cur s₁.mem ∧ FirstMapped cur (vaddr.toNat / 4096) s.mem s₁.mem ∧
      s₁.mem.task = s.mem.task := by
    rcases allocPages_ok hI hb hpage hx halloc with ⟨hmap, rfl⟩ | ⟨hun, i, hrun⟩
    · exact ⟨hI, firstMapped_of_mapped hI huser hlo hhi (Option.isSome_iff_ne_none.mpr hmap), rfl⟩
    · exact ⟨hrun.maps hI, firstMapped_of_run huser hlo hhi hun hrun, hrun.task⟩
  obtain ⟨hI₁, hfirst, htask⟩ := hmid
  -- the bytes of the file
  have hlow := hin.low
  have hhigh := hin.high
  refine hfirst.samePages (storeBytes_same bs hI₁ ?_ (by omega) hstore) hhi
  intro k hk
  rw [managed_of_task htask]
  have htouch : Touches vaddr filesz ((vaddr.toNat + k) / 4096) :=
    ⟨vaddr.toNat + k, by omega, by omega, rfl⟩
  obtain ⟨hlo', hhi'⟩ := hin.touches htouch
  obtain ⟨hlt, heq⟩ := user_page (p := p) huser hlo' hhi'
  exact ⟨true, _, hlt, heq.symm⟩

theorem FirstMapped.loaded (hI : Maps p cur m) (huser : UserProcess m cur)
    (hin : InUserArea vaddr filesz) (h : FirstMapped cur (vaddr.toNat / 4096) m m')
    (hsuff : FirstSuffices vaddr filesz m) : Loaded cur vaddr filesz m m' where
  mapped v hv := by
    by_cases hfirst : v = vaddr.toNat / 4096
    · rw [hfirst]
      exact h.first
    · have hrange := (hin.touches hv).2
      rw [h.others v (by omega) hfirst]
      exact hsuff.others v hv hfirst
  kept v hv f hf := by
    by_cases hfirst : v = vaddr.toNat / 4096
    · subst hfirst
      exact h.kept f hf
    · rw [h.others v (by omega) hfirst]
      exact hf
  bits i hi := by
    have hbit : ∀ w, userVaddrStart / 4096 + i = w → w < 0xc0000 → (frameOf m w).isSome →
        vaddrBits cur m true i = true := by
      rintro w rfl hw hmap
      have hset := (user_bit hI huser (Nat.le_add_right _ _) hw).mpr hmap
      rw [Nat.add_sub_cancel_left] at hset
      exact hset
    rw [h.bits i hi]
    constructor
    · rintro (hset | hfirst)
      · exact .inl hset
      · by_cases hzero : filesz = 0
        · exact .inl (hbit _ hfirst hin.first.2 (hsuff.empty hzero))
        · have hpos : filesz.toNat ≠ 0 := fun h0 => hzero (UInt32.toNat_inj.mp h0)
          exact .inr ⟨vaddr.toNat, le_rfl, by omega, hfirst.symm⟩
    · rintro (hset | htouch)
      · exact .inl hset
      · by_cases hfirst : userVaddrStart / 4096 + i = vaddr.toNat / 4096
        · exact .inr hfirst
        · exact .inl (hbit _ rfl (hin.touches htouch).2 (hsuff.others _ htouch hfirst))

private theorem FirstMapped.firstSuffices (hI : Maps p cur m) (huser : UserProcess m cur)
    (hin : InUserArea vaddr filesz) (h : FirstMapped cur (vaddr.toNat / 4096) m m')
    (hload : Loaded cur vaddr filesz m m') : FirstSuffices vaddr filesz m where
  others v hv hne := by
    have hrange := (hin.touches hv).2
    rw [← h.others v (by omega) hne]
    exact hload.mapped v hv
  empty hzero := by
    obtain ⟨hlo, hhi⟩ := hin.first
    obtain ⟨hlt, -⟩ := user_page (p := p) huser hlo hhi
    have hlen : vaddrLen p cur m true = bitmapBytesLen * 8 := congrArg (· * 8) huser.len
    rw [hlen] at hlt
    have hset := (h.bits _ hlt).mpr (.inr (by omega))
    rcases (hload.bits _ hlt).mp hset with hold | ⟨a, hle, hlt, -⟩
    · exact (user_bit hI huser hlo hhi).mp hold
    · rw [hzero] at hlt
      change a < vaddr.toNat + 0 at hlt
      omega

end Effect

/-- When `segment_load` returns true, it has done its work only where the pages behind the first
one were mapped already. -/
theorem segment_load_iff (p : Pools) (cur : Nat) (typed : Nat → UInt8) (fd : Int)
    (offset filesz vaddr : UInt32) (s s' : State) (hI : Maps p cur s.mem)
    (huser : UserProcess s.mem cur) (hin : InUserArea vaddr filesz)
    (h : segmentLoad p cur typed fd offset filesz vaddr s = .ok (true, s')) :
    Loaded cur vaddr filesz s.mem s'.mem ↔ FirstSuffices vaddr filesz s.mem :=
  ⟨(segmentLoad_firstMapped hI huser hin h).firstSuffices hI huser hin,
    (segmentLoad_firstMapped hI huser hin h).loaded hI huser hin⟩

/-- The process without pages, on a file system where it has made the file `/f`. -/
def execState (fs : Fs.State) : State where
  fs := fs
  mem := userMachine
  name := []
  frame := ⟨0, 0, 0, 0⟩

/-- A segment of one page, behind the end of the file -/
theorem segment_load_onePage : ∃ fs s',
    segmentLoad Paging.smallPools 0 (fun _ => 0) 3 0 0x1000 0x8049000 (execState fs) = .ok (true, s') ∧
      Loaded 0 0x8049000 0x1000 userMachine s'.mem := by
  have hplay : ∃ fs ∈ Fs.smallSystem.bind (Fs.State.play · [Fs.createF]),
      (segmentLoad Paging.smallPools 0 (fun _ => 0) 3 0 0x1000 0x8049000
        (execState fs)).toOption.map (fun out => out.1) = some true := by
    decide +kernel
  obtain ⟨fs, -, hrun⟩ := hplay
  obtain ⟨s', hs'⟩ := Code.returns_of_toOption hrun
  refine ⟨fs, s', hs', (segment_load_iff _ _ _ _ _ _ _ _ _ userMachine_maps userMachine_user
    ⟨by decide, by decide⟩ hs').mpr ⟨?_, fun h => absurd h (by decide)⟩⟩
  rintro v ⟨a, hlo, hhi, rfl⟩ hne
  change 0x8049000 ≤ a at hlo
  change a < 0x8049000 + 0x1000 at hhi
  change a / 4096 ≠ 0x8049000 / 4096 at hne
  omega

/-- The second page of a segment of two pages is left out. -/
theorem segment_load_twoPages : ¬ ∀ (p : Pools) (cur : Nat) (typed : Nat → UInt8) (fd : Int)
    (offset filesz vaddr : UInt32) (s s' : State), Maps p cur s.mem → UserProcess s.mem cur →
    InUserArea vaddr filesz →
    segmentLoad p cur typed fd offset filesz vaddr s = .ok (true, s') →
    Loaded cur vaddr filesz s.mem s'.mem := by
  intro h
  have hplay : ∃ fs ∈ Fs.smallSystem.bind (Fs.State.play · [Fs.createF]),
      (segmentLoad Paging.smallPools 0 (fun _ => 0) 3 0 0x2000 0x8049000 (execState fs)).toOption.map
        (fun out => (out.1, frameOf out.2.mem 0x804a)) = some (true, none) := by
    decide +kernel
  obtain ⟨fs, -, hrun⟩ := hplay
  obtain ⟨out, hout, hval⟩ := Option.map_eq_some_iff.mp hrun
  obtain ⟨done, s'⟩ := out
  simp only [Prod.mk.injEq] at hval
  obtain ⟨rfl, hnone⟩ := hval
  have hload := h Paging.smallPools 0 (fun _ => 0) 3 0 0x2000 0x8049000 (execState fs) s' userMachine_maps
    userMachine_user ⟨by decide, by decide⟩ (Code.ok_of_toOption hout)
  have hmapped := hload.mapped 0x804a ⟨0x804a000, by decide, by decide, rfl⟩
  rw [hnone] at hmapped
  cases hmapped

end Aitos.Proc.Exec
