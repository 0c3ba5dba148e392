import Aitos.Mm.Memory
import Aitos.Mm.UserPage

/-!
# The page allocator at its levels

Fork has its own `malloc_page` for kernel pages, the heap one that sees page tables as a map from
pages to frames.  Both do what the page allocator does on the tables in memory.
-/

namespace Aitos.Paging

open Framework Proc.Fork

section Kernel

variable (p : Pools) (cur : Nat)

private theorem findRun_one (bits : Nat → Bool) (len : Nat) :
    findRun bits len 1 = firstClear bits 0 len := by
  rw [findRun]
  cases firstClear bits 0 len with
  | none => rfl
  | some first => rfl

private theorem palloc_fork (user : Bool) :
    palloc p false user = (Proc.Fork.palloc p user >>= fun frame => pure (some frame)) := by
  funext m
  rw [palloc, Proc.Fork.palloc, Code.get_bind, bind_assoc, Code.get_bind, bitmapScan, findRun_one]
  cases firstClear (m.pool user) 0 (p.len user) with
  | none => rfl
  | some i => rfl

private theorem mapPages_fork {vaddr cnt : Nat} (h : vaddr + 4096 * cnt ≤ 2 ^ 32) :
    mapPages p false false vaddr cnt = (mallocLoop p vaddr cnt >>= fun _ => pure true) := by
  induction cnt generalizing vaddr with
  | zero => rfl
  | succ cnt ih =>
      have hrest : mapPages p false false ((vaddr + 4096) % 2 ^ 32) cnt =
          (mallocLoop p (vaddr + 4096) cnt >>= fun _ => pure true) := by
        cases cnt with
        | zero => rfl
        | succ cnt =>
            have hend : vaddr + 4096 + 4096 * (cnt + 1) = vaddr + 4096 * (cnt + 1 + 1) := by omega
            rw [Nat.mod_eq_of_lt (by omega)]
            rw [← hend] at h
            exact ih h
      rw [mapPages, mallocLoop, palloc_fork]
      simp only [bind_assoc, pure_bind, pageTableAdd_eq, hrest]

/-- The run that is found has a bit of its own, so its pages do not start at 0. -/
private theorem vaddrGet_fork {pgCnt : Nat} (h : 0 < pgCnt) (m : Machine) :
    vaddrGet p false cur false pgCnt m =
      (Proc.Fork.vaddrGet p pgCnt >>= fun r => pure (r.getD 0)) m := by
  have hheap := p.heapFits
  have hlen : vaddrLen p cur m false = p.len false := rfl
  have hbits : vaddrBits cur m false = m.kernelBitmap := rfl
  have hstart : vaddrStart cur m false = 0xc0100000 := rfl
  rw [vaddrGet, Proc.Fork.vaddrGet, Code.get_bind, bind_assoc, Code.get_bind, bitmapScan, findRun,
    hbits, hlen, hstart]
  cases firstClear m.kernelBitmap 0 (p.len false) with
  | none => rfl
  | some first =>
      dsimp only
      generalize (if pgCnt = 1 then some first
        else scanRun m.kernelBitmap pgCnt (p.len false - first) (first + 1) 1) = found
      cases found with
      | none => rfl
      | some i =>
          rw [pure_bind]
          dsimp only
          by_cases hfits : i + pgCnt ≤ p.len false
          · have haddr : (0xc0100000 + i * 4096) % 2 ^ 32 = 0xc0100000 + i * 4096 :=
              Nat.mod_eq_of_lt (by omega)
            rw [if_neg (by omega), if_pos hfits]
            change Except.ok ((0xc0100000 + i * 4096) % 2 ^ 32, _) =
              Except.ok (0xc0100000 + i * 4096, _)
            rw [haddr]
            rfl
          · rw [if_pos (by omega), if_neg hfits]
            rfl

private theorem vaddrGet_some {pgCnt vaddr : Nat} {m m' : Machine}
    (h : Proc.Fork.vaddrGet p pgCnt m = .ok (some vaddr, m')) :
    0 < vaddr ∧ vaddr + 4096 * pgCnt ≤ 2 ^ 32 := by
  have hheap := p.heapFits
  rw [Proc.Fork.vaddrGet, Code.get_bind] at h
  cases hfirst : firstClear m.kernelBitmap 0 (p.len false) with
  | none =>
      rw [hfirst] at h
      exact (Code.throw_ok.mp h).elim
  | some first =>
      rw [hfirst] at h
      dsimp only at h
      generalize (if pgCnt = 1 then some first
        else scanRun m.kernelBitmap pgCnt (p.len false - first) (first + 1) 1) = found at h
      cases found with
      | none => exact absurd (Code.pure_ok.mp h).1 (by simp)
      | some i =>
          dsimp only at h
          split at h
          · rw [Code.modify_bind] at h
            obtain ⟨hvaddr, -⟩ := Code.pure_ok.mp h
            obtain rfl := Option.some.inj hvaddr
            omega
          · exact (Code.throw_ok.mp h).elim

/-- `copy_process` calls the `malloc_page` of the page allocator, for kernel pages. -/
theorem mallocPage_fork (pgCnt : Nat) (m : Machine) : mallocPage p false cur false pgCnt m =
    (Proc.Fork.mallocPage p pgCnt >>= fun r => pure (r.getD 0)) m := by
  rw [mallocPage, Proc.Fork.mallocPage, assert]
  by_cases hcnt : 0 < pgCnt ∧ pgCnt < 3840
  · have hget := vaddrGet_fork p cur hcnt.1 m
    rw [if_pos (.inr hcnt), if_neg (not_not.mpr hcnt), pure_bind]
    change _ = ((Proc.Fork.vaddrGet p pgCnt >>= _) >>= _) m
    rw [bind_assoc]
    cases hrun : Proc.Fork.vaddrGet p pgCnt m with
    | error e =>
        rw [Code.bind_of_error hrun] at hget
        rw [Code.bind_of_error hrun, Code.bind_of_error hget]
    | ok out =>
        obtain ⟨r, m₁⟩ := out
        rw [Code.bind_of_ok hrun] at hget
        rw [Code.bind_of_ok hrun, Code.bind_of_ok hget]
        cases r with
        | none => rfl
        | some vaddr =>
            obtain ⟨hpos, hfits⟩ := vaddrGet_some p hrun
            rw [Option.getD_some, if_neg hpos.ne', mapPages_fork p hfits]
            simp only [bind_assoc, pure_bind, if_true, Option.getD_some]
  · rw [if_neg (by simpa using hcnt), if_pos hcnt]
    rfl

end Kernel

/-- The context is that of the running thread. -/
structure Describes (p : Pools) (cur : Nat) (c : Mm.Context) (m : Machine) : Prop where
  ndebug : c.ndebug = false
  start : c.vaddrStart = vaddrStart cur m c.user
  startPos : 0 < c.vaddrStart
  len : c.vaddrLen = vaddrLen p cur m c.user
  poolStart : ∀ u, c.poolStart u = p.start u * 4096
  poolLen : c.poolLen = p.len

/-- The heap sees the bitmaps of the machine and, of its page tables, the frames they name. -/
structure Shows (cur : Nat) (c : Mm.Context) (m : Machine) (h : Mm.Heap) : Prop where
  bits : h.vaddrBitmap = vaddrBits cur m c.user
  pool : h.pool = m.pool
  pde : ∀ t < 1023, h.pde t = (tableOf m t).isSome
  pte : ∀ v < 0xffc00, (tableOf m (v / 1024)).isSome = true → entry (h.pte v) = frameOf m v

section Heap

variable {p : Pools} {cur n v frame : Nat} {user : Bool} {c : Mm.Context} {m m' : Machine}
  {h : Mm.Heap}

private theorem Describes.of_task (hc : Describes p cur c m) (htask : m'.task = m.task) :
    Describes p cur c m' := by
  refine ⟨hc.ndebug, ?_, hc.startPos, ?_, hc.poolStart, hc.poolLen⟩
  · rw [hc.start]
    cases c.user with
    | true => rw [vaddrStart, vaddrStart, htask]
    | false => rfl
  · rw [hc.len, vaddrLen_of_task htask]

theorem Shows.setPool {i : Nat} (hs : Shows cur c m h) : Shows cur c (m.setPool user i true)
    { h with pool := Function.update h.pool user (Function.update (h.pool user) i true) } where
  bits := by
    rw [hs.bits]
    cases c.user <;> rfl
  pool := by
    rw [hs.pool]
    rfl
  pde := hs.pde
  pte := hs.pte

private theorem palloc_heap (hc : Describes p cur c m) (hs : Shows cur c m h) {i : Nat}
    (hfirst : firstClear (m.pool user) 0 (p.len user) = some i) :
    Mm.palloc c user h = .ok (some ((p.start user + i) * 4096),
      { h with pool := Function.update h.pool user (Function.update (h.pool user) i true) }) := by
  have haddr : (p.start user + i) * 4096 = i * 4096 + c.poolStart user := by
    rw [hc.poolStart, Nat.add_mul, Nat.add_comm]
  rw [Mm.palloc, Code.get_bind, Mm.Context.bitmapScan, hc.poolLen]
  rw [hs.pool, hfirst, haddr, ← hs.pool]
  rfl

private theorem palloc_first {r : Option Nat} (hrun : palloc p false user m = .ok (r, m')) :
    ∃ i, firstClear (m.pool user) 0 (p.len user) = some i ∧ r = some (p.start user + i) ∧
      m' = m.setPool user i true := by
  rw [palloc_fork] at hrun
  obtain ⟨f, m₁, halloc, hret⟩ := Code.bind_ok.mp hrun
  obtain ⟨rfl, rfl⟩ := Code.pure_ok.mp hret
  have hwp := wp_ok (wp_palloc_first (m := m) (Q := fun f m' => ∃ i,
    firstClear (m.pool user) 0 (p.len user) = some i ∧ f = p.start user + i ∧
      m' = m.setPool user i true) fun i hi => ⟨i, hi, rfl, rfl⟩) halloc
  obtain ⟨i, hfirst, rfl, rfl⟩ := hwp
  exact ⟨i, hfirst, rfl, rfl⟩

private theorem Shows.setEntry (hs : Shows cur c m h) (ht : Tables p m) (hv : v < 0xffc00) {T : Nat}
    (hT : tableOf m (v / 1024) = some T) : Shows cur c
      (m.setWord T (v % 1024) (frame * 4096 + 7)) (h.setPte v (frame * 4096)) where
  bits := by
    rw [Mm.Heap.setPte, hs.bits]
    cases c.user <;> rfl
  pool := hs.pool
  pde t ht' := by
    rw [tableOf_setWord (ht.ne_cr3 (by omega) hT)]
    exact hs.pde t ht'
  pte w hw hsome := by
    rw [tableOf_setWord (ht.ne_cr3 (by omega) hT)] at hsome
    rw [ht.frameOf_setWord hv hT hw]
    change entry (Function.update h.pte v (frame * 4096 + 7) w) = _
    by_cases hwv : w = v
    · rw [if_pos hwv, hwv, Function.update_self]
    · rw [if_neg hwv, Function.update_of_ne hwv]
      exact hs.pte w hw hsome

private theorem Shows.newTable (hs : Shows cur c m h) (ht : Tables p m) (hv : v < 0xffc00) {j : Nat}
    (hj : j < p.len false) (hclear : m.pool false j = false) (hT : tableOf m (v / 1024) = none) :
    Shows cur c (withTable p m v j (frame * 4096 + 7)) (Mm.Heap.setPte { h with
      pool := Function.update h.pool false (Function.update (h.pool false) j true)
      pde := Function.update h.pde (v / 1024) true
      pte := fun page => if page / 1024 = v / 1024 then 0 else h.pte page } v (frame * 4096)) where
  bits := by
    rw [Mm.Heap.setPte, hs.bits]
    cases c.user <;> rfl
  pool := by
    rw [Mm.Heap.setPte, hs.pool]
    rfl
  pde t ht' := by
    rw [ht.tableOf_withTable hj hclear]
    change Function.update h.pde (v / 1024) true t = _
    by_cases htv : t = v / 1024
    · rw [if_pos htv, htv, Function.update_self]
      rfl
    · rw [if_neg htv, Function.update_of_ne htv]
      exact hs.pde t ht'
  pte w hw hsome := by
    rw [ht.frameOf_withTable hv hj hclear hT _ hw]
    rw [ht.tableOf_withTable hj hclear] at hsome
    change entry (Function.update (fun page => if page / 1024 = v / 1024 then 0 else h.pte page) v
      (frame * 4096 + 7) w) = _
    by_cases hwv : w = v
    · rw [if_pos hwv, hwv, Function.update_self]
    · rw [if_neg hwv, Function.update_of_ne hwv]
      by_cases hsame : w / 1024 = v / 1024
      · have hTw : tableOf m (w / 1024) = none := by rw [hsame, hT]
        rw [if_pos hsame, frameOf_of_noTable hTw, entry_zero]
      · rw [if_neg hsame] at hsome ⊢
        exact hs.pte w hw hsome

private theorem pageTableAdd_heap (hc : Describes p cur c m) (hs : Shows cur c m h)
    (ht : Tables p m) (hv : v < 0xffc00) {u : Unit}
    (hrun : pageTableAdd p false (v * 4096) frame m = .ok (u, m')) :
    ∃ h', Mm.pageTableAdd c (v * 4096) (frame * 4096) h = .ok ((), h') ∧ Shows cur c m' h' := by
  have hdir : v * 4096 / 2 ^ 22 = v / 1024 := by omega
  have hpage : v * 4096 / 4096 = v := by omega
  have hadd := pageTableAdd_ok ht hv hrun
  rw [Mm.pageTableAdd, Code.get_bind, hdir, hpage, hs.pde (v / 1024) (by omega)]
  cases hadd with
  | entry hodd hfree =>
      rw [hdir] at hodd hfree
      rw [hpage] at hfree
      have hT : tableOf m (v / 1024) = some (m.ram m.cr3 (v / 1024) / 4096) := by
        rw [tableOf, entry, if_pos hodd]
      have hempty : h.pte v % 2 ≠ 1 := by
        apply entry_none.mp
        rw [hs.pte v hv (by rw [hT]; rfl), frameOf_of_table hT]
        exact entry_none.mpr hfree
      rw [hT, Option.isSome_some, if_pos rfl, if_pos (by omega), hdir, hpage]
      exact ⟨_, rfl, hs.setEntry ht hv hT⟩
  | @table j hodd hj hclear hfirst =>
      rw [hdir] at hodd
      have hT : tableOf m (v / 1024) = none := entry_none.mpr hodd
      rw [hT, if_neg (by simp), Code.bind_of_ok (palloc_heap hc hs hfirst), hdir, hpage]
      exact ⟨_, rfl, hs.newTable ht hv hj hclear hT⟩

private theorem mapPages_heap (n : Nat) {b : Bool} : ∀ {v : Nat} {m : Machine} {h : Mm.Heap},
    Describes p cur c m → Shows cur c m h → Tables p m → v + n ≤ 0xffc00 →
    mapPages p false c.user (v * 4096) n m = .ok (b, m') →
    ∃ h', Mm.mapPages c (v * 4096) n h = .ok (b, h') ∧ Shows cur c m' h' := by
  induction n with
  | zero =>
      intro v m h _ hs _ _ hrun
      obtain ⟨rfl, rfl⟩ := Code.pure_ok.mp hrun
      exact ⟨h, rfl, hs⟩
  | succ n ih =>
      intro v m h hc hs ht hv hrun
      rw [mapPages] at hrun
      obtain ⟨r, m₁, halloc, hrest⟩ := Code.bind_ok.mp hrun
      obtain ⟨i, hfirst, rfl, rfl⟩ := palloc_first halloc
      obtain ⟨u, m₂, hadd, hloop⟩ := Code.bind_ok.mp hrest
      obtain ⟨-, -, ht₂⟩ := mapping_one ht (by omega) halloc rfl hadd
      have hgrows := grows_pageTableAdd _ _ _ _ _ hadd
      obtain ⟨h₂, hadd', hs₂⟩ := pageTableAdd_heap (m := m.setPool c.user i true) (hc.of_task rfl)
        hs.setPool ht.setPool (by omega) hadd
      rw [show (v * 4096 + 4096) % 2 ^ 32 = (v + 1) * 4096 by omega] at hloop
      obtain ⟨h', hloop', hs'⟩ := ih (hc.of_task hgrows.task) hs₂ ht₂ (by omega) hloop
      refine ⟨h', ?_, hs'⟩
      rw [Mm.mapPages, Code.bind_of_ok (palloc_heap hc hs hfirst)]
      dsimp only
      rw [Code.bind_of_ok hadd', show v * 4096 + 4096 = (v + 1) * 4096 by omega]
      exact hloop'

private theorem bitmapScan_heap {bits : Nat → Bool} {len cnt : Nat} {r : Option Nat}
    (hrun : bitmapScan false bits len cnt m = .ok (r, m')) (h : Mm.Heap) :
    c.bitmapScan bits len cnt h = .ok (r, h) := by
  obtain ⟨hr, -⟩ := bitmapScan_ok hrun
  rw [bitmapScan] at hrun
  rw [Mm.Context.bitmapScan, hr, findRun]
  cases hfirst : firstClear bits 0 len with
  | none =>
      rw [hfirst] at hrun
      cases hrun
  | some first => rfl

private theorem setVaddrBits_shows (hs : Shows cur c m h) (bits : Nat → Bool) :
    Shows cur c (setVaddrBits cur m c.user bits) { h with vaddrBitmap := bits } where
  bits := (vaddrBits_setVaddrBits c.user bits).symm
  pool := hs.pool.trans (setVaddrBits_pool bits).symm
  pde t ht := by
    rw [tableOf_setVaddrBits]
    exact hs.pde t ht
  pte v hv hsome := by
    rw [tableOf_setVaddrBits] at hsome
    rw [frameOf_setVaddrBits]
    exact hs.pte v hv hsome

private theorem vaddrGet_heap (hI : Maps p cur m) (hc : Describes p cur c m) (hs : Shows cur c m h)
    {r : Nat} (hn : 0 < n) (hrun : vaddrGet p false cur c.user n m = .ok (r, m')) :
    r = 0 ∧ Mm.vaddrGet c n h = .ok (none, h) ∧ m' = m ∨
    ∃ v h', r = v * 4096 ∧ 0 < v ∧ v + n ≤ 0xffc00 ∧
      Mm.vaddrGet c n h = .ok (some (v * 4096), h') ∧
      Shows cur c m' h' ∧ Tables p m' ∧ m'.task = m.task := by
  rw [vaddrGet, Code.get_bind] at hrun
  obtain ⟨found, m₁, hscan, hrest⟩ := Code.bind_ok.mp hrun
  rw [Mm.vaddrGet, Code.get_bind, hs.bits, hc.len, Code.bind_of_ok (bitmapScan_heap hscan h)]
  obtain ⟨-, rfl⟩ := bitmapScan_ok hscan
  cases found with
  | none =>
      obtain ⟨rfl, rfl⟩ := Code.pure_ok.mp hrest
      exact .inl ⟨rfl, rfl, rfl⟩
  | some i =>
      right
      dsimp only at hrest ⊢
      split at hrest
      · obtain ⟨_, _, hstop, -⟩ := Code.bind_ok.mp hrest
        exact (Code.throw_ok.mp hstop).elim
      · rename_i hin
        have hinside : i + n ≤ vaddrLen p cur m₁ c.user := by omega
        have hend := hI.page_le hinside
        have hpage := page_zero_add cur m₁ c.user i
        rw [page_zero_add] at hend
        rw [Code.modify_bind] at hrest
        obtain ⟨_, m₂, hassert, hret⟩ := Code.bind_ok.mp hrest
        obtain ⟨rfl, rfl⟩ := Code.pure_ok.mp hret
        have hbelow := assert_holds hassert
        obtain rfl := assert_ok hassert
        have haddr : (vaddrStart cur m₁ c.user + i * 4096) % 2 ^ 32 =
            page cur m₁ c.user i * 4096 := by
          rw [hI.start_eq, hpage]
          omega
        have haddr' : c.vaddrStart + i * 4096 = page cur m₁ c.user i * 4096 := by
          rw [hc.start, hI.start_eq, hpage]
          omega
        have hpos : 0 < page cur m₁ c.user i := by
          have hstart := hc.startPos
          rw [hc.start, hI.start_eq] at hstart
          omega
        rw [haddr] at hbelow ⊢
        rw [if_pos hinside, Code.modify_bind, haddr', Mm.Context.assert,
          if_pos (.inr hbelow)]
        exact ⟨page cur m₁ c.user i, _, rfl, hpos, by omega, rfl,
          hs.bits ▸ setVaddrBits_shows hs _, hI.tables.setVaddrBits _, setVaddrBits_task _⟩

/-- The heap and the page allocator agree on the pages that `malloc_page` gives out. -/
theorem mallocPage_heap (hI : Maps p cur m) (hc : Describes p cur c m) (hs : Shows cur c m h)
    {r : Nat} (hrun : mallocPage p false cur c.user n m = .ok (r, m')) :
    ∃ h', Mm.mallocPage c n h = .ok (if r = 0 then none else some r, h') ∧ Shows cur c m' h' := by
  rw [mallocPage] at hrun
  obtain ⟨_, m₁, hassert, hrest⟩ := Code.bind_ok.mp hrun
  have hcnt := assert_holds hassert
  obtain rfl := assert_ok hassert
  obtain ⟨vaddr, m₁, hget, hpages⟩ := Code.bind_ok.mp hrest
  rw [Mm.mallocPage, Mm.Context.assert, if_pos (.inr hcnt), pure_bind, Mm.givePages]
  obtain ⟨rfl, hheap, rfl⟩ | ⟨v, h₁, rfl, hpos, hend, hheap, hs₁, ht₁, htask⟩ :=
    vaddrGet_heap hI hc hs hcnt.1 hget
  · rw [if_pos rfl] at hpages
    obtain ⟨rfl, rfl⟩ := Code.pure_ok.mp hpages
    exact ⟨h, Code.bind_of_ok hheap, hs⟩
  · rw [if_neg (by omega)] at hpages
    obtain ⟨b, m₂, hmap, hret⟩ := Code.bind_ok.mp hpages
    obtain ⟨h', hmap', hs'⟩ := mapPages_heap n (hc.of_task htask) hs₁ ht₁ hend hmap
    rw [Code.bind_of_ok hheap]
    dsimp only
    rw [Code.bind_of_ok hmap']
    cases b with
    | true =>
        rw [if_pos rfl] at hret
        obtain ⟨rfl, rfl⟩ := Code.pure_ok.mp hret
        rw [if_neg (Nat.mul_pos hpos (by norm_num)).ne']
        exact ⟨h', rfl, hs'⟩
    | false =>
        rw [if_neg (by simp)] at hret
        obtain ⟨rfl, rfl⟩ := Code.pure_ok.mp hret
        exact ⟨h', rfl, hs'⟩

end Heap

end Aitos.Paging
