import Aitos.Arch.PageTables
import Aitos.Framework.Word

/-!
# The memory map of the loader

`boot/loader.asm` collects the memory map of the BIOS into `ards_buf`, takes the highest end of a
region for the memory size and hands it to the kernel in `boot_info` at 0x800.  Segment registers
are 0.  The BIOS is a list of entries that it reports one at each call; the enumeration ends by the
carry flag or by EBX = 0 with the last entry.
-/

namespace Aitos.Arch

open Framework

/-! ### Layout -/

def loaderBaseAddr : Nat := 0x900

/-- Four descriptors and the pseudo-descriptor come first. -/
def ardsBuf : Nat := loaderBaseAddr + 4 * 8 + 6

def ardsNr : Nat := ardsBuf + 244

def loaderStart : Nat := ardsNr + 2

def bootInfoAddr : Nat := 0x800

example : loaderStart = loaderBaseAddr + 0x11c := rfl

/-- An entry of the memory map. -/
structure Ards where
  base : UInt64
  length : UInt64
  type : UInt32

namespace Ards

/-- The five words of an entry. -/
def words (e : Ards) (i : Nat) : UInt32 :=
  [e.base.toUInt32, (e.base >>> 32).toUInt32, e.length.toUInt32, (e.length >>> 32).toUInt32,
    e.type].getD i 0

def bytes (e : Ards) : Bytes := Bytes.ofWords e.words

/-- The address behind the region. -/
def last (e : Ards) : Nat := e.base.toNat + e.length.toNat

end Ards

def word16 (m : Bytes) (a : Nat) : UInt16 := UInt16.ofNat ((m a).toNat + 256 * (m (a + 1)).toNat)

def movWord (a : Nat) (v : UInt16) (m : Bytes) : Bytes :=
  m.blit a 2 fun i => UInt8.ofNat (v.toNat / 256 ^ i)

/-! ### The probe -/

/-- Memory with the loader in it: `ards_buf` and `ards_nr` are zero. -/
def image (m : Bytes) : Bytes := m.fill ardsBuf (244 + 2) 0

structure E820 where
  mem : Bytes
  di : UInt16
  /-- where the BIOS has stored an entry, last first -/
  stores : List Nat

/-- How an enumeration ends, and what EBX holds before. -/
structure Bios where
  byCarry : Bool
  next : UInt32
  next_ne_zero : next ≠ 0

/-- The loop from `int 0x15` on, with the entries that the BIOS has left. -/
def e820Loop (c : Bios) : List Ards → E820 → E820
  | [], s => s
  | e :: es, s =>
      let mem := s.mem.blit s.di.toNat 20 e.bytes
      let stores := s.di.toNat :: s.stores
      let ebx := if es = [] ∧ c.byCarry = false then 0 else c.next
      let di := s.di + 20
      let mem := movWord ardsNr (word16 mem ardsNr + 1) mem
      if UInt16.ofNat loaderStart ≤ di then ⟨mem, di, stores⟩
      else if ebx = 0 then ⟨mem, di, stores⟩
      else e820Loop c es ⟨mem, di, stores⟩

def e820 (c : Bios) (es : List Ards) (m : Bytes) : E820 :=
  e820Loop c es ⟨image m, UInt16.ofNat ardsBuf, []⟩

/-! ### The memory size -/

/-- `.find_max` with `cx` entries to go. -/
def findMax (m : Bytes) : Nat → Nat → UInt32 → UInt32
  | 0, _, edx => edx
  | cx + 1, ebx, edx =>
      let eax := m.word ebx + m.word (ebx + 8)
      -- `jge` compares as signed numbers
      let edx := if eax.toInt32 ≤ edx.toInt32 then edx else eax
      findMax m cx (ebx + 20) edx

def memSize (m : Bytes) : UInt32 :=
  let cx := word16 m ardsNr
  if cx = 0 then 32 * 1024 * 1024 else findMax m cx.toNat ardsBuf 0

def memStore (edx : UInt32) (m : Bytes) : Bytes :=
  let m := movDword bootInfoAddr 0x535f494e m
  let m := movDword (bootInfoAddr + 4) 0x4149544f m
  let m := movDword (bootInfoAddr + 8) edx m
  let m := movDword (bootInfoAddr + 12) 0 m
  let m := movDword (bootInfoAddr + 16) (UInt32.ofNat kernelBinBaseAddr) m
  movDword (bootInfoAddr + 24) 0 m

/-- Memory as the kernel finds it. -/
def handedOver (m : Bytes) : Bytes := pageTableSetup (memStore (memSize m) m)

/-! ### The kernel -/

structure BootInfo where
  magic : UInt64
  memBytes : UInt64
  kernelPhys : UInt64
  reserved : UInt64

def bootPhysRead (m : Bytes) (a : Nat) : UInt64 :=
  (m.word a).toUInt64 + (m.word (a + 4)).toUInt64 <<< 32

def bootInfoLoad (m : Bytes) : BootInfo where
  magic := bootPhysRead m bootInfoAddr
  memBytes := bootPhysRead m (bootInfoAddr + 8)
  kernelPhys := bootPhysRead m (bootInfoAddr + 16)
  reserved := bootPhysRead m (bootInfoAddr + 24)

section Words

variable {m : Bytes} {a i : Nat}

private theorem word16_movWord (a : Nat) (v : UInt16) (m : Bytes) :
    word16 (movWord a v m) a = v := by
  have hv := v.toNat_lt
  have h₀ : movWord a v m a = UInt8.ofNat v.toNat := by
    have h := Bytes.blit_add m (fun i => UInt8.ofNat (v.toNat / 256 ^ i)) a 2 (i := 0) (by omega)
    rw [Nat.add_zero, Nat.pow_zero, Nat.div_one] at h
    exact h
  have h₁ : movWord a v m (a + 1) = UInt8.ofNat (v.toNat / 256) := by
    have h := Bytes.blit_add m (fun i => UInt8.ofNat (v.toNat / 256 ^ i)) a 2 (i := 1) (by omega)
    rw [Nat.pow_one] at h
    exact h
  apply UInt16.toNat_inj.mp
  rw [word16, h₀, h₁, UInt16.toNat_ofNat', UInt8.toNat_ofNat', UInt8.toNat_ofNat']
  omega

private theorem movWord_outside {v : UInt16} (hi : i < a ∨ a + 2 ≤ i) : movWord a v m i = m i :=
  Bytes.blit_of_outside _ _ _ _ hi

private theorem word16_congr {m' : Bytes} (h₀ : m a = m' a) (h₁ : m (a + 1) = m' (a + 1)) :
    word16 m a = word16 m' a := by
  rw [word16, word16, h₀, h₁]

end Words

/-- The entries `es` stand in the buffer and `ards_nr` is their number. -/
structure InBuffer (m : Bytes) (es : List Ards) : Prop where
  entries : ∀ i (hi : i < es.length) j, j < 20 → m (ardsBuf + 20 * i + j) = es[i].bytes j
  nr : (word16 m ardsNr).toNat = es.length

/-- The entries `got` are in the buffer and nothing else was stored into. -/
structure Collected (m : Bytes) (got : List Ards) (s : E820) : Prop extends
    InBuffer s.mem got where
  inside : ∀ a ∈ s.stores, ardsBuf ≤ a ∧ a + 20 ≤ ardsNr
  frame : ∀ a, a < ardsBuf ∨ loaderStart ≤ a → s.mem a = image m a

/-- Before the next call of the BIOS. -/
structure Collecting (m : Bytes) (got : List Ards) (s : E820) : Prop extends
    Collected m got s where
  di : s.di.toNat = ardsBuf + 20 * got.length

section Probe

variable {m : Bytes} {got es : List Ards} {s : E820} {c : Bios}

private theorem ardsNr_eq : ardsNr = ardsBuf + 244 := rfl

private theorem loaderStart_eq : loaderStart = ardsBuf + 246 := rfl

private theorem word16_image (m : Bytes) : word16 (image m) ardsNr = 0 := by
  have h₀ : image m ardsNr = 0 :=
    @Bytes.fill_add m ardsBuf (244 + 2) 0 244 (by omega)
  have h₁ : image m (ardsNr + 1) = 0 :=
    @Bytes.fill_add m ardsBuf (244 + 2) 0 245 (by omega)
  rw [word16, h₀, h₁]
  rfl

private theorem collecting_image (m : Bytes) :
    Collecting m [] ⟨image m, UInt16.ofNat ardsBuf, []⟩ := by
  refine ⟨⟨⟨fun i hi => absurd hi (Nat.not_lt_zero i), ?_⟩, by simp, fun a _ => rfl⟩, rfl⟩
  exact congrArg UInt16.toNat (word16_image m)

/-- The state after the BIOS has stored an entry and the loader has counted it. -/
def stored (s : E820) (e : Ards) : E820 :=
  let mem := s.mem.blit s.di.toNat 20 e.bytes
  ⟨movWord ardsNr (word16 mem ardsNr + 1) mem, s.di + 20, s.di.toNat :: s.stores⟩

theorem Collecting.stored (h : Collecting m got s) (hlen : got.length < 12) (e : Ards) :
    Collecting m (got ++ [e]) (stored s e) := by
  have hdi := h.di
  have hnr := ardsNr_eq
  have hstart := loaderStart_eq
  have hlow : ardsBuf = 0x926 := rfl
  -- the entry goes behind the others and leaves the counter alone
  have hcount : word16 (s.mem.blit s.di.toNat 20 e.bytes) ardsNr = word16 s.mem ardsNr := by
    apply word16_congr
    · exact Bytes.blit_of_outside _ _ _ _ (.inr (by omega))
    · exact Bytes.blit_of_outside _ _ _ _ (.inr (by omega))
  have hmem : ∀ a, a < ardsNr ∨ ardsNr + 2 ≤ a →
      (Arch.stored s e).mem a = s.mem.blit s.di.toNat 20 e.bytes a := fun a ha =>
    movWord_outside ha
  have hlength : (got ++ [e]).length = got.length + 1 := by simp
  refine ⟨⟨⟨?_, ?_⟩, ?_, ?_⟩, ?_⟩
  · intro i hi j hj
    rw [hlength] at hi
    rw [hmem _ (.inl (by omega))]
    by_cases hlast : i = got.length
    · subst hlast
      rw [← hdi, Bytes.blit_add _ _ _ _ hj, List.getElem_append_right le_rfl]
      simp
    · have hold : i < got.length := by omega
      rw [Bytes.blit_of_outside _ _ _ _ (.inl (by omega)), h.entries i hold j hj,
        List.getElem_append_left hold]
  · have hword : word16 (Arch.stored s e).mem ardsNr = word16 s.mem ardsNr + 1 := by
      rw [← hcount]
      exact word16_movWord _ _ _
    rw [hword, UInt16.toNat_add, h.nr, hlength]
    exact Nat.mod_eq_of_lt (by change got.length + 1 < 2 ^ 16; omega)
  · intro a ha
    rcases List.mem_cons.mp ha with rfl | ha
    · omega
    · exact h.inside a ha
  · intro a ha
    rw [hmem _ (by omega), Bytes.blit_of_outside _ _ _ _ (by omega)]
    exact h.frame a ha
  · have hdi' : (Arch.stored s e).di = s.di + 20 := rfl
    rw [hdi', UInt16.toNat_add, hdi, hlength]
    change (ardsBuf + 20 * got.length + 20) % 2 ^ 16 = _
    omega

private theorem e820Loop_cons (c : Bios) (e : Ards) (es : List Ards) (s : E820) :
    e820Loop c (e :: es) s =
      if UInt16.ofNat loaderStart ≤ (stored s e).di then stored s e
      else if es = [] ∧ c.byCarry = false then stored s e
      else e820Loop c es (stored s e) := by
  rw [e820Loop]
  by_cases hlast : es = [] ∧ c.byCarry = false
  · simp only [if_pos hlast]
    rfl
  · simp only [if_neg hlast, if_neg c.next_ne_zero]
    rfl

private theorem guard_iff {di : UInt16} : UInt16.ofNat loaderStart ≤ di ↔
    loaderStart ≤ di.toNat := by
  rw [UInt16.le_iff_toNat_le]
  rfl

theorem Collecting.loop (h : Collecting m got s) (hlen : got.length + es.length ≤ 12) :
    Collecting m (got ++ es) (e820Loop c es s) := by
  induction es generalizing got s with
  | nil =>
      rw [List.append_nil]
      exact h
  | cons e es ih =>
      rw [List.length_cons] at hlen
      have hnext := h.stored (by omega) e
      have hdi : ¬ UInt16.ofNat loaderStart ≤ (Arch.stored s e).di := by
        have hstart := loaderStart_eq
        rw [guard_iff, hnext.di, List.length_append, List.length_singleton]
        omega
      rw [e820Loop_cons, if_neg hdi]
      have happ : got ++ e :: es = (got ++ [e]) ++ es := by
        rw [List.append_assoc, List.singleton_append]
      split
      · rename_i hlast
        rw [happ, hlast.1, List.append_nil]
        exact hnext
      · rw [happ]
        refine ih hnext ?_
        rw [List.length_append, List.length_singleton]
        omega

private theorem Collecting.overrun (h : Collecting m got s) (hgot : got.length ≤ 12)
    (hlen : 12 < got.length + es.length) :
    ∃ a ∈ (e820Loop c es s).stores, ¬ a + 20 ≤ ardsNr := by
  have hnr := ardsNr_eq
  have hstart := loaderStart_eq
  induction es generalizing got s with
  | nil =>
      rw [List.length_nil] at hlen
      omega
  | cons e es ih =>
      rw [List.length_cons] at hlen
      have hdi := h.di
      rw [e820Loop_cons]
      by_cases hfull : got.length = 12
      · have hdi' : (Arch.stored s e).di.toNat = s.di.toNat + 20 := by
          have hlow : ardsBuf = 0x926 := rfl
          change (s.di + 20).toNat = _
          rw [UInt16.toNat_add]
          change (s.di.toNat + 20) % 2 ^ 16 = _
          omega
        have hguard : UInt16.ofNat loaderStart ≤ (Arch.stored s e).di := by
          rw [guard_iff]
          omega
        rw [if_pos hguard]
        exact ⟨s.di.toNat, List.mem_cons_self, by omega⟩
      · have hnext := h.stored (by omega) e
        have hguard : ¬ UInt16.ofNat loaderStart ≤ (Arch.stored s e).di := by
          rw [guard_iff, hnext.di, List.length_append, List.length_singleton]
          omega
        have hmore : ¬ (es = [] ∧ c.byCarry = false) := by
          rintro ⟨rfl, -⟩
          rw [List.length_nil] at hlen
          omega
        rw [if_neg hguard, if_neg hmore]
        refine ih hnext ?_ ?_
        · rw [List.length_append, List.length_singleton]
          omega
        · rw [List.length_append, List.length_singleton]
          omega

end Probe

theorem e820_iff (c : Bios) (es : List Ards) (m : Bytes) :
    (∃ got, got <+: es ∧ Collected m got (e820 c es m)) ↔ es.length ≤ 12 := by
  constructor
  · rintro ⟨got, -, h⟩
    by_contra hlen
    have hover : ∃ a ∈ (e820 c es m).stores, ¬ a + 20 ≤ ardsNr :=
      (collecting_image m).overrun (Nat.zero_le 12) (by rw [List.length_nil]; omega)
    obtain ⟨a, ha, hout⟩ := hover
    exact hout (h.inside a ha).2
  · intro hlen
    have h : Collecting m ([] ++ es) (e820 c es m) :=
      (collecting_image m).loop (by rw [List.length_nil]; omega)
    exact ⟨es, List.prefix_refl es, h.toCollected⟩

/-- A BIOS that reports 13 regions. -/
theorem e820_thirteen :
    ¬ ∃ got, got <+: List.replicate 13 ⟨0, 0x1000, 1⟩ ∧
      Collected Bytes.zero got
        (e820 ⟨true, 1, by decide⟩ (List.replicate 13 ⟨0, 0x1000, 1⟩) Bytes.zero) := by
  rintro ⟨got, -, h⟩
  have hover : ∃ a ∈ (e820 ⟨true, 1, by decide⟩ (List.replicate 13 ⟨0, 0x1000, 1⟩)
      Bytes.zero).stores, ¬ a + 20 ≤ ardsNr :=
    (collecting_image Bytes.zero).overrun (by decide) (by decide)
  obtain ⟨a, ha, hout⟩ := hover
  exact hout (h.inside a ha).2

/-! ### The highest end of a region -/

/-- The end of a region as the loader computes it. -/
def Ards.last32 (e : Ards) : UInt32 := e.base.toUInt32 + e.length.toUInt32

/-- The greater of two words as signed numbers. -/
def signedMax (d e : UInt32) : UInt32 := if e.toInt32 ≤ d.toInt32 then d else e

private theorem word_of_bytes {m : Bytes} {e : Ards} {a k : Nat}
    (h : ∀ j, j < 20 → m (a + j) = e.bytes j) (hk : k < 5) : m.word (a + 4 * k) = e.words k := by
  rw [← Bytes.word_ofWords e.words k]
  apply Bytes.word_congr
  intro i hi
  rw [Nat.add_assoc]
  exact h (4 * k + i) (by omega)

private theorem findMax_eq {m : Bytes} {es : List Ards} {a : Nat} {edx : UInt32}
    (h : ∀ i (hi : i < es.length) j, j < 20 → m (a + 20 * i + j) = es[i].bytes j) :
    findMax m es.length a edx = (es.map Ards.last32).foldl signedMax edx := by
  induction es generalizing a edx with
  | nil => rfl
  | cons e es ih =>
      have hfirst : ∀ j, j < 20 → m (a + j) = e.bytes j := h 0 (Nat.zero_lt_succ _)
      have hbase : m.word a = e.base.toUInt32 := word_of_bytes (k := 0) hfirst (by omega)
      have hlength : m.word (a + 8) = e.length.toUInt32 :=
        word_of_bytes (k := 2) hfirst (by omega)
      have hrest : ∀ i (hi : i < es.length) j, j < 20 → m (a + 20 + 20 * i + j) = es[i].bytes j := by
        intro i hi j hj
        have hpos : a + 20 + 20 * i + j = a + 20 * (i + 1) + j := by omega
        rw [hpos]
        exact h (i + 1) (Nat.succ_lt_succ hi) j hj
      rw [List.length_cons, findMax, hbase, hlength, ih hrest]
      rfl

section SignedMax

variable {d e : UInt32} {es : List UInt32}

private theorem signedMax_lt (hd : d.toNat < 2 ^ 31) : (signedMax d e).toNat < 2 ^ 31 := by
  unfold signedMax
  split
  · exact hd
  · rename_i h
    rw [toInt32_le_iff hd] at h
    omega

private theorem signedMax_eq (hd : d.toNat < 2 ^ 31) (he : e.toNat < 2 ^ 31) :
    (signedMax d e).toNat = max d.toNat e.toNat := by
  unfold signedMax
  split
  · rename_i h
    rw [toInt32_le_iff hd] at h
    omega
  · rename_i h
    rw [toInt32_le_iff hd] at h
    omega

private theorem foldl_signedMax_lt (hd : d.toNat < 2 ^ 31) :
    (es.foldl signedMax d).toNat < 2 ^ 31 := by
  induction es generalizing d with
  | nil => exact hd
  | cons e es ih => exact ih (signedMax_lt hd)

private theorem foldl_signedMax (hd : d.toNat < 2 ^ 31) (hes : ∀ e ∈ es, e.toNat < 2 ^ 31) :
    (es.foldl signedMax d).toNat = (es.map UInt32.toNat).foldl max d.toNat := by
  induction es generalizing d with
  | nil => rfl
  | cons e es ih =>
      rw [List.forall_mem_cons] at hes
      rw [List.foldl_cons, ih (signedMax_lt hd) hes.2, signedMax_eq hd hes.1]
      rfl

end SignedMax

private theorem last32_toNat {e : Ards} (he : e.last < 2 ^ 32) : e.last32.toNat = e.last := by
  rw [Ards.last32, UInt32.toNat_add, UInt64.toNat_toUInt32, UInt64.toNat_toUInt32]
  rw [Ards.last] at he ⊢
  omega

/-! ### What the kernel reads -/

private theorem repStosd_outside {n edi i : Nat} {eax : UInt32} {m : Bytes} (hi : i < edi) :
    repStosd n edi eax m i = m i := by
  induction n generalizing edi m with
  | zero => rfl
  | succ n ih =>
      rw [repStosd, ih (by omega)]
      exact Bytes.blit_of_outside _ _ _ _ (.inl hi)

private theorem movDword_outside {a i : Nat} {v : UInt32} {m : Bytes} (hi : i < a ∨ a + 4 ≤ i) :
    movDword a v m i = m i := Bytes.blit_of_outside _ _ _ _ hi

private theorem pageTableSetup_low {i : Nat} {m : Bytes} (hi : i < pageTableBase) :
    pageTableSetup m i = m i := by
  have hmov : ∀ {a v} {m : Bytes}, pageTableBase ≤ a → movDword a v m i = m i := fun ha =>
    movDword_outside (.inl (by omega))
  have hclear : ∀ {a n} {m : Bytes}, pageTableBase ≤ a → repStosd n a 0 m i = m i := fun ha =>
    repStosd_outside (by omega)
  rw [pageTableSetup, hmov (by omega), hmov (by omega), hmov (by omega), hmov (by omega),
    hmov (by omega), hmov le_rfl, hclear (by omega), hclear (by omega), hclear (by omega),
    hclear (by omega), hclear le_rfl]

private theorem word_handedOver {m : Bytes} {a : Nat} (ha : a + 4 ≤ pageTableBase) :
    (handedOver m).word a = (memStore (memSize m) m).word a := by
  apply Bytes.word_congr
  intro i hi
  exact pageTableSetup_low (by omega)

private theorem word_memBytes (edx : UInt32) (m : Bytes) :
    (memStore edx m).word (bootInfoAddr + 8) = edx := by
  change (movDword (4 * 0x206) 0 (movDword (4 * 0x204) _ (movDword (4 * 0x203) 0
    (movDword (4 * 0x202) edx _)))).word (4 * 0x202) = edx
  rw [word_movDword, if_neg (by decide), word_movDword, if_neg (by decide), word_movDword,
    if_neg (by decide), word_movDword, if_pos rfl]

private theorem word_memBytes_high (edx : UInt32) (m : Bytes) :
    (memStore edx m).word (bootInfoAddr + 12) = 0 := by
  change (movDword (4 * 0x206) 0 (movDword (4 * 0x204) _ (movDword (4 * 0x203) 0 _))).word
    (4 * 0x203) = 0
  rw [word_movDword, if_neg (by decide), word_movDword, if_neg (by decide), word_movDword,
    if_pos rfl]

private theorem memBytes_handedOver (m : Bytes) :
    (bootInfoLoad (handedOver m)).memBytes = (memSize m).toUInt64 := by
  have hlow : (handedOver m).word (bootInfoAddr + 8) = memSize m := by
    rw [word_handedOver (by decide), word_memBytes]
  have hhigh : (handedOver m).word (bootInfoAddr + 12) = 0 := by
    rw [word_handedOver (by decide), word_memBytes_high]
  change ((handedOver m).word (bootInfoAddr + 8)).toUInt64 +
    ((handedOver m).word (bootInfoAddr + 12)).toUInt64 <<< 32 = _
  rw [hlow, hhigh]
  exact UInt64.add_zero _

/-- What is asked of the loader for the map `es`: `mem_bytes` is the highest end, for the loader
and for the kernel. -/
structure MemBytesRight (m : Bytes) (es : List Ards) : Prop where
  stored : (es.map Ards.last).max? = some ((handedOver m).word (bootInfoAddr + 8)).toNat
  loaded : (es.map Ards.last).max? = some (bootInfoLoad (handedOver m)).memBytes.toNat

private theorem memSize_eq {m : Bytes} {es : List Ards} (h : InBuffer m es) (hne : es ≠ []) :
    memSize m = (es.map Ards.last32).foldl signedMax 0 := by
  have hcx : word16 m ardsNr ≠ 0 := by
    intro hzero
    have hnr := h.nr
    rw [hzero] at hnr
    exact hne (List.length_eq_zero_iff.mp hnr.symm)
  rw [memSize, if_neg hcx, h.nr]
  exact findMax_eq h.entries

private theorem word_stored (m : Bytes) : (handedOver m).word (bootInfoAddr + 8) = memSize m := by
  rw [word_handedOver (by decide), word_memBytes]

/-- The signed comparison never finds an end in the upper half of the address range. -/
private theorem MemBytesRight.last_lt {m : Bytes} {es : List Ards} (hright : MemBytesRight m es)
    (h : InBuffer m es) (hne : es ≠ []) : ∀ e ∈ es, e.last < 2 ^ 31 := by
  intro e he
  have hmax := hright.stored
  rw [word_stored, memSize_eq h hne, List.max?_eq_some_iff] at hmax
  have hle := hmax.2 e.last (List.mem_map_of_mem he)
  exact lt_of_le_of_lt hle (foldl_signedMax_lt (by decide))

theorem memBytes_iff {m : Bytes} {es : List Ards} (h : InBuffer m es) (hne : es ≠ [])
    (hes : ∀ e ∈ es, e.last < 2 ^ 32) : MemBytesRight m es ↔ ∀ e ∈ es, e.last < 2 ^ 31 := by
  refine ⟨fun hright => hright.last_lt h hne, fun hlow => ?_⟩
  have hzero : (0 : UInt32).toNat < 2 ^ 31 := by decide
  have hlast : ∀ e ∈ es, e.last32.toNat = e.last := fun e he => last32_toNat (hes e he)
  have hmap : (es.map Ards.last32).map UInt32.toNat = es.map Ards.last := by
    rw [List.map_map]
    exact List.map_congr_left hlast
  have hends : ∀ v ∈ es.map Ards.last32, v.toNat < 2 ^ 31 := by
    intro v hv
    obtain ⟨e, he, rfl⟩ := List.mem_map.mp hv
    rw [hlast e he]
    exact hlow e he
  have hmax : (es.map Ards.last).max? = some (memSize m).toNat := by
    rw [memSize_eq h hne, foldl_signedMax hzero hends, hmap]
    cases es with
    | nil => exact absurd rfl hne
    | cons e es =>
        rw [List.map_cons, List.max?_cons', List.foldl_cons]
        exact congrArg (fun n => some (List.foldl max n _)) (Nat.zero_max e.last).symm
  refine ⟨?_, ?_⟩
  · rw [word_stored]
    exact hmax
  · rw [memBytes_handedOver, UInt32.toNat_toUInt64]
    exact hmax

/-- Memory after the probe of a map. -/
def probed (es : List Ards) : Bytes := (e820 ⟨true, 1, by decide⟩ es Bytes.zero).mem

private theorem inBuffer_probed {es : List Ards} (hlen : es.length ≤ 12) :
    InBuffer (probed es) es :=
  ((collecting_image Bytes.zero).loop (by simpa using hlen)).toInBuffer

/-- A machine with 32 MiB. -/
theorem memBytes_small :
    MemBytesRight (probed [⟨0, 0x9fc00, 1⟩, ⟨0x100000, 0x1f00000, 1⟩])
      [⟨0, 0x9fc00, 1⟩, ⟨0x100000, 0x1f00000, 1⟩] :=
  (memBytes_iff (inBuffer_probed (by decide)) (by decide) (by decide)).mpr (by decide)

/-- A machine with 3 GiB. -/
theorem memBytes_large :
    InBuffer (probed [⟨0, 0x9fc00, 1⟩, ⟨0x100000, 0xbff00000, 1⟩])
        [⟨0, 0x9fc00, 1⟩, ⟨0x100000, 0xbff00000, 1⟩] ∧
      ¬ MemBytesRight (probed [⟨0, 0x9fc00, 1⟩, ⟨0x100000, 0xbff00000, 1⟩])
        [⟨0, 0x9fc00, 1⟩, ⟨0x100000, 0xbff00000, 1⟩] := by
  have hbuf : InBuffer (probed [⟨0, 0x9fc00, 1⟩, ⟨0x100000, 0xbff00000, 1⟩])
      [⟨0, 0x9fc00, 1⟩, ⟨0x100000, 0xbff00000, 1⟩] := inBuffer_probed (by decide)
  refine ⟨hbuf, fun hright => ?_⟩
  exact absurd (hright.last_lt hbuf (by decide)) (by decide)

end Aitos.Arch
