import Mathlib

/-!
# Descriptors and the task state segment

The records that `kernel/interrupt.c` and `proc/tss.c` pack for the processor, and the way the
processor takes them apart again: segment descriptors, interrupt gates, and the task state segment
with the permission it gives to a user process for the ports.
-/

namespace Aitos.Arch

abbrev Byte := BitVec 8
abbrev Half := BitVec 16
abbrev Dword := BitVec 32

section Fields

variable {w : Nat} (x m : Dword)

private theorem masked (n : Nat) (hm : ∀ i < w, m.getLsbD (n + i) = true) :
    ((x &&& m) >>> n).setWidth w = x.extractLsb' n w := by
  ext i hi
  simp [hm i hi]

private theorem masked_low (hm : ∀ i < w, m.getLsbD i = true) :
    (x &&& m).setWidth w = x.extractLsb' 0 w := by
  have hzero := masked x m 0 (w := w) (by simpa using hm)
  rwa [BitVec.ushiftRight_zero] at hzero

end Fields

section Gates

/-- `struct gate_desc` -/
structure GateDesc where
  funcOffsetLowWord : Half
  selector : Half
  dcount : Byte
  attr : Byte
  funcOffsetHighWord : Half
  deriving DecidableEq

def selectorKCode : Half := (1 <<< 3) + (0 <<< 2) + 0
def selectorKStack : Half := (2 <<< 3) + (0 <<< 2) + 0

/-- `IDT_DESC_ATTR_DPL0` and `IDT_DESC_ATTR_DPL3` -/
def idtDescAttr (dpl : Byte) : Byte := (1 <<< 7) + (dpl <<< 5) + 0xe

def makeIdtDesc (attr : Byte) (function : Dword) : GateDesc where
  funcOffsetLowWord := (function &&& 0x0000ffff).setWidth 16
  selector := selectorKCode
  dcount := 0
  attr := attr
  funcOffsetHighWord := ((function &&& 0xffff0000) >>> 16).setWidth 16

namespace GateDesc

/-- What the processor reads in a gate. -/
def offset (g : GateDesc) : Dword := g.funcOffsetHighWord ++ g.funcOffsetLowWord

def dpl (g : GateDesc) : Byte := (g.attr >>> 5) &&& 3

end GateDesc

theorem makeIdtDesc_offset (attr : Byte) (function : Dword) :
    (makeIdtDesc attr function).offset = function := by
  have hlow : (function &&& 0x0000ffff).setWidth 16 = function.extractLsb' 0 16 :=
    masked_low _ _ (by decide)
  have hhigh : ((function &&& 0xffff0000) >>> 16).setWidth 16 = function.extractLsb' 16 16 :=
    masked _ _ _ (by decide)
  have hjoin : function.extractLsb' 16 16 ++ function.extractLsb' 0 16 = function.extractLsb' 0 32 :=
    BitVec.extractLsb'_append_extractLsb'_eq_extractLsb' rfl
  rw [GateDesc.offset, makeIdtDesc, hlow, hhigh]
  exact hjoin.trans BitVec.extractLsb'_eq_self

end Gates

section Segments

/-- `struct gdt_desc` -/
structure GdtDesc where
  limitLowWord : Half
  baseLowWord : Half
  baseMidByte : Byte
  attrLowByte : Byte
  limitHighAttrHigh : Byte
  baseHighByte : Byte
  deriving DecidableEq

def makeGdtDesc (descAddr limit : Dword) (attrLow attrHigh : Byte) : GdtDesc where
  limitLowWord := (limit &&& 0x0000ffff).setWidth 16
  baseLowWord := (descAddr &&& 0x0000ffff).setWidth 16
  baseMidByte := ((descAddr &&& 0x00ff0000) >>> 16).setWidth 8
  attrLowByte := attrLow
  limitHighAttrHigh := (((limit &&& 0x000f0000) >>> 16) + attrHigh.setWidth 32).setWidth 8
  baseHighByte := (descAddr >>> 24).setWidth 8

namespace GdtDesc

def limitField (d : GdtDesc) : BitVec 20 := d.limitHighAttrHigh.extractLsb' 0 4 ++ d.limitLowWord

def flags (d : GdtDesc) : BitVec 4 := d.limitHighAttrHigh.extractLsb' 4 4

/-- The last offset in the segment; with the granularity bit the limit counts in pages. -/
def limit (d : GdtDesc) : Nat :=
  if d.flags.getLsbD 3 then d.limitField.toNat * 4096 + 4095 else d.limitField.toNat

end GdtDesc

/-- The limit and the attributes share a byte; the attributes come in its upper half. -/
private theorem makeGdtDesc_fields (descAddr limit : Dword) (attrLow attrHigh : Byte)
    (hlow : ∀ i < 4, attrHigh.getLsbD i = false) :
    (makeGdtDesc descAddr limit attrLow attrHigh).flags = attrHigh.extractLsb' 4 4 ∧
    (makeGdtDesc descAddr limit attrLow attrHigh).limitField = limit.extractLsb' 0 20 := by
  have hword : (limit &&& 0x0000ffff).setWidth 16 = limit.extractLsb' 0 16 :=
    masked_low _ _ (by decide)
  have hmask : ∀ i < 32, (0x000f0000#32).getLsbD (16 + i) = decide (i < 4) := by decide
  have hapart : ((limit &&& 0x000f0000) >>> 16) &&& attrHigh.setWidth 32 = 0#32 := by
    ext i hi
    by_cases h : i < 4
    · simp [hlow i h]
    · simp [hmask i hi, h]
  have hbyte : ∀ i < 8, (makeGdtDesc descAddr limit attrLow attrHigh).limitHighAttrHigh.getLsbD i =
      if i < 4 then limit.getLsbD (16 + i) else attrHigh.getLsbD i := by
    intro i hi
    rw [makeGdtDesc, BitVec.add_eq_or_of_and_eq_zero _ _ hapart]
    by_cases h : i < 4
    · have hclear := hlow i h
      rw [BitVec.getLsbD_eq_getElem hi] at hclear
      simp [h, hi, hmask i (by omega), hclear]
    · simp [h, hi, hmask i (by omega)]
  have hjoin : limit.extractLsb' 16 4 ++ limit.extractLsb' 0 16 = limit.extractLsb' 0 20 :=
    BitVec.extractLsb'_append_extractLsb'_eq_extractLsb' rfl
  constructor
  · rw [GdtDesc.flags]
    ext i hi
    simp [hbyte (4 + i) (by omega)]
  · have hnibble : (makeGdtDesc descAddr limit attrLow attrHigh).limitHighAttrHigh.extractLsb' 0 4 =
        limit.extractLsb' 16 4 := by
      ext i hi
      simp [hbyte i (by omega), hi]
    rw [GdtDesc.limitField, hnibble, makeGdtDesc, hword]
    exact hjoin

end Segments

section Tss

/-- `struct tss` -/
structure Tss where
  (backlink esp0 ss0 esp1 ss1 esp2 ss2 esp3 ss3 cr3 eip eflags eax ecx edx ebx esp ebp esi edi es cs
    ss ds fs gs ldt trace ioBase : Dword)

namespace Tss

/-- The members in the order in which they lie in memory -/
def words (t : Tss) : List Dword :=
  [t.backlink, t.esp0, t.ss0, t.esp1, t.ss1, t.esp2, t.ss2, t.esp3, t.ss3, t.cr3, t.eip, t.eflags,
    t.eax, t.ecx, t.edx, t.ebx, t.esp, t.ebp, t.esi, t.edi, t.es, t.cs, t.ss, t.ds, t.fs, t.gs, t.ldt,
    t.trace, t.ioBase]

end Tss

/-- `sizeof(struct tss)` -/
def tssSize : Nat := 4 * 29

/-- What `tss_init` leaves in `tss`. -/
def tssInit : Tss where
  backlink := 0
  esp0 := 0
  ss0 := selectorKStack.setWidth 32
  esp1 := 0
  ss1 := 0
  esp2 := 0
  ss2 := 0
  esp3 := 0
  ss3 := 0
  cr3 := 0
  eip := 0
  eflags := 0
  eax := 0
  ecx := 0
  edx := 0
  ebx := 0
  esp := 0
  ebp := 0
  esi := 0
  edi := 0
  es := 0
  cs := 0
  ss := 0
  ds := 0
  fs := 0
  gs := 0
  ldt := 0
  trace := 0
  ioBase := BitVec.ofNat 32 tssSize

def updateTssEsp (t : Tss) (pthread : Dword) : Tss := { t with esp0 := pthread + 4096 }

/-- The descriptor of `tss` in the GDT: `TSS_ATTR_LOW` and `TSS_ATTR_HIGH` -/
def tssDesc (tss : Dword) : GdtDesc :=
  makeGdtDesc tss (BitVec.ofNat 32 (tssSize - 1)) ((1 <<< 7) + (0 <<< 5) + (0 <<< 4) + 9)
    ((1 <<< 7) + (0 <<< 6) + (0 <<< 5) + (0 <<< 4) + 0)

section Ports

-- `behind` holds the bytes that lie behind `tss` in memory
variable (t : Tss) (behind : Nat → Byte)

/-- Byte `i` from the start of `tss` -/
def tssByte (i : Nat) : Byte :=
  match t.words[i / 4]? with
  | some word => (word >>> (8 * (i % 4))).setWidth 8
  | none => behind i

/-- Where the processor looks for the offset of the port bitmap in the segment. -/
def portMapBase : Nat := (tssByte t behind 103 ++ tssByte t behind 102).toNat

/-- A process with less privilege than `IOPL` may use the ports whose bit is clear and lies, with
the next byte, inside the segment. -/
def PortAllowed (limit port : Nat) : Prop :=
  portMapBase t behind + port / 8 + 1 ≤ limit ∧
    (tssByte t behind (portMapBase t behind + port / 8)).getLsbD (port % 8) = false

end Ports

section User

variable (pthread tss : Dword) (behind : Nat → Byte)

private theorem tssDesc_limit : (tssDesc tss).limit = (tssSize - 1) * 4096 + 4095 := by
  obtain ⟨hflags, hlimit⟩ := makeGdtDesc_fields tss (BitVec.ofNat 32 (tssSize - 1))
    ((1 <<< 7) + (0 <<< 5) + (0 <<< 4) + 9) ((1 <<< 7) + (0 <<< 6) + (0 <<< 5) + (0 <<< 4) + 0)
    (by decide)
  rw [GdtDesc.limit, tssDesc, hflags, hlimit]
  rfl

/-- The processor takes the offset from the member `gs`: with `esp3` and `ss3`, which it does not
know of, `io_base` lies too far behind. -/
private theorem portMapBase_zero : portMapBase (updateTssEsp tssInit pthread) behind = 0 := by
  simp [portMapBase, tssByte, Tss.words, updateTssEsp, tssInit]

private theorem tssByte_bit (t : Tss) {port : Nat} {word : Dword}
    (hw : t.words[port / 32]? = some word) :
    (tssByte t behind (port / 8)).getLsbD (port % 8) = word.getLsbD (port % 32) := by
  have hword : port / 8 / 4 = port / 32 := by omega
  have hbit : 8 * (port / 8 % 4) + port % 8 = port % 32 := by omega
  rw [tssByte, hword, hw]
  simp [hbit, Nat.mod_lt port (show 0 < 8 by omega)]

/-- The ports whose bits are set by what `tss_init` and `update_tss_esp` store -/
def DeniedPort (pthread : Dword) (port : Nat) : Prop :=
  32 ≤ port ∧ port < 64 ∧ (pthread + 4096).getLsbD (port - 32) ∨ port = 68 ∨
    port ∈ [898, 900, 901, 902]

private theorem words_bit {q r : Nat} (hq : q < 29) (hr : r < 32) :
    ∃ word, (updateTssEsp tssInit pthread).words[q]? = some word ∧
      (word.getLsbD r = true ↔ DeniedPort pthread (32 * q + r)) := by
  have hss : ∀ r < 32, (0x10#32).getLsbD r = true ↔ 32 * 2 + r = 68 := by decide
  have hmap : ∀ r < 32, (116#32).getLsbD r = true ↔ 32 * 28 + r ∈ [898, 900, 901, 902] := by decide
  have hother : ∀ q < 29, q ≠ 1 → q ≠ 2 → q ≠ 28 → ∀ r < 32, ¬ DeniedPort pthread (32 * q + r) := by
    intro q hq h₁ h₂ h₂₈ r hr
    simp only [DeniedPort, List.mem_cons, List.not_mem_nil, or_false]
    omega
  by_cases h₁ : q = 1
  · subst q
    refine ⟨pthread + 4096, rfl, ?_⟩
    have hport : 32 * 1 + r - 32 = r := by omega
    rw [DeniedPort, hport]
    constructor
    · exact fun hset => .inl ⟨by omega, by omega, hset⟩
    · rintro (⟨-, -, hset⟩ | h | h)
      · exact hset
      · omega
      · simp only [List.mem_cons, List.not_mem_nil, or_false] at h
        omega
  by_cases h₂ : q = 2
  · subst q
    refine ⟨0x10#32, rfl, ?_⟩
    rw [hss r hr, DeniedPort]
    simp only [List.mem_cons, List.not_mem_nil, or_false]
    omega
  by_cases h₂₈ : q = 28
  · subst q
    refine ⟨116#32, rfl, ?_⟩
    rw [hmap r hr, DeniedPort]
    simp only [List.mem_cons, List.not_mem_nil, or_false]
    omega
  · refine ⟨0#32, ?_, by simp [hother q hq h₁ h₂ h₂₈ r hr]⟩
    interval_cases q <;> first | contradiction | rfl

/-- The ports of the interrupt controllers, of the timer and of the keyboard, and the command blocks
of the two disk channels -/
def controllerPorts : List Nat :=
  [0x20, 0x21, 0xa0, 0xa1, 0x40, 0x43, 0x60] ++ List.range' 0x1f0 8 ++ List.range' 0x170 8

/-- Whatever the task, a user process may use any of the first 928 ports but for the bits of its
`esp0`, of `ss0` and of `io_base`; so it has interrupt controllers, timer, keyboard and disks to
itself. -/
theorem user_ports (hpage : pthread.toNat % 4096 = 0) :
    (∀ port < 928, PortAllowed (updateTssEsp tssInit pthread) behind (tssDesc tss).limit port ↔
      ¬ DeniedPort pthread port) ∧
    ∀ port ∈ controllerPorts,
      PortAllowed (updateTssEsp tssInit pthread) behind (tssDesc tss).limit port := by
  have hall : ∀ port < 928, PortAllowed (updateTssEsp tssInit pthread) behind (tssDesc tss).limit port ↔
      ¬ DeniedPort pthread port := by
    intro port hport
    obtain ⟨word, hword, hbit⟩ := words_bit pthread (q := port / 32) (r := port % 32) (by omega)
      (by omega)
    rw [Nat.div_add_mod] at hbit
    have hroom : 0 + port / 8 + 1 ≤ (tssDesc tss).limit := by
      rw [tssDesc_limit, tssSize]
      omega
    rw [PortAllowed, portMapBase_zero, Nat.zero_add, tssByte_bit behind _ hword, ← hbit,
      Bool.not_eq_true, and_iff_right]
    rwa [Nat.zero_add] at hroom
  refine ⟨hall, ?_⟩
  intro port hport
  have hlow : ∀ i < 2, (pthread + 4096).getLsbD i = false := by
    intro i hi
    have hbits : (pthread + 4096).toNat % 4 = 0 := by
      rw [BitVec.toNat_add]
      change (pthread.toNat + 4096) % 2 ^ 32 % 4 = 0
      omega
    rw [BitVec.getLsbD, Nat.testBit, Nat.shiftRight_eq_div_pow, Nat.one_and_eq_mod_two]
    have hclear : (pthread + 4096).toNat / 2 ^ i % 2 = 0 := by
      interval_cases i <;> omega
    rw [hclear]
    rfl
  have hsmall : port < 928 ∧ port ≠ 68 ∧ port ∉ [898, 900, 901, 902] ∧
      (32 ≤ port ∧ port < 64 → port - 32 < 2) := by
    revert port
    decide
  refine (hall port hsmall.1).mpr ?_
  rintro (⟨h₁, h₂, hset⟩ | h | h)
  · rw [hlow _ (hsmall.2.2.2 ⟨h₁, h₂⟩)] at hset
    cases hset
  · exact hsmall.2.1 h
  · exact hsmall.2.2.1 h

/-- The command port of the first disk -/
theorem user_ports_disk : PortAllowed (updateTssEsp tssInit 0xc009e000) (fun _ => 0xff)
    (tssDesc 0xc0010000).limit 0x1f7 :=
  (user_ports 0xc009e000 0xc0010000 (fun _ => 0xff) (by decide)).2 0x1f7 (by decide)

end User

end Tss

end Aitos.Arch
