import Aitos.Drivers.IdeChannel
import Aitos.Framework.Bytes
import Aitos.Framework.Hoare

/-!
# Transferring sectors

`ide_read` and `ide_write` of `drivers/ide.c` with the registers they write and the words that go
through the data port.  The device is taken as the driver relies on it: a sector count of 0 stands
for 256, a command transfers the sectors that the 28-bit address names one after the other, and it
interrupts once.  How long it stays busy is left open.  A call has the channel to itself, so its lock
is left out.
-/

namespace Aitos.Drivers.Ide

open Framework

/-- How a call can stop instead of returning: an `ASSERT`, the `PANIC` after `busy_wait`, a
semaphore that nobody raises, an access to the device that it does not expect. -/
inductive Halt where
  | assertion | panic | blocked | badAccess | diverge
  deriving DecidableEq, Repr

/-- What is left of a command: its direction and drive, the next byte on the disk and how many
there are. -/
structure Command where
  write : Bool
  drive : Bool
  pos : Nat
  left : Nat
  deriving DecidableEq, Repr

def running (write drive : Bool) (pos left : Nat) : Option Command :=
  if left = 0 then none else some ⟨write, drive, pos, left⟩

/-- The registers of a channel, its two disks, the command in progress, how many were issued and how
often the status was read since; `channel->expecting_intr` and the value of `disk_done`; memory; and
every word that was moved, with its places on the disk and in memory. -/
structure Controller where
  sectCnt : UInt8
  lbaL : UInt8
  lbaM : UInt8
  lbaH : UInt8
  dev : UInt8
  disk : Bool → Bytes
  command : Option Command
  issued : Nat
  polls : Nat
  expectingIntr : Bool
  diskDone : Nat
  mem : UInt32 → UInt8
  moved : List (Nat × UInt32)

abbrev IdeM := Code Controller Halt

namespace Controller

/-- `intr_hd_handler` -/
def interrupt (m : Controller) : Controller :=
  if m.expectingIntr then { m with expectingIntr := false, diskDone := m.diskDone + 1 } else m

/-- The sectors that the registers ask for. -/
def sectors (m : Controller) : Nat := if m.sectCnt = 0 then 256 else m.sectCnt.toNat

/-- The address in the LBA registers and the low half of the device register. -/
def address (m : Controller) : Nat :=
  m.lbaL.toNat + 256 * m.lbaM.toNat + 65536 * m.lbaH.toNat + 16777216 * (m.dev &&& 0xf).toNat

/-- Bit 4 of the device register -/
def drive (m : Controller) : Bool := m.dev &&& 0x10 ≠ 0

/-- The device starts a command; what it has read it announces at once. -/
def start (m : Controller) (write : Bool) : Controller :=
  let m := { m with
    command := running write m.drive (512 * m.address) (512 * m.sectors)
    issued := m.issued + 1
    polls := 0 }
  if write then m else m.interrupt

/-- Two bytes go from the disk to memory or back; the last ones of a write are announced. -/
def word (m : Controller) (c : Command) (a : UInt32) : Controller :=
  let disk := m.disk c.drive
  let m := { m with
    mem := if c.write then m.mem else
      Function.update (Function.update m.mem a (disk c.pos)) (a + 1) (disk (c.pos + 1))
    disk := if c.write then Function.update m.disk c.drive (Function.update
      (Function.update disk c.pos (m.mem a)) (c.pos + 1) (m.mem (a + 1))) else m.disk
    moved := m.moved ++ [(c.pos, a)]
    command := running c.write c.drive (c.pos + 2) (c.left - 2) }
  if c.write = true ∧ c.left = 2 then m.interrupt else m

end Controller

/-- The registers that are written to. -/
inductive Reg where
  | sectCnt | lbaL | lbaM | lbaH | dev
  deriving DecidableEq, Repr

def outb (r : Reg) (v : UInt8) : IdeM Unit :=
  modify fun m => match r with
    | .sectCnt => { m with sectCnt := v }
    | .lbaL => { m with lbaL := v }
    | .lbaM => { m with lbaM := v }
    | .lbaH => { m with lbaH := v }
    | .dev => { m with dev := v }

/-- `outb(reg_cmd(channel), …)`: the device takes a command when it has none. -/
def outCmd (write : Bool) : IdeM Unit := do
  if (← get).command = none then modify fun m => m.start write else throw .badAccess

/-- One access to the data port, at address `a` of memory. -/
def dataPort (write : Bool) (a : UInt32) : IdeM Unit := do
  match (← get).command with
  | none => throw .badAccess
  | some c => if c.write = write then modify fun m => m.word c a else throw .badAccess

/-- `insw` and `outsw` -/
def dataWords (write : Bool) (a : UInt32) : Nat → IdeM Unit
  | 0 => return
  | n + 1 => do
      dataPort write a
      dataWords write (a + 2) n

def insw (a : UInt32) (wordCnt : UInt32) : IdeM Unit := dataWords false a wordCnt.toNat

def outsw (a : UInt32) (wordCnt : UInt32) : IdeM Unit := dataWords true a wordCnt.toNat

def assert (c : Prop) [Decidable c] : IdeM Unit := if c then return else throw .assertion

def selectDisk (devNo : Bool) : IdeM Unit :=
  outb .dev (if devNo then 0xa0 ||| 0x40 ||| 0x10 else 0xa0 ||| 0x40)

def selectSector (devNo : Bool) (lba : UInt32) (secCnt : UInt8) : IdeM Unit := do
  assert (lba ≤ maxLba)
  outb .sectCnt secCnt
  outb .lbaL lba.toUInt8
  outb .lbaM (lba >>> 8).toUInt8
  outb .lbaH (lba >>> 16).toUInt8
  let slave : UInt32 := if devNo then 0x10 else 0
  outb .dev ((0xa0 ||| 0x40 : UInt32) ||| slave ||| (lba >>> (24 : UInt32))).toUInt8

def cmdOut (write : Bool) : IdeM Unit := do
  modify fun m => { m with expectingIntr := true }
  outCmd write

/-- `sec_cnt == 0 ? 256 * 512 : sec_cnt * 512` -/
def sizeInByte (secCnt : UInt8) : UInt32 := if secCnt = 0 then 256 * 512 else secCnt.toUInt32 * 512

def readFromSector (buf : UInt32) (secCnt : UInt8) : IdeM Unit := insw buf (sizeInByte secCnt / 2)

def writeToSector (buf : UInt32) (secCnt : UInt8) : IdeM Unit := outsw buf (sizeInByte secCnt / 2)

/-- `sema_down(&hd->my_channel->disk_done)` -/
def semaDown : IdeM Unit := do
  if (← get).diskDone = 0 then throw .blocked
  else modify fun m => { m with diskDone := m.diskDone - 1 }

section Device

-- for how many reads of the status a command keeps the device busy
variable (busy : Nat → Nat)

/-- `inb(reg_status(channel))`: `BIT_STAT_BSY`, or `BIT_STAT_DRDY` with `BIT_STAT_DRQ` while there
is something to transfer. -/
def inStatus : IdeM UInt8 := do
  let m ← get
  modify fun m => { m with polls := m.polls + 1 }
  if m.polls < busy m.issued then return 0x80
  else if m.command = none then return 0x40
  else return 0x48

/-- The loop of `busy_wait`: `time_limit -= 10 >= 0` subtracts 1. -/
def busyWaitLoop : Nat → IdeM Bool
  | 0 => return false
  | timeLimit + 1 => do
      if timeLimit = 0 then return false
      else if (← inStatus busy) &&& 0x80 = 0 then return (← inStatus busy) &&& 0x8 ≠ 0
      else busyWaitLoop timeLimit

def busyWait : IdeM Bool := busyWaitLoop busy (30 * 1000)

/-- `if (!busy_wait(hd)) PANIC(error)` -/
def waitReady : IdeM Unit := do
  if ← busyWait busy then return else throw .panic

/-- The sectors of the next command. -/
def secsOp (secCnt secsDone : UInt32) : UInt32 :=
  if secsDone + 256 ≤ secCnt then 256 else secCnt - secsDone

/-- The loop of `ide_read` -/
def readLoop (devNo : Bool) (lba buf secCnt : UInt32) : Nat → UInt32 → IdeM Unit
  | 0, secsDone => if secsDone < secCnt then throw .diverge else return
  | n + 1, secsDone => do
      if secsDone < secCnt then do
        let op := secsOp secCnt secsDone
        selectSector devNo (lba + secsDone) op.toUInt8
        cmdOut false
        semaDown
        waitReady busy
        readFromSector (buf + secsDone * 512) op.toUInt8
        readLoop devNo lba buf secCnt n (secsDone + op)
      else return

def ideRead (devNo : Bool) (lba buf secCnt : UInt32) : IdeM Unit := do
  assert (lba ≤ maxLba)
  assert (0 < secCnt)
  selectDisk devNo
  readLoop busy devNo lba buf secCnt secCnt.toNat 0

/-- The loop of `ide_write` -/
def writeLoop (devNo : Bool) (lba buf secCnt : UInt32) : Nat → UInt32 → IdeM Unit
  | 0, secsDone => if secsDone < secCnt then throw .diverge else return
  | n + 1, secsDone => do
      if secsDone < secCnt then do
        let op := secsOp secCnt secsDone
        selectSector devNo (lba + secsDone) op.toUInt8
        cmdOut true
        waitReady busy
        writeToSector (buf + secsDone * 512) op.toUInt8
        semaDown
        writeLoop devNo lba buf secCnt n (secsDone + op)
      else return

def ideWrite (devNo : Bool) (lba buf secCnt : UInt32) : IdeM Unit := do
  assert (lba ≤ maxLba)
  assert (0 < secCnt)
  selectDisk devNo
  writeLoop busy devNo lba buf secCnt secCnt.toNat 0

end Device

/-! ### One command -/

/-- `len` bytes of `src` in memory from `a` on. -/
def fillMem (mem : UInt32 → UInt8) (a : UInt32) (len : Nat) (src : Bytes) : UInt32 → UInt8 :=
  fun x => if (x - a).toNat < len then src (x - a).toNat else mem x

/-- Memory from `a` on. -/
def bytesAt (mem : UInt32 → UInt8) (a : UInt32) : Bytes := fun i => mem (a + UInt32.ofNat i)

/-- The places of `n` words. -/
def pieces (pos : Nat) (a : UInt32) (n : Nat) : List (Nat × UInt32) :=
  (List.range n).map fun k => (pos + 2 * k, a + UInt32.ofNat (2 * k))

/-- `len` bytes have gone from the disk to memory, or back. -/
def Controller.transferred (m : Controller) (write drive : Bool) (pos : Nat) (a : UInt32)
    (n : Nat) : Controller :=
  { m with
    mem := if write then m.mem else fillMem m.mem a (2 * n) ((m.disk drive).drop pos)
    disk := if write then Function.update m.disk drive
      ((m.disk drive).blit pos (2 * n) (bytesAt m.mem a)) else m.disk
    moved := m.moved ++ pieces pos a n }

section Memory

variable {mem : UInt32 → UInt8} {a x : UInt32} {src : Bytes} {pos n : Nat}

theorem toNat_add_sub (a : UInt32) {i : Nat} (hi : i < 2 ^ 32) :
    (a + UInt32.ofNat i - a).toNat = i := by
  rw [UInt32.add_comm, UInt32.add_sub_cancel, UInt32.toNat_ofNat_of_lt' hi]

private theorem fillMem_add (a : UInt32) {i len : Nat} (hi : i < len) (hlen : len ≤ 2 ^ 32) :
    fillMem mem a len src (a + UInt32.ofNat i) = src i := by
  rw [fillMem, toNat_add_sub a (by omega), if_pos hi]

private theorem fillMem_zero (mem : UInt32 → UInt8) (a : UInt32) (src : Bytes) :
    fillMem mem a 0 src = mem := by
  funext x
  rw [fillMem, if_neg (Nat.not_lt_zero _)]

private theorem toNat_sub_add (x a : UInt32) {l : Nat} (hl : l < 2 ^ 32) :
    (x - (a + UInt32.ofNat l)).toNat =
      if l ≤ (x - a).toNat then (x - a).toNat - l else (x - a).toNat + 2 ^ 32 - l := by
  have hsub : x - (a + UInt32.ofNat l) = x - a - UInt32.ofNat l := by
    rw [UInt32.sub_eq_add_neg, UInt32.neg_add, UInt32.sub_eq_add_neg, ← UInt32.add_assoc,
      ← UInt32.sub_eq_add_neg, ← UInt32.sub_eq_add_neg]
  have hlt := (x - a).toNat_lt
  rw [hsub, UInt32.toNat_sub, UInt32.toNat_ofNat_of_lt' hl]
  split <;> omega

private theorem fillMem_fillMem (mem : UInt32 → UInt8) (a : UInt32) {l l' : Nat} (src : Bytes)
    (h : l + l' ≤ 2 ^ 32) (hl : l < 2 ^ 32) :
    fillMem (fillMem mem a l src) (a + UInt32.ofNat l) l' (src.drop l) =
      fillMem mem a (l + l') src := by
  funext x
  simp only [fillMem, toNat_sub_add x a hl, Bytes.drop]
  have hlt := (x - a).toNat_lt
  by_cases hge : l ≤ (x - a).toNat
  · rw [if_pos hge]
    by_cases hin : (x - a).toNat < l + l'
    · rw [if_pos (by omega), if_pos hin]
      congr 1
      omega
    · rw [if_neg (by omega), if_neg (by omega), if_neg hin]
  · rw [if_neg hge, if_neg (by omega), if_pos (by omega), if_pos (by omega)]

private theorem fillMem_word (mem : UInt32 → UInt8) (a : UInt32) (src : Bytes) :
    Function.update (Function.update mem a (src 0)) (a + 1) (src 1) = fillMem mem a 2 src := by
  funext x
  have hone : a + 1 - a = 1 := by rw [UInt32.add_comm, UInt32.add_sub_cancel]
  by_cases h₁ : x = a + 1
  · subst h₁
    rw [Function.update_self, fillMem, hone]
    rfl
  by_cases h₀ : x = a
  · subst h₀
    rw [Function.update_of_ne h₁, Function.update_self, fillMem, UInt32.sub_self]
    rfl
  · rw [Function.update_of_ne h₁, Function.update_of_ne h₀, fillMem, if_neg]
    intro hlt
    have hx : x = a + (x - a) := by rw [UInt32.add_comm, UInt32.sub_add_cancel]
    have hcases : (x - a).toNat = 0 ∨ (x - a).toNat = 1 := by omega
    rcases hcases with h | h
    · have hzero : x - a = 0 := UInt32.toNat_inj.mp h
      rw [hzero, UInt32.add_zero] at hx
      exact h₀ hx
    · have hsucc : x - a = 1 := UInt32.toNat_inj.mp h
      rw [hsucc] at hx
      exact h₁ hx

private theorem blit_word (disk : Bytes) (pos : Nat) (src : Bytes) :
    Function.update (Function.update disk pos (src 0)) (pos + 1) (src 1) = disk.blit pos 2 src := by
  funext x
  by_cases h₁ : x = pos + 1
  · subst h₁
    rw [Function.update_self, Bytes.blit_add disk src pos 2 (by omega)]
  by_cases h₀ : x = pos
  · subst h₀
    rw [Function.update_of_ne h₁, Function.update_self]
    exact (Bytes.blit_add disk src x 2 (i := 0) (by omega)).symm
  · rw [Function.update_of_ne h₁, Function.update_of_ne h₀, Bytes.blit_of_outside _ _ _ _ (by omega)]

private theorem blit_blit (disk : Bytes) (pos l l' : Nat) (src : Bytes) :
    (disk.blit pos l src).blit (pos + l) l' (src.drop l) = disk.blit pos (l + l') src := by
  funext x
  simp only [Bytes.blit, Bytes.drop]
  by_cases hin : pos + l ≤ x ∧ x < pos + l + l'
  · rw [if_pos hin, if_pos (by omega)]
    congr 1
    omega
  · rw [if_neg hin]
    by_cases hfirst : pos ≤ x ∧ x < pos + l
    · rw [if_pos hfirst, if_pos (by omega)]
    · rw [if_neg hfirst, if_neg (by omega)]

private theorem bytesAt_add (mem : UInt32 → UInt8) (a : UInt32) (l : Nat) :
    bytesAt mem (a + UInt32.ofNat l) = (bytesAt mem a).drop l := by
  funext i
  rw [bytesAt, Bytes.drop, bytesAt, UInt32.add_assoc, ← UInt32.ofNat_add]

private theorem drop_drop (disk : Bytes) (pos l : Nat) :
    disk.drop (pos + l) = (disk.drop pos).drop l := by
  funext i
  rw [Bytes.drop, Bytes.drop, Bytes.drop, Nat.add_assoc]

private theorem pieces_add (pos : Nat) (a : UInt32) (n k : Nat) : pieces pos a (n + k) =
    pieces pos a n ++ pieces (pos + 2 * n) (a + UInt32.ofNat (2 * n)) k := by
  rw [pieces, List.range_add, List.map_append, List.map_map, pieces, pieces]
  congr 1
  apply List.map_congr_left
  intro i _
  simp only [Function.comp_apply, Prod.mk.injEq]
  refine ⟨by omega, ?_⟩
  rw [Nat.mul_add, UInt32.ofNat_add, UInt32.add_assoc]

end Memory

section Transferred

variable {m : Controller} {write drive : Bool} {pos n k : Nat} {a : UInt32}

private theorem transferred_transferred (h : 2 * (n + k) ≤ 2 ^ 32) (hn : 2 * n < 2 ^ 32) :
    (m.transferred write drive pos a n).transferred write drive (pos + 2 * n)
        (a + UInt32.ofNat (2 * n)) k = m.transferred write drive pos a (n + k) := by
  cases write with
  | true =>
      simp only [Controller.transferred, if_true, Function.update_self, Function.update_idem,
        bytesAt_add, blit_blit, pieces_add, List.append_assoc, Nat.mul_add]
  | false =>
      have hfill := @fillMem_fillMem m.mem a (2 * n) (2 * k) ((m.disk drive).drop pos)
        (by omega) hn
      simp only [Controller.transferred, Bool.false_eq_true, if_false, drop_drop, hfill, pieces_add,
        List.append_assoc, Nat.mul_add]

private theorem transferred_zero : m.transferred write drive pos a 0 = m := by
  cases write with
  | true =>
      have hblit : (m.disk drive).blit pos 0 (bytesAt m.mem a) = m.disk drive :=
        funext fun _ => if_neg (by omega)
      simp only [Controller.transferred, if_true, Nat.mul_zero, hblit, Function.update_eq_self, pieces,
        List.range_zero, List.map_nil, List.append_nil]
  | false =>
      simp only [Controller.transferred, Bool.false_eq_true, if_false, Nat.mul_zero, fillMem_zero,
        pieces, List.range_zero, List.map_nil, List.append_nil]

private theorem word_eq (c : Command) :
    m.word c a = if c.write = true ∧ c.left = 2 then
        Controller.interrupt { m.transferred c.write c.drive c.pos a 1 with
          command := running c.write c.drive (c.pos + 2) (c.left - 2) }
      else { m.transferred c.write c.drive c.pos a 1 with
        command := running c.write c.drive (c.pos + 2) (c.left - 2) } := by
  obtain ⟨write, drive, pos, left⟩ := c
  have hpieces : pieces pos a 1 = [(pos, a)] := by simp [pieces]
  cases write with
  | true =>
      have hblit := blit_word (m.disk drive) pos (bytesAt m.mem a)
      have hzero : bytesAt m.mem a 0 = m.mem a := congrArg m.mem (UInt32.add_zero a)
      have hone : bytesAt m.mem a 1 = m.mem (a + 1) := rfl
      rw [hzero, hone] at hblit
      simp only [Controller.word, Controller.transferred, if_true, hblit, hpieces, Nat.mul_one]
  | false =>
      have hfill := fillMem_word m.mem a ((m.disk drive).drop pos)
      have hzero : (m.disk drive).drop pos 0 = m.disk drive pos := rfl
      have hone : (m.disk drive).drop pos 1 = m.disk drive (pos + 1) := rfl
      rw [hzero, hone] at hfill
      simp only [Controller.word, Controller.transferred, Bool.false_eq_true, if_false, hfill, hpieces,
        Nat.mul_one, false_and]

end Transferred

/-- The whole of what is left of a command has gone through the data port. -/
def Controller.finished (m : Controller) (write drive : Bool) (pos : Nat) (a : UInt32)
    (n : Nat) : Controller :=
  let m := { m.transferred write drive pos a n with command := none }
  if write then m.interrupt else m

section Command

variable {m : Controller} {write drive : Bool} {a : UInt32}

private theorem dataPort_eq {c : Command} (hc : m.command = some c) (hw : c.write = write) :
    dataPort write a m = .ok ((), m.word c a) := by
  rw [dataPort, Code.get_bind, hc]
  dsimp only
  rw [if_pos hw]
  rfl

private theorem dataWords_eq (n : Nat) : ∀ {m : Controller} {pos : Nat} {a : UInt32},
    m.command = some ⟨write, drive, pos, 2 * (n + 1)⟩ → 2 * (n + 1) ≤ 2 ^ 32 →
    dataWords write a (n + 1) m = .ok ((), m.finished write drive pos a (n + 1)) := by
  induction n with
  | zero =>
      intro m pos a hc _
      rw [dataWords, Code.bind_of_ok (dataPort_eq hc rfl), word_eq]
      cases write <;> rfl
  | succ n ih =>
      intro m pos a hc hlen
      set m₁ : Controller := { m.transferred write drive pos a 1 with
        command := running write drive (pos + 2) (2 * (n + 1)) } with hm₁
      have hword : m.word ⟨write, drive, pos, 2 * (n + 1 + 1)⟩ a = m₁ := by
        rw [word_eq]
        dsimp only
        rw [if_neg (by omega), show 2 * (n + 1 + 1) - 2 = 2 * (n + 1) by omega]
      have hc₁ : m₁.command = some ⟨write, drive, pos + 2, 2 * (n + 1)⟩ := by
        change running write drive (pos + 2) (2 * (n + 1)) = _
        rw [running, if_neg (by omega)]
      rw [dataWords, Code.bind_of_ok (dataPort_eq hc rfl), hword, ih hc₁ (by omega)]
      have htwo := @transferred_transferred m write drive pos 1 (n + 1) a (by omega) (by omega)
      have hsame : m₁.transferred write drive (pos + 2) (a + 2) (n + 1) =
          { m.transferred write drive pos a (n + 1 + 1) with
            command := running write drive (pos + 2) (2 * (n + 1)) } := by
        rw [Nat.add_comm (n + 1) 1, ← htwo]
        rfl
      rw [Controller.finished, hsame]
      rfl

/-- The registers after `select_sector`. -/
def Controller.selected (m : Controller) (devNo : Bool) (lba : UInt32) (secCnt : UInt8) :
    Controller :=
  { m with
    sectCnt := secCnt
    lbaL := lba.toUInt8
    lbaM := (lba >>> 8).toUInt8
    lbaH := (lba >>> 16).toUInt8
    dev := ((0xa0 ||| 0x40 : UInt32) ||| (if devNo then (0x10 : UInt32) else 0) |||
      (lba >>> (24 : UInt32))).toUInt8 }

private theorem selectSector_eq {devNo : Bool} {lba : UInt32} {secCnt : UInt8} (h : lba ≤ maxLba) :
    selectSector devNo lba secCnt m = .ok ((), m.selected devNo lba secCnt) := by
  have hassert : assert (lba ≤ maxLba) m = .ok ((), m) := by
    rw [assert, if_pos h]
    rfl
  rw [selectSector, Code.bind_of_ok hassert]
  rfl

private theorem le_maxLba {lba : UInt32} : lba ≤ maxLba ↔ lba.toNat < 163840 := by
  rw [UInt32.le_iff_toNat_le, maxLba]
  exact Nat.lt_succ_iff.symm

private theorem selected_address {devNo : Bool} {lba : UInt32} {secCnt : UInt8} (h : lba ≤ maxLba) :
    (m.selected devNo lba secCnt).address = lba.toNat ∧
      (m.selected devNo lba secCnt).drive = devNo := by
  have hlba := le_maxLba.mp h
  have hshift : ∀ k : UInt32, (lba >>> k).toNat = lba.toNat / 2 ^ (k.toNat % 32) := by
    intro k
    rw [UInt32.toNat_shiftRight]
    exact Nat.shiftRight_eq_div_pow _ _
  have hhigh : lba >>> (24 : UInt32) = 0 := by
    apply UInt32.toNat_inj.mp
    rw [hshift]
    change lba.toNat / 2 ^ 24 = 0
    omega
  have hdev : (m.selected devNo lba secCnt).dev = if devNo then 0xf0 else 0xe0 := by
    rw [Controller.selected, hhigh]
    cases devNo <;> rfl
  have hlow : (m.selected devNo lba secCnt).lbaL.toNat = lba.toNat % 256 := UInt32.toNat_toUInt8 _
  have hmid : (m.selected devNo lba secCnt).lbaM.toNat = lba.toNat / 256 % 256 := by
    rw [Controller.selected, UInt32.toNat_toUInt8, hshift]
    rfl
  have hup : (m.selected devNo lba secCnt).lbaH.toNat = lba.toNat / 65536 % 256 := by
    rw [Controller.selected, UInt32.toNat_toUInt8, hshift]
    rfl
  constructor
  · rw [Controller.address, hlow, hmid, hup, hdev]
    cases devNo
    · change _ + 16777216 * 0 = _
      omega
    · change _ + 16777216 * 0 = _
      omega
  · rw [Controller.drive, hdev]
    cases devNo <;> decide

/-- A number of sectors up to 256 passes through 8 bits. -/
private theorem sectors_toUInt8 {op : UInt32} (hpos : 0 < op.toNat) (hop : op.toNat ≤ 256)
    (h : m.sectCnt = op.toUInt8) : m.sectors = op.toNat ∧
      (sizeInByte op.toUInt8 / 2).toNat = 256 * op.toNat := by
  have hbyte : op.toUInt8.toNat = op.toNat % 256 := UInt32.toNat_toUInt8 _
  have hzero : op.toUInt8 = 0 ↔ op.toNat = 256 := by
    rw [← UInt8.toNat_inj, hbyte]
    change op.toNat % 256 = 0 ↔ _
    omega
  rw [Controller.sectors, h, sizeInByte]
  by_cases hfull : op.toNat = 256
  · rw [if_pos (hzero.mpr hfull), if_pos (hzero.mpr hfull), hfull]
    exact ⟨rfl, rfl⟩
  · rw [if_neg (fun hc => hfull (hzero.mp hc)), if_neg (fun hc => hfull (hzero.mp hc)), hbyte]
    refine ⟨by omega, ?_⟩
    have hmul : (op.toUInt8.toUInt32 * 512).toNat = op.toNat % 256 * 512 := by
      rw [UInt32.toNat_mul, UInt8.toNat_toUInt32, hbyte]
      change op.toNat % 256 * 512 % 2 ^ 32 = _
      omega
    rw [UInt32.toNat_div, hmul]
    change op.toNat % 256 * 512 / 2 = _
    omega

variable {busy : Nat → Nat}

/-- `busy_wait` sees the device ready before its time is up. -/
private theorem busyWaitLoop_ready (t : Nat) : ∀ {m : Controller}, m.command ≠ none →
    busy m.issued - m.polls + 1 < t →
    ∃ q, busyWaitLoop busy t m = .ok (true, { m with polls := q }) := by
  induction t with
  | zero =>
      intro m _ h
      omega
  | succ t ih =>
      intro m hc ht
      have hstatus : ∀ m : Controller, m.command ≠ none → inStatus busy m =
          .ok (if m.polls < busy m.issued then 0x80 else 0x48,
            { m with polls := m.polls + 1 }) := by
        intro m hc
        rw [inStatus, Code.get_bind, Code.modify_bind]
        by_cases hbusy : m.polls < busy m.issued
        · rw [if_pos hbusy, if_pos hbusy]
          rfl
        · rw [if_neg hbusy, if_neg hbusy, if_neg hc]
          rfl
      rw [busyWaitLoop, if_neg (by omega), Code.bind_of_ok (hstatus m hc)]
      by_cases hbusy : m.polls < busy m.issued
      · obtain ⟨q, hq⟩ := @ih { m with polls := m.polls + 1 } hc (by
          change busy m.issued - (m.polls + 1) + 1 < t
          omega)
        refine ⟨q, ?_⟩
        rw [if_pos hbusy, if_neg (by decide)]
        exact hq
      · refine ⟨m.polls + 1 + 1, ?_⟩
        have hagain := hstatus { m with polls := m.polls + 1 } hc
        rw [if_neg (by change ¬ m.polls + 1 < busy m.issued; omega)] at hagain
        rw [if_neg hbusy, if_pos (by decide), Code.bind_of_ok hagain]
        rfl

private theorem waitReady_eq (hc : m.command ≠ none) (hpolls : m.polls = 0)
    (hbusy : busy m.issued < 29999) :
    ∃ q, waitReady busy m = .ok ((), { m with polls := q }) := by
  obtain ⟨q, hq⟩ := @busyWaitLoop_ready busy (30 * 1000) m hc (by omega)
  refine ⟨q, ?_⟩
  have hwait : busyWait busy m = .ok (true, { m with polls := q }) := hq
  rw [waitReady, Code.bind_of_ok hwait]
  rfl

end Command

/-- `n` sectors from `lba` on have been moved, and the channel is idle again. -/
structure Moved (write devNo : Bool) (lba : Nat) (a : UInt32) (n : Nat) (m m' : Controller) :
    Prop where
  mem : m'.mem = (m.transferred write devNo (512 * lba) a (256 * n)).mem
  disk : m'.disk = (m.transferred write devNo (512 * lba) a (256 * n)).disk
  moved : m'.moved = (m.transferred write devNo (512 * lba) a (256 * n)).moved
  command : m'.command = none
  diskDone : m'.diskDone = 0

section Chunk

variable {write devNo : Bool} {lba n k : Nat} {a : UInt32} {m m₁ m₂ : Controller}
  {busy : Nat → Nat}

theorem Moved.trans (h : Moved write devNo lba a n m m₁)
    (h' : Moved write devNo (lba + n) (a + UInt32.ofNat (512 * n)) k m₁ m₂)
    (hlen : 512 * (n + k) ≤ 2 ^ 32) (hn : 512 * n < 2 ^ 32) :
    Moved write devNo lba a (n + k) m m₂ := by
  have htwo := @transferred_transferred m write devNo (512 * lba) (256 * n) (256 * k) a
    (by omega) (by omega)
  have hpos : 512 * lba + 2 * (256 * n) = 512 * (lba + n) := by omega
  have hwords : 2 * (256 * n) = 512 * n := by omega
  have hsum : 256 * n + 256 * k = 256 * (n + k) := by omega
  rw [hpos, hwords, hsum] at htwo
  refine ⟨?_, ?_, ?_, h'.command, h'.diskDone⟩
  · rw [h'.mem, ← htwo, Controller.transferred, Controller.transferred, h.mem, h.disk]
  · rw [h'.disk, ← htwo, Controller.transferred, Controller.transferred, h.mem, h.disk]
  · rw [h'.moved, ← htwo, Controller.transferred, Controller.transferred, h.moved]

private theorem start_command {lba : UInt32} {op : UInt32} (hlba : lba ≤ maxLba)
    (hpos : 0 < op.toNat) (hop : op.toNat ≤ 256) : (({ m.selected devNo lba op.toUInt8 with
      expectingIntr := true } : Controller).start write).command =
        some ⟨write, devNo, 512 * lba.toNat, 512 * op.toNat⟩ := by
  obtain ⟨haddr, hdrive⟩ := @selected_address m devNo lba op.toUInt8 hlba
  obtain ⟨hsectors, -⟩ := @sectors_toUInt8 (m.selected devNo lba op.toUInt8) op hpos hop rfl
  have hregs : (({ m.selected devNo lba op.toUInt8 with
      expectingIntr := true } : Controller).start write).command =
        running write (m.selected devNo lba op.toUInt8).drive
          (512 * (m.selected devNo lba op.toUInt8).address)
          (512 * (m.selected devNo lba op.toUInt8).sectors) := by
    cases write <;> rfl
  rw [hregs, haddr, hdrive, hsectors, running, if_neg (by omega)]

theorem semaDown_eq (h : m.diskDone = 1) : semaDown m = .ok ((), { m with diskDone := 0 }) := by
  have hdown : ({ m with diskDone := m.diskDone - 1 } : Controller) = { m with diskDone := 0 } := by
    rw [h]
  rw [semaDown, Code.get_bind, if_neg (by rw [h]; decide), ← hdown]
  rfl

private theorem cmdOut_eq (hc : m.command = none) :
    cmdOut write m = .ok ((), ({ m with expectingIntr := true } : Controller).start write) := by
  have hidle : ({ m with expectingIntr := true } : Controller).command = none := hc
  rw [cmdOut, Code.modify_bind, outCmd, Code.get_bind, if_pos hidle]
  rfl

private theorem readChunk {lba op : UInt32} (hlba : lba ≤ maxLba) (hpos : 0 < op.toNat)
    (hop : op.toNat ≤ 256) (hbusy : ∀ i, busy i < 29999) (hcommand : m.command = none)
    (hdone : m.diskDone = 0) : ∃ m', Moved false devNo lba.toNat a op.toNat m m' ∧
      ∀ rest : IdeM Unit, (selectSector devNo lba op.toUInt8 >>= fun _ => cmdOut false >>= fun _ =>
        semaDown >>= fun _ => waitReady busy >>= fun _ =>
          readFromSector a op.toUInt8 >>= fun _ => rest) m = rest m' := by
  obtain ⟨-, hwords⟩ := @sectors_toUInt8 (m.selected devNo lba op.toUInt8) op hpos hop rfl
  have hstart := @start_command false devNo m lba op hlba hpos hop
  set m₁ : Controller := { m.selected devNo lba op.toUInt8 with expectingIntr := true } with hm₁
  have hcmd : cmdOut false (m.selected devNo lba op.toUInt8) = .ok ((), m₁.start false) :=
    cmdOut_eq hcommand
  have hsema : semaDown (m₁.start false) =
      .ok ((), { m₁.start false with diskDone := 0 }) := by
    have hone : (m₁.start false).diskDone = 1 := congrArg (· + 1) hdone
    exact semaDown_eq hone
  obtain ⟨q, hready⟩ := @waitReady_eq { m₁.start false with diskDone := 0 } busy
    (by rw [hstart]; exact Option.some_ne_none _) rfl (hbusy _)
  set m₂ : Controller := { m₁.start false with diskDone := 0, polls := q } with hm₂
  obtain ⟨w, hw⟩ : ∃ w, 256 * op.toNat = w + 1 := ⟨256 * op.toNat - 1, by omega⟩
  have hdata : readFromSector a op.toUInt8 m₂ =
      .ok ((), m₂.finished false devNo (512 * lba.toNat) a (256 * op.toNat)) := by
    rw [readFromSector, insw, hwords, hw]
    refine dataWords_eq w ?_ (by omega)
    rw [← hw, show 2 * (256 * op.toNat) = 512 * op.toNat by omega]
    exact hstart
  refine ⟨m₂.finished false devNo (512 * lba.toNat) a (256 * op.toNat),
    ⟨rfl, rfl, rfl, rfl, rfl⟩, ?_⟩
  intro rest
  rw [Code.bind_of_ok (selectSector_eq hlba), Code.bind_of_ok hcmd, Code.bind_of_ok hsema,
    Code.bind_of_ok hready, Code.bind_of_ok hdata]

private theorem writeChunk {lba op : UInt32} (hlba : lba ≤ maxLba) (hpos : 0 < op.toNat)
    (hop : op.toNat ≤ 256) (hbusy : ∀ i, busy i < 29999) (hcommand : m.command = none)
    (hdone : m.diskDone = 0) : ∃ m', Moved true devNo lba.toNat a op.toNat m m' ∧
      ∀ rest : IdeM Unit, (selectSector devNo lba op.toUInt8 >>= fun _ => cmdOut true >>= fun _ =>
        waitReady busy >>= fun _ => writeToSector a op.toUInt8 >>= fun _ =>
          semaDown >>= fun _ => rest) m = rest m' := by
  obtain ⟨-, hwords⟩ := @sectors_toUInt8 (m.selected devNo lba op.toUInt8) op hpos hop rfl
  have hstart := @start_command true devNo m lba op hlba hpos hop
  set m₁ : Controller := { m.selected devNo lba op.toUInt8 with expectingIntr := true } with hm₁
  have hcmd : cmdOut true (m.selected devNo lba op.toUInt8) = .ok ((), m₁.start true) :=
    cmdOut_eq hcommand
  obtain ⟨q, hready⟩ := @waitReady_eq (m₁.start true) busy
    (by rw [hstart]; exact Option.some_ne_none _) rfl (hbusy _)
  set m₂ : Controller := { m₁.start true with polls := q } with hm₂
  obtain ⟨w, hw⟩ : ∃ w, 256 * op.toNat = w + 1 := ⟨256 * op.toNat - 1, by omega⟩
  set m₃ := m₂.finished true devNo (512 * lba.toNat) a (256 * op.toNat) with hm₃
  have hdata : writeToSector a op.toUInt8 m₂ = .ok ((), m₃) := by
    rw [writeToSector, outsw, hwords, hm₃, hw]
    refine dataWords_eq w ?_ (by omega)
    rw [← hw, show 2 * (256 * op.toNat) = 512 * op.toNat by omega]
    exact hstart
  have hsema : semaDown m₃ = .ok ((), { m₃ with diskDone := 0 }) := by
    have hone : m₃.diskDone = 1 := congrArg (· + 1) hdone
    exact semaDown_eq hone
  refine ⟨{ m₃ with diskDone := 0 }, ⟨rfl, rfl, rfl, rfl, rfl⟩, ?_⟩
  intro rest
  rw [Code.bind_of_ok (selectSector_eq hlba), Code.bind_of_ok hcmd, Code.bind_of_ok hready,
    Code.bind_of_ok hdata, Code.bind_of_ok hsema]

end Chunk

/-! ### The loops -/

section Loop

variable {write devNo : Bool} {lba buf secCnt : UInt32} {m : Controller} {busy : Nat → Nat}

private theorem moved_none {l : Nat} {a : UInt32} (hcommand : m.command = none)
    (hdone : m.diskDone = 0) : Moved write devNo l a 0 m m := by
  have hzero := @transferred_zero m write devNo (512 * l) a
  refine ⟨?_, ?_, ?_, hcommand, hdone⟩
  · rw [Nat.mul_zero, hzero]
  · rw [Nat.mul_zero, hzero]
  · rw [Nat.mul_zero, hzero]

private theorem secsOp_spec {secsDone : UInt32} (hlt : secsDone < secCnt)
    (hend : lba.toNat + secCnt.toNat ≤ 163840) :
    0 < (secsOp secCnt secsDone).toNat ∧ (secsOp secCnt secsDone).toNat ≤ 256 ∧
      (secsDone + secsOp secCnt secsDone).toNat =
        secsDone.toNat + (secsOp secCnt secsDone).toNat ∧
      secsDone.toNat + (secsOp secCnt secsDone).toNat ≤ secCnt.toNat ∧
      (lba + secsDone).toNat = lba.toNat + secsDone.toNat := by
  rw [UInt32.lt_iff_toNat_lt] at hlt
  have hsum : (secsDone + 256).toNat = secsDone.toNat + 256 := by
    rw [UInt32.toNat_add]
    change (secsDone.toNat + 256) % 2 ^ 32 = _
    omega
  have hop : (secsOp secCnt secsDone).toNat = 256 ∧ secsDone.toNat + 256 ≤ secCnt.toNat ∨
      (secsOp secCnt secsDone).toNat = secCnt.toNat - secsDone.toNat ∧
        secCnt.toNat < secsDone.toNat + 256 := by
    rw [secsOp]
    by_cases hfull : secsDone + 256 ≤ secCnt
    · rw [if_pos hfull]
      rw [UInt32.le_iff_toNat_le, hsum] at hfull
      exact .inl ⟨rfl, hfull⟩
    · rw [if_neg hfull]
      rw [UInt32.le_iff_toNat_le, hsum] at hfull
      refine .inr ⟨UInt32.toNat_sub_of_le _ _ ?_, by omega⟩
      rw [UInt32.le_iff_toNat_le]
      omega
  refine ⟨by omega, by omega, ?_, by omega, ?_⟩
  · rw [UInt32.toNat_add, Nat.mod_eq_of_lt (by omega)]
  · rw [UInt32.toNat_add, Nat.mod_eq_of_lt (by omega)]

/-- A loop each of whose turns moves the sectors of one command moves them all. -/
private theorem loop_moved {loop : Nat → UInt32 → IdeM Unit}
    (hend : lba.toNat + secCnt.toNat ≤ 163840)
    (hturn : ∀ n secsDone m, secsDone < secCnt → m.command = none → m.diskDone = 0 →
      ∃ m₁, Moved write devNo (lba + secsDone).toNat (buf + secsDone * 512)
          (secsOp secCnt secsDone).toNat m m₁ ∧
        loop (n + 1) secsDone m = loop n (secsDone + secsOp secCnt secsDone) m₁)
    (hstop : ∀ n secsDone m, ¬ secsDone < secCnt → loop n secsDone m = .ok ((), m)) (n : Nat) :
    ∀ {m : Controller} {secsDone : UInt32}, secsDone.toNat ≤ secCnt.toNat →
      secCnt.toNat - secsDone.toNat ≤ n → m.command = none → m.diskDone = 0 →
      ∃ m', loop n secsDone m = .ok ((), m') ∧
        Moved write devNo (lba.toNat + secsDone.toNat)
          (buf + UInt32.ofNat (512 * secsDone.toNat)) (secCnt.toNat - secsDone.toNat) m m' := by
  induction n with
  | zero =>
      intro m secsDone hle hfuel hcommand hdone
      have hall : ¬ secsDone < secCnt := by
        rw [UInt32.lt_iff_toNat_lt]
        omega
      refine ⟨m, hstop 0 secsDone m hall, ?_⟩
      rw [show secCnt.toNat - secsDone.toNat = 0 by omega]
      exact moved_none hcommand hdone
  | succ n ih =>
      intro m secsDone hle hfuel hcommand hdone
      by_cases hlt : secsDone < secCnt
      · obtain ⟨hpos, -, hsum, hin, hlba⟩ := secsOp_spec hlt hend
        obtain ⟨m₁, hmoved, hrun⟩ := hturn n secsDone m hlt hcommand hdone
        obtain ⟨m', hloop, hrest⟩ := @ih m₁ (secsDone + secsOp secCnt secsDone) (by omega)
          (by omega) hmoved.command hmoved.diskDone
        have hbuf : buf + secsDone * 512 = buf + UInt32.ofNat (512 * secsDone.toNat) := by
          rw [Nat.mul_comm, UInt32.ofNat_mul, UInt32.ofNat_toNat]
          rfl
        rw [hlba, hbuf] at hmoved
        rw [hsum, Nat.mul_add, UInt32.ofNat_add, ← UInt32.add_assoc, ← Nat.add_assoc] at hrest
        refine ⟨m', hrun.trans hloop, ?_⟩
        have hall := hmoved.trans hrest (by omega) (by omega)
        rw [show (secsOp secCnt secsDone).toNat + (secCnt.toNat -
          (secsDone.toNat + (secsOp secCnt secsDone).toNat)) = secCnt.toNat - secsDone.toNat by
            omega] at hall
        exact hall
      · refine ⟨m, hstop _ secsDone m hlt, ?_⟩
        rw [UInt32.lt_iff_toNat_lt] at hlt
        rw [show secCnt.toNat - secsDone.toNat = 0 by omega]
        exact moved_none hcommand hdone

private theorem assert_eq {c : Prop} [Decidable c] (hc : c) : assert c m = .ok ((), m) := by
  rw [assert, if_pos hc]
  rfl

/-- The device register is written once more before the loop. -/
private theorem moved_selectDisk {l n : Nat} {a : UInt32} {v : UInt8} {m' : Controller}
    (h : Moved write devNo l a n { m with dev := v } m') : Moved write devNo l a n m m' :=
  ⟨h.mem, h.disk, h.moved, h.command, h.diskDone⟩

theorem ideRead_moved (hbusy : ∀ i, busy i < 29999) (hpos : 0 < secCnt.toNat)
    (hend : lba.toNat + secCnt.toNat ≤ 163840) (hcommand : m.command = none)
    (hdone : m.diskDone = 0) : ∃ m', ideRead busy devNo lba buf secCnt m = .ok ((), m') ∧
      Moved false devNo lba.toNat buf secCnt.toNat m m' := by
  have hturn : ∀ n secsDone m, secsDone < secCnt → m.command = none → m.diskDone = 0 →
      ∃ m₁, Moved false devNo (lba + secsDone).toNat (buf + secsDone * 512)
          (secsOp secCnt secsDone).toNat m m₁ ∧
        readLoop busy devNo lba buf secCnt (n + 1) secsDone m =
          readLoop busy devNo lba buf secCnt n (secsDone + secsOp secCnt secsDone) m₁ := by
    intro n secsDone m hlt hcommand hdone
    obtain ⟨hop, hop', -, hin, hlba⟩ := secsOp_spec hlt hend
    have hlast : lba + secsDone ≤ maxLba := by
      rw [le_maxLba]
      omega
    obtain ⟨m₁, hmoved, hrun⟩ := @readChunk devNo (buf + secsDone * 512) m busy _ _ hlast hop hop'
      hbusy hcommand hdone
    refine ⟨m₁, hmoved, ?_⟩
    rw [readLoop, if_pos hlt]
    exact hrun _
  have hstop : ∀ n secsDone m, ¬ secsDone < secCnt →
      readLoop busy devNo lba buf secCnt n secsDone m = .ok ((), m) := by
    intro n secsDone m hlt
    cases n with
    | zero =>
        rw [readLoop, if_neg hlt]
        rfl
    | succ n =>
        rw [readLoop, if_neg hlt]
        rfl
  obtain ⟨m', hloop, hmoved⟩ := @loop_moved false devNo lba buf secCnt _ hend hturn hstop secCnt.toNat
    { m with dev := if devNo then 0xa0 ||| 0x40 ||| 0x10 else 0xa0 ||| 0x40 } 0 (Nat.zero_le _) le_rfl
    hcommand hdone
  refine ⟨m', ?_, ?_⟩
  · have hlba : lba ≤ maxLba := le_maxLba.mpr (by omega)
    have hcnt : 0 < secCnt := UInt32.lt_iff_toNat_lt.mpr hpos
    rw [ideRead, Code.bind_of_ok (assert_eq hlba), Code.bind_of_ok (assert_eq hcnt), selectDisk, outb,
      Code.modify_bind]
    exact hloop
  · have hzero : buf + UInt32.ofNat (512 * (0 : UInt32).toNat) = buf := UInt32.add_zero buf
    rw [hzero] at hmoved
    exact moved_selectDisk hmoved

theorem ideWrite_moved (hbusy : ∀ i, busy i < 29999) (hpos : 0 < secCnt.toNat)
    (hend : lba.toNat + secCnt.toNat ≤ 163840) (hcommand : m.command = none)
    (hdone : m.diskDone = 0) : ∃ m', ideWrite busy devNo lba buf secCnt m = .ok ((), m') ∧
      Moved true devNo lba.toNat buf secCnt.toNat m m' := by
  have hturn : ∀ n secsDone m, secsDone < secCnt → m.command = none → m.diskDone = 0 →
      ∃ m₁, Moved true devNo (lba + secsDone).toNat (buf + secsDone * 512)
          (secsOp secCnt secsDone).toNat m m₁ ∧
        writeLoop busy devNo lba buf secCnt (n + 1) secsDone m =
          writeLoop busy devNo lba buf secCnt n (secsDone + secsOp secCnt secsDone) m₁ := by
    intro n secsDone m hlt hcommand hdone
    obtain ⟨hop, hop', -, hin, hlba⟩ := secsOp_spec hlt hend
    have hlast : lba + secsDone ≤ maxLba := by
      rw [le_maxLba]
      omega
    obtain ⟨m₁, hmoved, hrun⟩ := @writeChunk devNo (buf + secsDone * 512) m busy _ _ hlast hop hop'
      hbusy hcommand hdone
    refine ⟨m₁, hmoved, ?_⟩
    rw [writeLoop, if_pos hlt]
    exact hrun _
  have hstop : ∀ n secsDone m, ¬ secsDone < secCnt →
      writeLoop busy devNo lba buf secCnt n secsDone m = .ok ((), m) := by
    intro n secsDone m hlt
    cases n with
    | zero =>
        rw [writeLoop, if_neg hlt]
        rfl
    | succ n =>
        rw [writeLoop, if_neg hlt]
        rfl
  obtain ⟨m', hloop, hmoved⟩ := @loop_moved true devNo lba buf secCnt _ hend hturn hstop secCnt.toNat
    { m with dev := if devNo then 0xa0 ||| 0x40 ||| 0x10 else 0xa0 ||| 0x40 } 0 (Nat.zero_le _) le_rfl
    hcommand hdone
  refine ⟨m', ?_, ?_⟩
  · have hlba : lba ≤ maxLba := le_maxLba.mpr (by omega)
    have hcnt : 0 < secCnt := UInt32.lt_iff_toNat_lt.mpr hpos
    rw [ideWrite, Code.bind_of_ok (assert_eq hlba), Code.bind_of_ok (assert_eq hcnt), selectDisk, outb,
      Code.modify_bind]
    exact hloop
  · have hzero : buf + UInt32.ofNat (512 * (0 : UInt32).toNat) = buf := UInt32.add_zero buf
    rw [hzero] at hmoved
    exact moved_selectDisk hmoved

private theorem pieces_sectors (l : Nat) (a : UInt32) (n : Nat) : pieces (512 * l) a (256 * n) =
    (List.range n).flatMap fun i => pieces (512 * (l + i)) (a + UInt32.ofNat (512 * i)) 256 := by
  induction n with
  | zero => rfl
  | succ n ih =>
      rw [Nat.mul_add, Nat.mul_one, pieces_add, ih, List.range_succ, List.flatMap_append,
        List.flatMap_singleton, show 2 * (256 * n) = 512 * n by omega,
        show 512 * l + 512 * n = 512 * (l + n) by omega]

end Loop

/-- Nothing is in progress. -/
def Controller.Idle (m : Controller) : Prop := m.command = none ∧ m.diskDone = 0

/-- The sectors from `lba` on have gone in order into the buffer, each word once. -/
structure SectorsRead (devNo : Bool) (lba buf : UInt32) (n : Nat) (m m' : Controller) : Prop where
  idle : m'.Idle
  disk : m'.disk = m.disk
  buffer : ∀ i < 512 * n, m'.mem (buf + UInt32.ofNat i) = m.disk devNo (512 * lba.toNat + i)
  outside : ∀ x, 512 * n ≤ (x - buf).toNat → m'.mem x = m.mem x
  moved : m'.moved = m.moved ++ (List.range n).flatMap fun i =>
    pieces (512 * (lba.toNat + i)) (buf + UInt32.ofNat (512 * i)) 256

/-- The buffer has gone in order into the sectors from `lba` on, each word once. -/
structure SectorsWritten (devNo : Bool) (lba buf : UInt32) (n : Nat) (m m' : Controller) :
    Prop where
  idle : m'.Idle
  mem : m'.mem = m.mem
  sectors : ∀ i < 512 * n, m'.disk devNo (512 * lba.toNat + i) = m.mem (buf + UInt32.ofNat i)
  outside : ∀ i, i < 512 * lba.toNat ∨ 512 * (lba.toNat + n) ≤ i →
    m'.disk devNo i = m.disk devNo i
  otherDisk : m'.disk (!devNo) = m.disk (!devNo)
  moved : m'.moved = m.moved ++ (List.range n).flatMap fun i =>
    pieces (512 * (lba.toNat + i)) (buf + UInt32.ofNat (512 * i)) 256

section Calls

variable {devNo : Bool} {lba buf : UInt32} {n : Nat} {m m' : Controller} {busy : Nat → Nat}

private theorem Moved.sectorsRead (h : Moved false devNo lba.toNat buf n m m')
    (hn : 512 * n ≤ 2 ^ 32) : SectorsRead devNo lba buf n m m' where
  idle := ⟨h.command, h.diskDone⟩
  disk := h.disk
  buffer i hi := by
    rw [h.mem]
    exact fillMem_add buf (by omega) (by omega)
  outside x hx := by
    rw [h.mem]
    exact if_neg (by omega)
  moved := by
    rw [h.moved, ← pieces_sectors]
    rfl

private theorem Moved.sectorsWritten (h : Moved true devNo lba.toNat buf n m m') :
    SectorsWritten devNo lba buf n m m' := by
  have hdisk : m'.disk = Function.update m.disk devNo ((m.disk devNo).blit (512 * lba.toNat)
      (2 * (256 * n)) (bytesAt m.mem buf)) := h.disk
  refine ⟨⟨h.command, h.diskDone⟩, h.mem, ?_, ?_, ?_, ?_⟩
  · intro i hi
    rw [hdisk, Function.update_self, Bytes.blit_add _ _ _ _ (by omega)]
    rfl
  · intro i hi
    rw [hdisk, Function.update_self, Bytes.blit_of_outside _ _ _ _ (by omega)]
  · rw [hdisk, Function.update_of_ne (by cases devNo <;> decide)]
  · rw [h.moved, ← pieces_sectors]
    rfl

/-- One call for each sector. -/
def eachSector (op : UInt32 → UInt32 → UInt32 → IdeM Unit) (lba buf : UInt32) : Nat → IdeM Unit
  | 0 => return
  | n + 1 => do
      op lba buf 1
      eachSector op (lba + 1) (buf + 512) n

private theorem eachSector_moved {write : Bool} {op : UInt32 → UInt32 → UInt32 → IdeM Unit}
    (hop : ∀ {lba buf m}, lba.toNat + 1 ≤ 163840 → m.command = none → m.diskDone = 0 →
      ∃ m', op lba buf 1 m = .ok ((), m') ∧ Moved write devNo lba.toNat buf 1 m m') (n : Nat) :
    ∀ {lba buf : UInt32} {m : Controller}, lba.toNat + n ≤ 163840 → m.command = none →
      m.diskDone = 0 → ∃ m', eachSector op lba buf n m = .ok ((), m') ∧
        Moved write devNo lba.toNat buf n m m' := by
  induction n with
  | zero =>
      intro lba buf m _ hcommand hdone
      exact ⟨m, rfl, moved_none hcommand hdone⟩
  | succ n ih =>
      intro lba buf m hend hcommand hdone
      obtain ⟨m₁, hrun, hmoved⟩ := @hop lba buf m (by omega) hcommand hdone
      have hlba : (lba + 1).toNat = lba.toNat + 1 := by
        rw [UInt32.toNat_add]
        change (lba.toNat + 1) % 2 ^ 32 = _
        omega
      obtain ⟨m', hrest, hmoved'⟩ := @ih (lba + 1) (buf + 512) m₁ (by omega) hmoved.command
        hmoved.diskDone
      rw [hlba] at hmoved'
      refine ⟨m', ?_, ?_⟩
      · rw [eachSector, Code.bind_of_ok hrun]
        exact hrest
      · rw [Nat.add_comm n 1]
        exact hmoved.trans hmoved' (by omega) (by omega)

theorem Moved.same {write : Bool} {l : Nat} {m'' : Controller} (h : Moved write devNo l buf n m m')
    (h' : Moved write devNo l buf n m m'') :
    m'.mem = m''.mem ∧ m'.disk = m''.disk ∧ m'.moved = m''.moved :=
  ⟨h.mem.trans h'.mem.symm, h.disk.trans h'.disk.symm, h.moved.trans h'.moved.symm⟩

end Calls

/-- `ide_read` and `ide_write` move their sectors in order into the buffer and out of it; a call is
as good as one call for each sector, and what was written is read. -/
theorem ide_moves_sectors (busy : Nat → Nat) (hbusy : ∀ i, busy i < 29999) (devNo : Bool)
    (lba buf n : UInt32) (hn : 1 ≤ n.toNat) (hend : lba.toNat + n.toNat ≤ maxLba.toNat + 1)
    (m : Controller) (hidle : m.Idle) :
    (∃ m', ideRead busy devNo lba buf n m = .ok ((), m') ∧
      SectorsRead devNo lba buf n.toNat m m' ∧
      ∃ m'', eachSector (ideRead busy devNo) lba buf n.toNat m = .ok ((), m'') ∧
        m'.mem = m''.mem ∧ m'.disk = m''.disk ∧ m'.moved = m''.moved) ∧
    (∃ m', ideWrite busy devNo lba buf n m = .ok ((), m') ∧
      SectorsWritten devNo lba buf n.toNat m m' ∧
      (∃ m'', eachSector (ideWrite busy devNo) lba buf n.toNat m = .ok ((), m'') ∧
        m'.mem = m''.mem ∧ m'.disk = m''.disk ∧ m'.moved = m''.moved) ∧
      ∀ buf₂, ∃ m'', ideRead busy devNo lba buf₂ n m' = .ok ((), m'') ∧
        ∀ i < 512 * n.toNat, m''.mem (buf₂ + UInt32.ofNat i) = m.mem (buf + UInt32.ofNat i)) := by
  have hend' : lba.toNat + n.toNat ≤ 163840 := hend
  have hone : ∀ (write : Bool) (op : UInt32 → UInt32 → UInt32 → IdeM Unit),
      (∀ {lba buf secCnt : UInt32} {m : Controller}, 0 < secCnt.toNat →
        lba.toNat + secCnt.toNat ≤ 163840 → m.command = none → m.diskDone = 0 →
        ∃ m', op lba buf secCnt m = .ok ((), m') ∧
          Moved write devNo lba.toNat buf secCnt.toNat m m') →
      ∃ m'', eachSector op lba buf n.toNat m = .ok ((), m'') ∧
        Moved write devNo lba.toNat buf n.toNat m m'' := by
    intro write op hop
    refine eachSector_moved ?_ n.toNat hend' hidle.1 hidle.2
    intro lba buf m hlba
    exact @hop lba buf 1 m (by decide) hlba
  constructor
  · obtain ⟨m', hrun, hmoved⟩ := @ideRead_moved devNo lba buf n m busy hbusy hn hend' hidle.1
      hidle.2
    have heach := hone false (ideRead busy devNo) fun hpos hlba => ideRead_moved hbusy hpos hlba
    obtain ⟨m'', hrun', hmoved'⟩ := heach
    exact ⟨m', hrun, hmoved.sectorsRead (by omega), m'', hrun', hmoved.same hmoved'⟩
  · obtain ⟨m', hrun, hmoved⟩ := @ideWrite_moved devNo lba buf n m busy hbusy hn hend' hidle.1
      hidle.2
    have heach := hone true (ideWrite busy devNo) fun hpos hlba => ideWrite_moved hbusy hpos hlba
    obtain ⟨m'', hrun', hmoved'⟩ := heach
    have hwritten := hmoved.sectorsWritten
    refine ⟨m', hrun, hwritten, ⟨m'', hrun', hmoved.same hmoved'⟩, ?_⟩
    intro buf₂
    obtain ⟨m₂, hread, hback⟩ := @ideRead_moved devNo lba buf₂ n m' busy hbusy hn hend'
      hmoved.command hmoved.diskDone
    refine ⟨m₂, hread, ?_⟩
    intro i hi
    rw [(hback.sectorsRead (by omega)).buffer i hi, hwritten.sectors i hi]

/-- An idle channel with two empty disks. -/
def idleController : Controller where
  sectCnt := 0
  lbaL := 0
  lbaM := 0
  lbaH := 0
  dev := 0
  disk := fun _ => Bytes.zero
  command := none
  issued := 0
  polls := 0
  expectingIntr := false
  diskDone := 0
  mem := fun a => a.toUInt8
  moved := []

/-- The inode table, 608 sectors: three commands. -/
theorem ide_moves_inode_table : ∃ m',
    ideWrite (fun _ => 0) true 5 0x100000 608 idleController = .ok ((), m') ∧
      SectorsWritten true 5 0x100000 608 idleController m' := by
  obtain ⟨-, m', hrun, hwritten, -⟩ := ide_moves_sectors (fun _ => 0) (fun _ => by decide) true 5
    0x100000 608 (by decide) (by decide) idleController ⟨rfl, rfl⟩
  exact ⟨m', hrun, hwritten⟩

end Aitos.Drivers.Ide
