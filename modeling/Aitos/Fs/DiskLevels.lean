import Aitos.Drivers.IdeTransfer
import Aitos.Fs.DiskInit

/-!
# The disk at its levels

The driver moves words through the registers of a channel, at boot a disk is its sectors, and a
mounted partition reads one array of bytes.  Here each level does what the next one says of
`ide_read`, `ide_write` and `partition_format`.
-/

namespace Aitos.Fs

open Framework

/-- The array holds the sectors one after the other. -/
def Flat (sectors : UInt32 → Bytes) (disk : Bytes) : Prop :=
  ∀ lba i, i < 512 → disk (512 * lba.toNat + i) = sectors lba i

section Flat

variable {ch : Channel} {s t : Boot} {disk : Bytes} {lba secCnt : UInt32} {src : Bytes} {u : Unit}

private theorem flat_write (h : Flat (s.sectors ch) disk)
    (hend : lba.toNat + secCnt.toNat ≤ 2 ^ 32) :
    Flat ((s.write ch lba secCnt src).sectors ch) (Format.ideWrite disk lba src secCnt) := by
  intro k i hi
  have hk := k.toNat_lt
  have hlba := lba.toNat_lt
  have hsectors : (s.write ch lba secCnt src).sectors ch k =
      if (k - lba).toNat < secCnt.toNat then src.drop (512 * (k - lba).toNat)
      else s.sectors ch k := by
    change Function.update s.sectors ch _ ch k = _
    rw [Function.update_self]
  rw [hsectors]
  have hsub : (k - lba).toNat = if lba.toNat ≤ k.toNat then k.toNat - lba.toNat
      else k.toNat + 2 ^ 32 - lba.toNat := by
    rw [UInt32.toNat_sub]
    split <;> omega
  by_cases hin : lba.toNat ≤ k.toNat ∧ k.toNat < lba.toNat + secCnt.toNat
  · rw [if_pos hin.1] at hsub
    have hat : 512 * k.toNat + i = 512 * lba.toNat + (512 * (k.toNat - lba.toNat) + i) := by omega
    rw [if_pos (by omega), hsub, Bytes.drop, Format.ideWrite, hat,
      Bytes.blit_add _ _ _ _ (by omega)]
  · have hout : ¬ (k - lba).toNat < secCnt.toNat := by
      rw [hsub]
      split <;> omega
    rw [if_neg hout, Format.ideWrite, Bytes.blit_of_outside _ _ _ _ (by omega)]
    exact h k i hi

private theorem check_ok {c : Prop} [Decidable c] {e : BootHalt} (h : check c e s = .ok (u, t)) :
    c ∧ t = s := by
  rw [check] at h
  split at h
  · exact ⟨‹c›, (Code.pure_ok.mp h).2⟩
  · exact (Code.throw_ok.mp h).elim

/-- The addresses that `ide_write` checks do not wrap. -/
private theorem writeSectors_ok (h : writeSectors ch lba secCnt src s = .ok (u, t)) :
    t = s.write ch lba secCnt src ∧ lba.toNat + secCnt.toNat ≤ 2 ^ 32 := by
  rw [writeSectors] at h
  obtain ⟨_, s₁, hfirst, h₁⟩ := Code.bind_ok.mp h
  obtain ⟨_, s₂, hsecond, h₂⟩ := Code.bind_ok.mp h₁
  obtain ⟨hlba, rfl⟩ := check_ok hfirst
  obtain ⟨hchunks, rfl⟩ := check_ok hsecond
  refine ⟨Code.modify_ok.mp h₂, ?_⟩
  have hmax : maxLba.toNat = 163839 := rfl
  have hle := UInt32.le_iff_toNat_le.mp hlba.1
  -- every piece of 256 sectors starts on the disk
  have hstart : ∀ k, k < (secCnt.toNat + 255) / 256 → lba.toNat + 256 * k ≤ maxLba.toNat := by
    intro k
    induction k with
    | zero => exact fun _ => hle
    | succ k ih =>
        intro hk
        have hprev := ih (by omega)
        have hnext := UInt32.le_iff_toNat_le.mp (hchunks (k + 1) hk)
        rw [UInt32.toNat_add, UInt32.toNat_ofNat'] at hnext
        omega
  by_contra hend
  have hlast := hstart ((secCnt.toNat + 255) / 256 - 1) (by omega)
  omega

private theorem flat_writeSectors (hd : Flat (s.sectors ch) disk)
    (h : writeSectors ch lba secCnt src s = .ok (u, t)) :
    Flat (t.sectors ch) (Format.ideWrite disk lba src secCnt) := by
  obtain ⟨rfl, hend⟩ := writeSectors_ok h
  exact flat_write hd hend

/-- The boot's `partition_format` leaves what the one on bytes computes. -/
theorem flat_partitionFormat {p : PartExtent} (hd : Flat (s.sectors ch) disk)
    (h : partitionFormat ch p s = .ok (u, t)) :
    Flat (t.sectors ch) (Format.partitionFormat p.startLba p.secCnt s.pad disk) := by
  rw [partitionFormat, Code.get_bind] at h
  obtain ⟨_, s₁, hsb, h₁⟩ := Code.bind_ok.mp h
  obtain ⟨ok, s₂, hmalloc, h₂⟩ := Code.bind_ok.mp h₁
  obtain ⟨_, s₃, hserved, h₃⟩ := Code.bind_ok.mp h₂
  obtain ⟨_, s₄, hroom, h₄⟩ := Code.bind_ok.mp h₃
  obtain ⟨_, s₅, hblock, h₅⟩ := Code.bind_ok.mp h₄
  obtain ⟨_, s₆, hinode, h₆⟩ := Code.bind_ok.mp h₅
  obtain ⟨_, s₇, htable, hroot⟩ := Code.bind_ok.mp h₆
  have hsame : s₂.sectors = s₁.sectors := by
    rw [bootMalloc, Code.get_bind, Code.modify_bind] at hmalloc
    obtain ⟨-, rfl⟩ := Code.pure_ok.mp hmalloc
    rfl
  obtain ⟨-, rfl⟩ := check_ok hserved
  obtain ⟨-, rfl⟩ := check_ok hroom
  have hd₁ := flat_writeSectors hd hsb
  rw [← hsame] at hd₁
  exact flat_writeSectors (flat_writeSectors (flat_writeSectors (flat_writeSectors hd₁ hblock)
    hinode) htable) hroot

end Flat

section Driver

open Drivers.Ide (Controller bytesAt)

variable {m : Controller} {devNo : Bool} {lba a n : UInt32} {busy : Nat → Nat} {s : State}

/-- The driver fills the buffer with what the file system reads. -/
theorem ideRead_driver (hbusy : ∀ i, busy i < 29999) (hpos : 0 < n.toNat)
    (hend : lba.toNat + n.toNat ≤ 163840) (hidle : m.Idle) (hdisk : m.disk devNo = s.disk) :
    ∃ m' buf, Drivers.Ide.ideRead busy devNo lba a n m = .ok ((), m') ∧
      ideRead lba (bytesAt m.mem a) n.toNat s = .ok (buf, s) ∧
      m'.disk devNo = s.disk ∧ ∀ i < 2 ^ 32, bytesAt m'.mem a i = buf i := by
  obtain ⟨m', hrun, hmoved⟩ := Drivers.Ide.ideRead_moved hbusy hpos hend hidle.1 hidle.2
  refine ⟨m', _, hrun, rfl, ?_, ?_⟩
  · rw [hmoved.disk]
    exact hdisk
  · intro i hi
    have hplace := Drivers.Ide.toNat_add_sub a hi
    rw [bytesAt, hmoved.mem]
    change (if (a + UInt32.ofNat i - a).toNat < 2 * (256 * n.toNat) then
      (m.disk devNo).drop (512 * lba.toNat) _ else _) = if _ then _ else _
    rw [hplace, hdisk]
    by_cases hlt : i < 512 * n.toNat
    · rw [if_pos (by omega), if_pos (by omega), Nat.sub_zero]
    · rw [if_neg (by omega), if_neg (by omega)]
      rfl

/-- The driver leaves the disk that the file system writes. -/
theorem ideWrite_driver (hbusy : ∀ i, busy i < 29999) (hpos : 0 < n.toNat)
    (hend : lba.toNat + n.toNat ≤ 163840) (hidle : m.Idle) (hdisk : m.disk devNo = s.disk) :
    ∃ m' s', Drivers.Ide.ideWrite busy devNo lba a n m = .ok ((), m') ∧
      ideWrite lba (bytesAt m.mem a) n.toNat s = .ok ((), s') ∧
      m'.disk devNo = s'.disk ∧ m'.mem = m.mem := by
  obtain ⟨m', hrun, hmoved⟩ := Drivers.Ide.ideWrite_moved hbusy hpos hend hidle.1 hidle.2
  have hlen : 2 * (256 * n.toNat) = 512 * n.toNat := by omega
  refine ⟨m', _, hrun, rfl, ?_, hmoved.mem⟩
  rw [hmoved.disk]
  change Function.update m.disk devNo _ devNo = _
  rw [Function.update_self, hlen, hdisk]
  rfl

theorem writeSectors_disk (buf : Bytes) :
    (s.writeSectors lba buf n.toNat).disk = Format.ideWrite s.disk lba buf n := rfl

end Driver

end Aitos.Fs
